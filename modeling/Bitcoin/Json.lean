/-!
# JSON

A value keeps what its text says: numbers as they are written, members in
their order and with repeated names. Strings are texts of Unicode characters;
one whose escapes leave a surrogate without its partner is no text (`none`),
which matters only where it is used. `render` writes a value and `parse?` reads
a text.
-/

namespace Bitcoin

/-- A number as it is written. -/
inductive Json.Number where
  /-- A number without fraction and exponent. -/
  | integer (negative : Bool) (magnitude : Nat)
  /-- The number `digits * 10 ^ exponent`. -/
  | decimal (negative : Bool) (digits : Nat) (exponent : Int)
  deriving Repr, DecidableEq

/-- A string; `none` if it has an unpaired surrogate. -/
abbrev Json.Text := Option String

/-- A JSON value. -/
inductive Json where
  | null
  | bool (b : Bool)
  | number (n : Json.Number)
  | string (s : Json.Text)
  | array (items : List Json)
  | object (members : List (Json.Text × Json))
  deriving Repr

namespace Json

/-- A text as a value. -/
def ofString (s : String) : Json := string (some s)

/-- An integer as a value. -/
def ofInt (n : Int) : Json := number (.integer (n < 0) n.natAbs)

/-- A natural number as a value. -/
def ofNat (n : Nat) : Json := number (.integer false n)

/-- An object with members of different names. -/
def ofMembers (members : List (String × Json)) : Json :=
  object (members.map fun (name, value) => (some name, value))

end Json

end Bitcoin

/-!
## Writing JSON

`render` writes a value without blanks. In strings, quotes, backslashes and
control characters are escaped, by a letter where there is one.
-/

namespace Bitcoin.Json

/-- A digit of hexadecimal text, in lower case. -/
def hexDigit (n : Nat) : Char := Char.ofNat (if n < 10 then 0x30 + n else 0x57 + n)

/-- A character as it stands in a string. -/
def writeChar (c : Char) : List Char :=
  if c = '"' then ['\\', '"']
  else if c = '\\' then ['\\', '\\']
  else if c = '\x08' then ['\\', 'b']
  else if c = '\x0c' then ['\\', 'f']
  else if c = '\n' then ['\\', 'n']
  else if c = '\r' then ['\\', 'r']
  else if c = '\t' then ['\\', 't']
  else if c.toNat < 0x20 then ['\\', 'u', '0', '0', hexDigit (c.toNat / 16), hexDigit (c.toNat % 16)]
  else [c]

/-- The text of a string; one that is no text is written as a lone surrogate. -/
def writeText : Text → String
  | some s => "\"" ++ String.ofList (s.toList.flatMap writeChar) ++ "\""
  | none => "\"\\ud800\""

/-- The text of a number. -/
def writeNumber : Number → String
  | .integer negative m => (if negative then "-" else "") ++ toString m
  | .decimal negative digits exponent =>
    (if negative then "-" else "") ++ toString digits ++ "e" ++ toString exponent

mutual

/-- The text of a value. -/
def render : Json → String
  | null => "null"
  | bool b => if b then "true" else "false"
  | number n => writeNumber n
  | string s => writeText s
  | array items => "[" ++ ",".intercalate (renderItems items) ++ "]"
  | object members => "\x7b" ++ ",".intercalate (renderMembers members) ++ "\x7d"

/-- The texts of the items of an array. -/
def renderItems : List Json → List String
  | [] => []
  | v :: vs => render v :: renderItems vs

/-- The texts of the members of an object. -/
def renderMembers : List (Text × Json) → List String
  | [] => []
  | (name, v) :: ms => (writeText name ++ ":" ++ render v) :: renderMembers ms

end

end Bitcoin.Json

/-!
## Reading JSON

`parse?` reads a text that holds one value and blanks around it, by the strict
grammar: no blank but space, tab, line feed and carriage return, no leading
zero, no control character in a string, no comma before a closing bracket.
-/

namespace Bitcoin.Json.Reader

/-- A blank between tokens. -/
def isBlank (c : Char) : Bool := c = ' ' || c = '\t' || c = '\n' || c = '\r'

/-- The text behind its leading blanks. -/
def skipBlanks (cs : List Char) : List Char := cs.dropWhile isBlank

/-- The text behind a word it starts with. -/
def afterWord? (word : String) (cs : List Char) : Option (List Char) :=
  if word.toList.isPrefixOf cs then some (cs.drop word.length) else none

/-- The number a list of decimal digits writes. -/
def decimal (ds : List Char) : Nat := ds.foldl (fun n d => 10 * n + (d.toNat - 0x30)) 0

/-- The leading digits of a text, of which there must be some, and the rest. -/
def digits? (cs : List Char) : Option (List Char × List Char) :=
  let ds := cs.takeWhile Char.isDigit
  if ds.isEmpty then none else some (ds, cs.dropWhile Char.isDigit)

/-- The digits behind a point, none if there is no point. -/
def fraction? : List Char → Option (List Char × List Char)
  | '.' :: cs => digits? cs
  | cs => some ([], cs)

/-- An exponent behind its letter. -/
def exponent? (cs : List Char) : Option (Option Int × List Char) :=
  match cs with
  | c :: cs =>
    if c = 'e' || c = 'E' then
      match cs with
      | '-' :: cs => (digits? cs).map fun (ds, cs) => (some (-(decimal ds : Int)), cs)
      | '+' :: cs => (digits? cs).map fun (ds, cs) => (some (decimal ds : Int), cs)
      | cs => (digits? cs).map fun (ds, cs) => (some (decimal ds : Int), cs)
    else some (none, c :: cs)
  | [] => some (none, [])

/-- A number behind its sign. -/
def unsigned? (negative : Bool) (cs : List Char) : Option (Number × List Char) := do
  let (whole, cs) ← digits? cs
  guard (whole.length = 1 || whole.head? != some '0')
  let (frac, cs) ← fraction? cs
  let (exp, cs) ← exponent? cs
  if frac.isEmpty && exp.isNone then return (.integer negative (decimal whole), cs)
  return (.decimal negative (decimal (whole ++ frac)) (exp.getD 0 - frac.length), cs)

/-- A number. -/
def number? : List Char → Option (Number × List Char)
  | '-' :: cs => unsigned? true cs
  | cs => unsigned? false cs

/-- The value of a hexadecimal digit. -/
def hexDigit? (c : Char) : Option Nat :=
  if '0' ≤ c ∧ c ≤ '9' then some (c.toNat - 0x30)
  else if 'a' ≤ c ∧ c ≤ 'f' then some (c.toNat - 0x57)
  else if 'A' ≤ c ∧ c ≤ 'F' then some (c.toNat - 0x37)
  else none

/-- The number that four hexadecimal digits write. -/
def hex4? (a b c d : Char) : Option Nat := do
  return 4096 * (← hexDigit? a) + 256 * (← hexDigit? b) + 16 * (← hexDigit? c) + (← hexDigit? d)

/-- The character behind a backslash that stands for one character. -/
def escaped? (c : Char) : Option Char :=
  match c with
  | '"' => some '"'
  | '\\' => some '\\'
  | '/' => some '/'
  | 'b' => some '\x08'
  | 'f' => some '\x0c'
  | 'n' => some '\n'
  | 'r' => some '\r'
  | 't' => some '\t'
  | _ => none

/-- What an escaped code adds to a string: a character, the first half of one,
or a second half without its first. -/
inductive CodeUnit where
  | char (c : Char)
  | high (n : Nat)
  | low (n : Nat)

/-- The kind of a code of four digits. -/
def unitOf (n : Nat) : CodeUnit :=
  if 0xd800 ≤ n ∧ n < 0xdc00 then .high n
  else if 0xdc00 ≤ n ∧ n < 0xe000 then .low n
  else .char (Char.ofNat n)

/-- The character of two halves. -/
def pair (high low : Nat) : Char := Char.ofNat (0x10000 + (high - 0xd800) * 0x400 + (low - 0xdc00))

/-- What was read of a string: its characters in reverse, whether a half stands
alone, and a first half that waits for its second. -/
structure Partial where
  done : List Char
  unpaired : Bool
  waiting : Option Nat

namespace Partial

/-- Nothing read. -/
def empty : Partial := ⟨[], false, none⟩

/-- A character follows; a first half that waits stays alone. -/
def char (p : Partial) (c : Char) : Partial := ⟨c :: p.done, p.unpaired || p.waiting.isSome, none⟩

/-- An escaped code follows. -/
def unit (p : Partial) : CodeUnit → Partial
  | .char c => p.char c
  | .high n => ⟨p.done, p.unpaired || p.waiting.isSome, some n⟩
  | .low n =>
    match p.waiting with
    | some high => ⟨pair high n :: p.done, p.unpaired, none⟩
    | none => ⟨p.done, true, none⟩

/-- The string is over. -/
def text (p : Partial) : Text :=
  if p.unpaired || p.waiting.isSome then none else some (String.ofList p.done.reverse)

end Partial

/-- The rest of a string up to its closing quote. -/
def string? (p : Partial) : List Char → Option (Text × List Char)
  | '"' :: cs => some (p.text, cs)
  | '\\' :: 'u' :: a :: b :: c :: d :: cs =>
    match hex4? a b c d with
    | some n => string? (p.unit (unitOf n)) cs
    | none => none
  | '\\' :: e :: cs =>
    match escaped? e with
    | some c => string? (p.char c) cs
    | none => none
  | c :: cs => if c.toNat < 0x20 || c = '\\' then none else string? (p.char c) cs
  | [] => none

/-- The name of a member, its colon included. -/
def name? (cs : List Char) : Option (Text × List Char) :=
  match skipBlanks cs with
  | '"' :: cs => do
    let (name, cs) ← string? .empty cs
    match skipBlanks cs with
    | ':' :: cs => return (name, cs)
    | _ => none
  | _ => none

/- Each call takes one unit from the first argument; at most two calls are made
for each character read. -/
mutual

/-- A value behind blanks. -/
def value? : Nat → List Char → Option (Json × List Char)
  | 0, _ => none
  | n + 1, cs =>
    match skipBlanks cs with
    | '"' :: cs => (string? .empty cs).map fun (s, cs) => (.string s, cs)
    | '[' :: cs =>
      match skipBlanks cs with
      | ']' :: cs => some (.array [], cs)
      | cs => items? n [] cs
    | '{' :: cs =>
      match skipBlanks cs with
      | '}' :: cs => some (.object [], cs)
      | cs => members? n [] cs
    | 'n' :: cs => (afterWord? "ull" cs).map fun cs => (.null, cs)
    | 't' :: cs => (afterWord? "rue" cs).map fun cs => (.bool true, cs)
    | 'f' :: cs => (afterWord? "alse" cs).map fun cs => (.bool false, cs)
    | cs => (number? cs).map fun (x, cs) => (.number x, cs)

/-- The items of an array from one of them on, after those already read, which
are kept in reverse. -/
def items? : Nat → List Json → List Char → Option (Json × List Char)
  | 0, _, _ => none
  | n + 1, done, cs => do
    let (v, cs) ← value? n cs
    match skipBlanks cs with
    | ',' :: cs => items? n (v :: done) cs
    | ']' :: cs => some (.array (v :: done).reverse, cs)
    | _ => none

/-- The members of an object from one of them on, after those already read,
which are kept in reverse. -/
def members? : Nat → List (Text × Json) → List Char → Option (Json × List Char)
  | 0, _, _ => none
  | n + 1, done, cs => do
    let (name, cs) ← name? cs
    let (v, cs) ← value? n cs
    match skipBlanks cs with
    | ',' :: cs => members? n ((name, v) :: done) cs
    | '}' :: cs => some (.object ((name, v) :: done).reverse, cs)
    | _ => none

end

end Reader

/-- The value a text holds, if it is the text of one value. -/
def parse? (text : String) : Option Json := do
  let cs := text.toList
  let (v, rest) ← Reader.value? (2 * cs.length + 2) cs
  guard (Reader.skipBlanks rest).isEmpty
  return v

end Bitcoin.Json

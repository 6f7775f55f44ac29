import Bitcoin.Hash

/-!
# Byte strings as text

Byte strings are written in hexadecimal, two digits a byte, or in Base58 with a
checksum behind them. A character that is no digit is named in the error with
its place.
-/

/-!
## Quoted characters

A character named in an error text stands between single quotes. The quote,
the backslash and the usual control characters are escaped by name; any other
character that does not print is written by its code in hexadecimal.
-/

namespace Bitcoin.Text

/-- Whether a character of the first 256 leaves a mark on paper; the other
control characters, the no-break space and the soft hyphen do not. -/
def prints (c : Char) : Bool :=
  let n := c.toNat
  0x20 ≤ n && n ≤ 0x7e || 0xa1 ≤ n && n != 0xad

/-- The code of a character in hexadecimal, without leading zeros. -/
def codePoint (c : Char) : String := String.ofList (Nat.toDigits 16 c.toNat)

/-- A character as it stands between single quotes. -/
def quotedBody (c : Char) : String :=
  if c = '\t' then "\\t"
  else if c = '\r' then "\\r"
  else if c = '\n' then "\\n"
  else if c = '\x00' then "\\0"
  else if c = '\'' then "\\'"
  else if c = '\\' then "\\\\"
  else if prints c then String.singleton c
  else "\\u\x7b" ++ codePoint c ++ "\x7d"

/-- A character in single quotes. -/
def quoted (c : Char) : String := "'" ++ quotedBody c ++ "'"

end Bitcoin.Text

/-!
## Hexadecimal text

Two digits a byte, high half first. `encode` writes lower case, `decode`
reads both cases and says where the first other character stands.
-/

namespace Bitcoin.Hex

/-- Why a text is not hexadecimal. -/
inductive Fault where
  | oddLength
  /-- The byte at `index` of the text is no digit. -/
  | notDigit (byte : UInt8) (index : Nat)
  deriving Repr, DecidableEq

/-- The wording of a fault; a byte is shown as the character of that code. -/
def Fault.message : Fault → String
  | .oddLength => "Odd number of digits"
  | .notDigit byte index =>
    "Invalid character " ++ Text.quoted (Char.ofNat byte.toNat) ++ " at position " ++ toString index

/-- The digit for a number below 16. -/
def digit (n : UInt8) : Char := Char.ofNat (if n < 10 then 0x30 + n.toNat else 0x57 + n.toNat)

/-- The number a digit stands for. -/
def value? (c : UInt8) : Option UInt8 :=
  if 0x30 ≤ c ∧ c ≤ 0x39 then some (c - 0x30)
  else if 0x41 ≤ c ∧ c ≤ 0x46 then some (c - 0x37)
  else if 0x61 ≤ c ∧ c ≤ 0x66 then some (c - 0x57)
  else none

/-- The two digits of a byte. -/
def digits (b : UInt8) : List Char := [digit (b >>> 4), digit (b &&& 0x0f)]

/-- The text of a byte string. -/
def encode (b : Bytes) : String := String.ofList (b.flatMap digits)

/-- The text of one byte. -/
def byte (b : UInt8) : String := encode [b]

/-- The value of the digit at place `index` of a text. -/
def valueAt (index : Nat) (c : UInt8) : Except Fault UInt8 :=
  match value? c with
  | some v => .ok v
  | none => .error (.notDigit c index)

/-- Reads pairs of digits, the first of them at place `index`, after the bytes
already read, which are kept in reverse. -/
def decodePairs (index : Nat) (read : Bytes) : Bytes → Except Fault Bytes
  | [] => .ok read.reverse
  | [_] => .error .oddLength
  | a :: b :: rest => do
    let high ← valueAt index a
    let low ← valueAt (index + 1) b
    decodePairs (index + 2) ((high <<< 4 ||| low) :: read) rest

/-- The byte string a text writes. An odd length is found before any character
that is no digit. -/
def decode (text : String) : Except Fault Bytes :=
  let bytes := text.toUTF8.data.toList
  if bytes.length % 2 = 1 then .error .oddLength else decodePairs 0 [] bytes

end Bitcoin.Hex

/-!
## Base58 with a checksum

A byte string is read as one big-endian number and written in base 58, each
leading zero byte as a leading `1`. Four bytes of the double SHA-256 are
appended before writing (`encodeCheck`) and compared after reading
(`decodeCheck`).
-/

namespace Bitcoin.Base58

/-- Why a text is not the Base58 form of a byte string with its checksum. -/
inductive Fault where
  /-- The byte at `index` is outside ASCII. -/
  | notAscii (index : Nat)
  /-- The character at `index` is no digit. -/
  | notDigit (c : Char) (index : Nat)
  | tooShort
  | checksum (calculated written : Bytes)
  deriving Repr, DecidableEq

/-- The bytes as a list of numbers in brackets. -/
def listing (b : Bytes) : String := "[" ++ ", ".intercalate (b.map fun x => toString x.toNat) ++ "]"

/-- The wording of a fault. -/
def Fault.message : Fault → String
  | .notAscii index =>
    "provided string contained non-ascii character starting at byte " ++ toString index
  | .notDigit c index =>
    "provided string contained invalid character " ++ Text.quoted c ++ " at byte " ++ toString index
  | .tooShort => "provided string is too small to contain a checksum"
  | .checksum calculated written =>
    "invalid checksum, calculated checksum: '" ++ listing calculated ++ "', expected checksum: " ++
      listing written

/-- The 58 digits: letters and numerals without `0`, `O`, `I` and `l`. -/
def alphabet : List Char := "123456789ABCDEFGHJKLMNPQRSTUVWXYZabcdefghijkmnopqrstuvwxyz".toList

/-- The digits of a number in base 58, least significant first. -/
def digits (n : Nat) : List Nat :=
  if h : n = 0 then [] else n % 58 :: digits (n / 58)
termination_by n
decreasing_by omega

/-- The number of leading elements that equal `x`. -/
def leading {α : Type} [BEq α] (x : α) (xs : List α) : Nat := (xs.takeWhile (· == x)).length

/-- The Base58 text of a byte string. -/
def encode (b : Bytes) : String :=
  String.ofList (List.replicate (leading 0 b) '1' ++
    (digits (Bytes.ofBigEndian b)).reverse.map fun d => alphabet.getD d '1')

/-- The value of the digit at place `index`. -/
def valueAt (index : Nat) (c : UInt8) : Except Fault Nat :=
  if 127 < c then .error (.notAscii index)
  else
    let char := Char.ofNat c.toNat
    match alphabet.idxOf? char with
    | some d => .ok d
    | none => .error (.notDigit char index)

/-- The values of the digits from place `index` on, after those already read,
which are kept in reverse. -/
def values (index : Nat) (read : List Nat) : Bytes → Except Fault (List Nat)
  | [] => .ok read.reverse
  | c :: rest => do
    let d ← valueAt index c
    values (index + 1) (d :: read) rest

/-- The byte string a text writes. -/
def decode (text : String) : Except Fault Bytes := do
  let ds ← values 0 [] text.toUTF8.data.toList
  let n := ds.foldl (fun n d => 58 * n + d) 0
  return List.replicate (leading 0 ds) 0 ++ (Bytes.minimal n).reverse

/-- The checksum of a byte string. -/
def checksum (b : Bytes) : Bytes := (doubleSha256 b).val.take 4

/-- The Base58 text of a byte string and its checksum. -/
def encodeCheck (b : Bytes) : String := encode (b ++ checksum b)

/-- The byte string a text writes, less its checksum. -/
def decodeCheck (text : String) : Except Fault Bytes := do
  let b ← decode text
  if b.length < 4 then throw .tooShort
  let payload := b.take (b.length - 4)
  let written := b.drop (b.length - 4)
  if checksum payload = written then return payload else throw (.checksum (checksum payload) written)

end Bitcoin.Base58

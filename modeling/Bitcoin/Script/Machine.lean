import Bitcoin.Signature

/-!
# The script machine

The machine holds a stack of byte strings, a flag for each open conditional
block, and the calls of the verifier made so far. A `Run` is a computation on
it that may fail; the machine is then left as the failing operation left it.
-/

/-!
## Numbers and truth values on the stack

A number is written least significant byte first; the highest bit of the last
byte is its sign and the others its magnitude, so zero is the empty string and
has other spellings too. A byte string is true unless its number is zero.
-/

namespace Bitcoin.Script

/-- Whether a byte string counts as true: some byte is not zero, and that byte
is not a lone sign bit at the end. -/
def isTrue : Bytes → Bool
  | [] => false
  | [b] => b != 0 && b != 0x80
  | b :: c :: rest => b != 0 || isTrue (c :: rest)

/-- The byte string of a truth value. -/
def ofBool (b : Bool) : Bytes := if b then [1] else []

namespace Number

/-- The number with a byte string as its sign and magnitude. -/
def value (b : Bytes) : Int :=
  let last := b.getLastD 0
  let magnitude := Bytes.ofLittleEndian b
  if last < 0x80 then magnitude else -((magnitude - 0x80 * Nat.pow 256 (b.length - 1) : Nat) : Int)

/-- The number of a byte string of at most `limit` bytes. -/
def decode (limit : Nat) (b : Bytes) : Except Error Int :=
  if limit < b.length then .error (.decode (.numberTooLong b.length limit)) else .ok (value b)

/-- The magnitude with the sign put in: in the last byte if its highest bit is
free, and in a further byte otherwise. -/
def withSign (negative : Bool) : Bytes → Bytes
  | [] => []
  | [b] =>
    if b < 0x80 then [if negative then b ||| 0x80 else b] else [b, if negative then 0x80 else 0]
  | b :: c :: rest => b :: withSign negative (c :: rest)

/-- The shortest byte string of a number. -/
def encode (n : Int) : Bytes := withSign (n < 0) (Bytes.minimal n.natAbs)

end Number

/-! ## Runs -/

/-- The state of a running script. -/
structure Machine where
  /-- The items, top first. -/
  stack : List Bytes
  /-- Whether each open block is taken, innermost first. -/
  flags : List Bool
  calls : List Call
  deriving Repr, DecidableEq

namespace Machine

/-- The machine with nothing on it. -/
def empty : Machine := ⟨[], [], []⟩

/-- Whether all open blocks are taken. -/
def executing (m : Machine) : Bool := m.flags.all id

/-- The machine with an item pushed. -/
def push (m : Machine) (item : Bytes) : Machine := { m with stack := item :: m.stack }

/-- The machine without items and open blocks. -/
def clear (m : Machine) : Machine := { m with stack := [], flags := [] }

end Machine

/-- A computation on a machine. -/
abbrev Run := EStateM Error Machine

namespace Run

/-- Pushes an item. -/
def push (item : Bytes) : Run Unit := modify (·.push item)

/-- Takes the top item for the operation with a label. -/
def pop (label : String) : Run Bytes := fun m =>
  match m.stack with
  | item :: rest => .ok item { m with stack := rest }
  | [] => .error (.stackUnderflow label) m

/-- Takes `n` items, the top one first. -/
def popMany (label : String) : Nat → Run (List Bytes)
  | 0 => pure []
  | n + 1 => do
    let item ← pop label
    let items ← popMany label n
    return item :: items

/-- Replaces the stack by what a function makes of it, unless it has too few
items for that. -/
def rearrange (label : String) (f : List Bytes → Option (List Bytes)) : Run Unit := fun m =>
  match f m.stack with
  | some stack => .ok () { m with stack }
  | none => .error (.stackUnderflow label) m

/-- The item on top, which stays. -/
def top (label : String) : Run Bytes := fun m =>
  match m.stack with
  | item :: _ => .ok item m
  | [] => .error (.stackUnderflow label) m

/-- A value, or the error there is instead of it. -/
def ofExcept {α : Type} : Except Error α → Run α
  | .ok a => pure a
  | .error e => throw e

/-- A check, whose calls are recorded with the others. -/
def ofCheck {α : Type} (check : Check α) : Run α := fun m =>
  match check m.calls with
  | .ok a calls => .ok a { m with calls }
  | .error e calls => .error e { m with calls }

/-- A run on a machine with nothing on it, as a check. -/
def toCheck {α : Type} (run : Run α) : Check α := fun calls =>
  match run { Machine.empty with calls } with
  | .ok a m => .ok a m.calls
  | .error e m => .error e m.calls

end Run

end Bitcoin.Script

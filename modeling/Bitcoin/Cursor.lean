import Bitcoin.Error

/-!
# Reading bytes from the front

A `Cursor` is what is left of some data and how many bytes were taken from it.
A `Read` is a reading that moves the cursor and may fail. A failed reading of
fixed length leaves the cursor where it was; a failed reading made of several
leaves it behind the parts that succeeded.

Counted data have a compact size in front, which is read in any of its forms and
written in the shortest.
-/

/-!
## Compact sizes

One byte below 253, and otherwise a marker byte and two, four or eight bytes,
least significant first. `encode` takes the shortest form.
-/

namespace Bitcoin.CompactSize

/-- The shortest form of a number below `2 ^ 64`. -/
def encode (n : Nat) : Bytes :=
  if n < 0xfd then [UInt8.ofNat n]
  else if n ≤ 0xffff then 0xfd :: Bytes.littleEndian 2 n
  else if n ≤ 0xffffffff then 0xfe :: Bytes.littleEndian 4 n
  else 0xff :: Bytes.littleEndian 8 n

/-- A byte string behind its length. -/
def counted (b : Bytes) : Bytes := encode b.length ++ b

/-- How many bytes follow a marker byte. -/
def widthAfter (marker : UInt8) : Nat :=
  if marker = 0xfd then 2 else if marker = 0xfe then 4 else if marker = 0xff then 8 else 0

end Bitcoin.CompactSize

/-! ## Readings -/

namespace Bitcoin

/-- A place in some data. -/
structure Cursor where
  /-- How many bytes were taken. -/
  offset : Nat
  /-- What is left. -/
  rest : Bytes
  deriving Repr, DecidableEq

/-- The front of some data. -/
def Cursor.start (data : Bytes) : Cursor := ⟨0, data⟩

/-- A reading of a value from the front of the data. -/
abbrev Read := EStateM Error Cursor

namespace Read

/-- The next `n` bytes. -/
def bytes (n : Nat) : Read (FixedBytes n) := fun c =>
  match Bytes.split? n c.rest with
  | some (front, rest) => .ok front ⟨c.offset + n, rest⟩
  | none => .error (.decode (.unexpectedEnd n c.offset c.rest.length)) c

/-- The number in the next `n` bytes, least significant first. -/
def number (n : Nat) : Read Nat := do
  let b ← bytes n
  return Bytes.ofLittleEndian b.val

/-- The next byte. -/
def uint8 : Read UInt8 := UInt8.ofNat <$> number 1

/-- The next two bytes as a number. -/
def uint16 : Read UInt16 := UInt16.ofNat <$> number 2

/-- The next four bytes as a number. -/
def uint32 : Read UInt32 := UInt32.ofNat <$> number 4

/-- The next four bytes as a signed number. -/
def int32 : Read Int32 := UInt32.toInt32 <$> uint32

/-- The next eight bytes as a number. -/
def uint64 : Read UInt64 := UInt64.ofNat <$> number 8

/-- The next eight bytes as a signed number. -/
def int64 : Read Int64 := UInt64.toInt64 <$> uint64

/-- The next byte, which is not taken. -/
def peek : Read (Option UInt8) := fun c => .ok c.rest.head? c

/-- The cursor itself. -/
def cursor : Read Cursor := fun c => .ok c c

/-- A compact size, in any of its forms. -/
def compactSize : Read Nat := do
  let marker ← uint8
  let width := CompactSize.widthAfter marker
  if width = 0 then return marker.toNat else number width

/-- A byte string behind its length. -/
def counted : Read Bytes := do
  let n ← compactSize
  let b ← bytes n
  return b.val

/-- `n` values one after the other, behind those already read, which are kept
in reverse. -/
def manyAfter {α : Type} (read : Read α) : Nat → List α → Read (List α)
  | 0, done => pure done.reverse
  | n + 1, done => do
    let x ← read
    manyAfter read n (x :: done)

/-- `n` values one after the other. -/
def many {α : Type} (read : Read α) (n : Nat) : Read (List α) := manyAfter read n []

/-- Values one after the other, behind their number. -/
def list {α : Type} (read : Read α) : Read (List α) := do
  let n ← compactSize
  many read n

/-- Reads a value from the front of some data and gives the place behind it. -/
def run {α : Type} (read : Read α) (data : Bytes) : Except Error (α × Cursor) :=
  match EStateM.run read (.start data) with
  | .ok a c => .ok (a, c)
  | .error e _ => .error e

end Read

end Bitcoin

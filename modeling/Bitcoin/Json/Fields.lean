import Bitcoin.Json

/-!
# Structures in JSON

A structure is written as an object, whose members with other names do not
matter, or as an array of its fields in order, of which the last may be left
out where they have a default. A member that names a field may stand only once.

`isSound` says of a value that all of it can be held: its strings are texts,
its numbers have a double-precision value and it is nested less than 128 deep.
-/

/-!
## Numbers in double precision

A number is held in double precision through its leading digits, as many as
stay below `2 ^ 64`, and the power of ten that stands for the rest of it. Both
are rounded to 53 bits and multiplied, so the number can be held unless their
product rounds to infinity.
-/

namespace Bitcoin.Json

/-- The number with at most 53 significant bits that is nearest to `n`; of two,
the one whose last significant bit is zero. -/
def nearestDouble (n : Nat) : Nat :=
  let unit := Nat.pow 2 (n.log2 - 52)
  let whole := n / unit
  let part := n % unit
  if 2 * part < unit ∨ 2 * part = unit ∧ whole % 2 = 0 then whole * unit else (whole + 1) * unit

/-- Numbers from here on round to infinity. -/
def overflow : Nat := Nat.pow 2 1024 - Nat.pow 2 970

/-- The leading digits of a number and the power of ten they count. -/
def leadingDigits (digits : Nat) (exponent : Int) : Nat × Int :=
  if digits < 0x10000000000000000 then (digits, exponent) else leadingDigits (digits / 10) (exponent + 1)
termination_by digits

/-- Whether `digits * 10 ^ exponent` can be held. -/
def isHeld (digits : Nat) (exponent : Int) : Bool :=
  let (leading, power) := leadingDigits digits exponent
  leading = 0 || power < 0 ||
    power ≤ 308 && nearestDouble leading * nearestDouble (Nat.pow 10 power.toNat) < overflow

/-- Whether a number has a double-precision value. -/
def Number.isFinite : Number → Bool
  | .integer _ magnitude => isHeld magnitude 0
  | .decimal _ digits exponent => isHeld digits exponent

/-! ## Fields -/

/-- The value of each field of a structure, by name. -/
def fields? (names : List String) : Json → Option (String → Option Json)
  | object members => do
    guard (members.all fun (name, _) => name.isSome)
    guard (names.all fun name => (members.filter (·.1 == some name)).length ≤ 1)
    return fun name => (members.find? (·.1 == some name)).map (·.2)
  | array items => do
    guard (items.length ≤ names.length)
    return fun name => (names.zip items).lookup name
  | _ => none

/-- A field that has to be there. -/
def required {α : Type} (read : Json → Option α) (field : Option Json) : Option α := field.bind read

/-- A field that has a value if it is not there. -/
def defaulted {α : Type} (absent : α) (read : Json → Option α) : Option Json → Option α
  | none => some absent
  | some v => read v

/-- A value that may be null. -/
def nullable {α : Type} (read : Json → Option α) : Json → Option (Option α)
  | null => some none
  | v => (read v).map some

/-- A field that may be null or not there. -/
def optional {α : Type} (read : Json → Option α) (field : Option Json) : Option (Option α) :=
  defaulted none (nullable read) field

/-- A string. -/
def text? : Json → Option String
  | string s => s
  | _ => none

/-- A truth value. -/
def bool? : Json → Option Bool
  | bool b => some b
  | _ => none

/-- A list of values. -/
def list? {α : Type} (read : Json → Option α) : Json → Option (List α)
  | array items => items.mapM read
  | _ => none

/-- An integer, written as one; a negative zero is none. -/
def int? : Json → Option Int
  | number (.integer false m) => some m
  | number (.integer true m) => if m = 0 then none else some (-m)
  | _ => none

/-- An integer between two bounds. -/
def intIn? (low high : Int) (v : Json) : Option Int := do
  let n ← int? v
  guard (low ≤ n ∧ n ≤ high)
  return n

/-- A signed number of 32 bits. -/
def int32? (v : Json) : Option Int32 := (intIn? Int32.minValue.toInt Int32.maxValue.toInt v).map Int32.ofInt

/-- A signed number of 64 bits. -/
def int64? (v : Json) : Option Int64 := (intIn? Int64.minValue.toInt Int64.maxValue.toInt v).map Int64.ofInt

/-- A number of 32 bits. -/
def uint32? (v : Json) : Option UInt32 := (intIn? 0 0xffffffff v).map fun n => UInt32.ofNat n.toNat

/-- A number of 64 bits. -/
def uint64? (v : Json) : Option UInt64 := (intIn? 0 0xffffffffffffffff v).map fun n => UInt64.ofNat n.toNat

mutual

/-- Whether a value can be held when at most `depth` levels of it may nest. -/
def isSoundWithin (depth : Nat) : Json → Bool
  | null | bool _ => true
  | number n => n.isFinite
  | string s => s.isSome
  | array items => 0 < depth && itemsSound (depth - 1) items
  | object members => 0 < depth && membersSound (depth - 1) members

/-- Whether all items of an array can be held. -/
def itemsSound (depth : Nat) : List Json → Bool
  | [] => true
  | v :: vs => isSoundWithin depth v && itemsSound depth vs

/-- Whether all members of an object can be held. -/
def membersSound (depth : Nat) : List (Text × Json) → Bool
  | [] => true
  | (name, v) :: ms => name.isSome && isSoundWithin depth v && membersSound depth ms

end

/-- Whether a value can be held. -/
def isSound (v : Json) : Bool := isSoundWithin 127 v

end Bitcoin.Json

import Bitcoin.Proofs.Outcome
import Bitcoin.Transaction

/-!
# Fields of wire forms

Wire forms and signed messages are fields one after the other. A number of a
fixed width can be told from its field up to the width (`littleEndian_eq_iff`),
so versions, lock times, outpoints, amounts and sequence numbers can be told
from theirs, byte strings from what they are behind their length (`counted_inj`), and
what may be absent if it is known whether it is (`optional_inj`). What is only
declared of an output is not in its wire form (`Output.wireBytes_wire`).
-/

namespace Bitcoin

@[simp] theorem FixedBytes.length_val {n : Nat} (b : FixedBytes n) : b.val.length = n := b.property

theorem FixedBytes.reverse_inj {n : Nat} {a b : FixedBytes n} : a.reverse = b.reverse ↔ a = b :=
  ⟨fun h => by rw [← a.reverse_reverse, h, b.reverse_reverse], fun h => by rw [h]⟩

namespace Bytes

/-- Numbers have the same field exactly if they agree in the bytes that it holds. -/
theorem littleEndian_eq_iff {w n m : Nat} :
    littleEndian w n = littleEndian w m ↔ n % Nat.pow 256 w = m % Nat.pow 256 w := by
  have low (n : Nat) : littleEndian w n = littleEndian w (n % Nat.pow 256 w) := by
    have h := littleEndian_ofLittleEndian (littleEndian w n)
    rw [length_littleEndian, ofLittleEndian_littleEndian] at h
    exact h.symm
  constructor
  · intro h
    rw [← ofLittleEndian_littleEndian, h, ofLittleEndian_littleEndian]
  · intro h
    rw [low n, h, ← low m]

theorem littleEndian_inj {w n m : Nat} (hn : n < Nat.pow 256 w) (hm : m < Nat.pow 256 w) :
    littleEndian w n = littleEndian w m ↔ n = m := by
  rw [littleEndian_eq_iff, Nat.mod_eq_of_lt hn, Nat.mod_eq_of_lt hm]

theorem littleEndian_uint8_inj {w : Nat} (hw : 0 < w) {x y : UInt8} :
    littleEndian w x.toNat = littleEndian w y.toNat ↔ x = y := by
  have hp : Nat.pow 256 1 ≤ Nat.pow 256 w := Nat.pow_le_pow_right (by decide) hw
  rw [littleEndian_inj (Nat.lt_of_lt_of_le x.toNat_lt hp) (Nat.lt_of_lt_of_le y.toNat_lt hp), UInt8.toNat_inj]

theorem littleEndian_uint32_inj {x y : UInt32} : littleEndian 4 x.toNat = littleEndian 4 y.toNat ↔ x = y := by
  rw [littleEndian_inj x.toNat_lt y.toNat_lt, UInt32.toNat_inj]

/-- A field of four bytes holds a number as one of 32 bits. -/
theorem littleEndian_toNat_ofNat (n : Nat) : littleEndian 4 (UInt32.ofNat n).toNat = littleEndian 4 n := by
  rw [littleEndian_eq_iff, UInt32.toNat_ofNat']
  exact Nat.mod_mod n (Nat.pow 256 4)

theorem littleEndian_int32_inj {x y : Int32} :
    littleEndian 4 x.toUInt32.toNat = littleEndian 4 y.toUInt32.toNat ↔ x = y := by
  rw [littleEndian_uint32_inj]
  exact ⟨fun h => by rw [← x.toInt32_toUInt32, h, y.toInt32_toUInt32], fun h => by rw [h]⟩

theorem littleEndian_int64_inj {x y : Int64} :
    littleEndian 8 x.toUInt64.toNat = littleEndian 8 y.toUInt64.toNat ↔ x = y := by
  rw [littleEndian_inj x.toUInt64.toNat_lt y.toUInt64.toNat_lt, UInt64.toNat_inj]
  exact ⟨fun h => by rw [← x.toInt64_toUInt64, h, y.toInt64_toUInt64], fun h => by rw [h]⟩

/-! ## Fields that may be absent -/

variable {α : Type} {write : α → Bytes} {o o' : Option α}

/-- The field of something that may be absent. -/
def optional (write : α → Bytes) : Option α → Bytes
  | some a => write a
  | none => []

theorem length_optional {n : Nat} (hw : ∀ a, (write a).length = n) (o : Option α) :
    (optional write o).length = if o.isSome then n else 0 := by
  cases o with
  | none => rfl
  | some a => exact hw a

theorem optional_inj (hw : ∀ {a a'}, write a = write a' ↔ a = a') (hs : o.isSome = o'.isSome) :
    optional write o = optional write o' ↔ o = o' := by
  cases o <;> cases o' <;> simp_all [optional]

end Bytes

open Bytes

/-! ## Byte strings behind their length -/

namespace CompactSize

theorem length_encode (n : Nat) :
    (encode n).length = if n < 0xfd then 1 else if n ≤ 0xffff then 3 else if n ≤ 0xffffffff then 5 else 9 := by
  unfold encode
  split
  · rfl
  split
  · simp
  split <;> simp

/-- The longer of two byte strings is longer with its length in front too. -/
theorem counted_inj {a b : Bytes} : counted a = counted b ↔ a = b := by
  constructor
  · intro h
    have hl := congrArg List.length h
    rw [counted, counted, List.length_append, List.length_append, length_encode, length_encode] at hl
    exact (List.append_inj' h (by grind)).2
  · rintro rfl
    rfl

end CompactSize

/-! ## Fields of transactions -/

namespace OutPoint

@[simp] theorem length_serialize (o : OutPoint) : o.serialize.length = 36 := by
  rw [serialize, List.length_append, FixedBytes.length_val, length_littleEndian]

theorem serialize_inj {o o' : OutPoint} : o.serialize = o'.serialize ↔ o = o' := by
  rw [serialize, serialize, List.append_eq_append_iff_of_size_eq_left (by simp), littleEndian_uint32_inj,
    ← Subtype.ext_iff, FixedBytes.reverse_inj, OutPoint.mk.injEq o.txid o.vout o'.txid o'.vout]

end OutPoint

namespace Output

/-- What the wire form of an output says of it. -/
def wire (o : Output) : Amount × Bytes := (o.value, o.script)

/-- The wire form of an output of which this is to be said. -/
def wireBytes (w : Amount × Bytes) : Bytes := littleEndian 8 w.1.toUInt64.toNat ++ CompactSize.counted w.2

theorem wireBytes_wire (o : Output) : wireBytes o.wire = o.serialize := rfl

theorem wireBytes_inj {w w' : Amount × Bytes} : wireBytes w = wireBytes w' ↔ w = w' := by
  rw [wireBytes, wireBytes, List.append_eq_append_iff_of_size_eq_left (by simp), littleEndian_int64_inj,
    CompactSize.counted_inj, Prod.ext_iff]

theorem flatMap_serialize_eq (os : List Output) : os.flatMap serialize = (os.map wire).flatMap wireBytes :=
  (List.flatMap_map wire wireBytes os).symm

end Output

namespace Transaction

variable {tx tx' : Transaction}

@[simp] theorem length_versionBytes (tx : Transaction) : tx.versionBytes.length = 4 := length_littleEndian 4 _

@[simp] theorem length_locktimeBytes (tx : Transaction) : tx.locktimeBytes.length = 4 := length_littleEndian 4 _

theorem versionBytes_inj : tx.versionBytes = tx'.versionBytes ↔ tx.version = tx'.version := littleEndian_int32_inj

theorem locktimeBytes_inj : tx.locktimeBytes = tx'.locktimeBytes ↔ tx.locktime = tx'.locktime :=
  littleEndian_uint32_inj

theorem input_eq_ok {index : Nat} {i : Input} : tx.input index = .ok i ↔ tx.inputs[index]? = some i := by
  unfold input
  cases tx.inputs[index]? <;> simp

theorem prevout_eq_ok {index : Nat} {i : Input} {o : Output} (hi : tx.inputs[index]? = some i) :
    tx.prevout index = .ok o ↔ i.prevout = some o := by
  unfold prevout
  simp only [input_eq_ok.2 hi, ok_bind]
  cases i.prevout with
  | none =>
    constructor
    · intro h
      cases h
    · intro h
      cases h
  | some o' => exact ⟨fun h => congrArg some (Except.ok.inj h), fun h => congrArg Except.ok (Option.some.inj h)⟩

theorem flatMap_outpoint_eq (h : tx.inputs.map Input.outpoint = tx'.inputs.map Input.outpoint) :
    (tx.inputs.flatMap fun i => i.outpoint.serialize) = tx'.inputs.flatMap fun i => i.outpoint.serialize := by
  rw [← List.flatMap_map Input.outpoint, h, List.flatMap_map]

theorem flatMap_sequence_eq (h : tx.inputs.map Input.sequence = tx'.inputs.map Input.sequence) :
    (tx.inputs.flatMap fun i => littleEndian 4 i.sequence.toNat) =
      tx'.inputs.flatMap fun i => littleEndian 4 i.sequence.toNat := by
  rw [← List.flatMap_map Input.sequence fun s => littleEndian 4 s.toNat, h, List.flatMap_map]

end Transaction

end Bitcoin

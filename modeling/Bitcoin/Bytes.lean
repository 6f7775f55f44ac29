/-!
# Byte strings

Byte strings are lists of bytes, and those of a known length (digests, keys,
signatures) carry it in their type as `FixedBytes`. Numbers are read and
written in both byte orders through `Nat`; `FixedBytes.reverse` changes a hash
between the order it is hashed in and the order it is displayed in.

Main lemmas: `split?_append`, `length_littleEndian`,
`ofLittleEndian_littleEndian`, `littleEndian_ofLittleEndian`,
`lt_iff_ofBigEndian_lt`.
-/

namespace Bitcoin

/-- A string of bytes. -/
abbrev Bytes := List UInt8

/-- A byte string of length `n`. -/
abbrev FixedBytes (n : Nat) := { b : Bytes // b.length = n }

/-- A 256-bit hash. -/
abbrev Hash256 := FixedBytes 32

/-- A 160-bit hash. -/
abbrev Hash160 := FixedBytes 20

namespace Bytes

/-- The `w` low bytes of `n`, least significant first. -/
def littleEndian : Nat → Nat → Bytes
  | 0, _ => []
  | w + 1, n => UInt8.ofNat n :: littleEndian w (n / 256)

/-- The `w` low bytes of `n`, most significant first. -/
def bigEndian (w n : Nat) : Bytes := (littleEndian w n).reverse

/-- The number written least significant byte first. -/
def ofLittleEndian : Bytes → Nat
  | [] => 0
  | b :: bs => b.toNat + 256 * ofLittleEndian bs

/-- The number written most significant byte first. -/
def ofBigEndian (b : Bytes) : Nat := b.foldl (fun n x => 256 * n + x.toNat) 0

/-- The bytes of a number, least significant first, without zeros at the end. -/
def minimal (n : Nat) : Bytes :=
  if h : n = 0 then [] else UInt8.ofNat n :: minimal (n / 256)
termination_by n
decreasing_by omega

/-- The first `n` bytes and what follows them, if there are that many. -/
def split? (n : Nat) (b : Bytes) : Option (FixedBytes n × Bytes) :=
  let front := b.take n
  if h : front.length = n then some (⟨front, h⟩, b.drop n) else none

theorem append_of_split? {n : Nat} {b rest : Bytes} {front : FixedBytes n}
    (h : split? n b = some (front, rest)) : front.val ++ rest = b := by
  simp only [split?] at h
  split at h
  · cases h; exact List.take_append_drop n b
  · cases h

theorem split?_append {n : Nat} (front : FixedBytes n) (rest : Bytes) :
    split? n (front.val ++ rest) = some (front, rest) := by
  simp only [split?, List.take_left' front.property, List.drop_left' front.property, front.property, dite_true]

theorem length_of_split? {n : Nat} {b rest : Bytes} {front : FixedBytes n}
    (h : split? n b = some (front, rest)) : n + rest.length = b.length := by
  rw [← append_of_split? h, List.length_append, front.property]

@[simp] theorem length_littleEndian (w n : Nat) : (littleEndian w n).length = w := by
  induction w generalizing n with
  | zero => rfl
  | succ w ih => simp [littleEndian, ih]

@[simp] theorem length_bigEndian (w n : Nat) : (bigEndian w n).length = w := by
  simp [bigEndian]

theorem ofLittleEndian_lt (b : Bytes) : ofLittleEndian b < Nat.pow 256 b.length := by
  induction b with
  | nil => simp [ofLittleEndian]
  | cons x b ih =>
    have := x.toNat_lt
    show x.toNat + 256 * ofLittleEndian b < Nat.pow 256 b.length * 256
    omega

theorem ofLittleEndian_littleEndian (w n : Nat) : ofLittleEndian (littleEndian w n) = n % Nat.pow 256 w := by
  induction w generalizing n with
  | zero => simp [littleEndian, ofLittleEndian, Nat.mod_one]
  | succ w ih =>
    have hb : (UInt8.ofNat n).toNat = n % 256 := UInt8.toNat_ofNat'
    rw [littleEndian, ofLittleEndian, ih, hb, ← Nat.mod_mul, Nat.mul_comm 256]
    rfl

theorem littleEndian_ofLittleEndian (b : Bytes) : littleEndian b.length (ofLittleEndian b) = b := by
  induction b with
  | nil => rfl
  | cons x b ih =>
    have hx := x.toNat_lt
    have hd : (x.toNat + 256 * ofLittleEndian b) / 256 = ofLittleEndian b := by omega
    have hm : UInt8.ofNat (x.toNat + 256 * ofLittleEndian b) = x := by
      apply UInt8.toNat_inj.1
      rw [UInt8.toNat_ofNat']
      omega
    simp only [List.length_cons, littleEndian, ofLittleEndian, hd, hm, ih]

theorem foldl_bigEndian (b : Bytes) (n : Nat) :
    b.foldl (fun n x => 256 * n + x.toNat) n = n * Nat.pow 256 b.length + ofBigEndian b := by
  unfold ofBigEndian
  induction b generalizing n with
  | nil => exact (Nat.mul_one n).symm
  | cons x b ih =>
    rw [List.foldl_cons, List.foldl_cons, ih, ih (256 * 0 + x.toNat), List.length_cons]
    show (256 * n + x.toNat) * _ + _ = n * (Nat.pow 256 b.length * 256) + _
    rw [Nat.add_mul, Nat.mul_comm (Nat.pow 256 b.length), ← Nat.mul_assoc, Nat.mul_comm 256 n, Nat.mul_zero,
      Nat.zero_add, Nat.add_assoc]

theorem ofBigEndian_cons (x : UInt8) (b : Bytes) :
    ofBigEndian (x :: b) = x.toNat * Nat.pow 256 b.length + ofBigEndian b := by
  rw [ofBigEndian, List.foldl_cons, foldl_bigEndian, Nat.mul_zero, Nat.zero_add]

theorem ofBigEndian_lt (b : Bytes) : ofBigEndian b < Nat.pow 256 b.length := by
  induction b with
  | nil => exact Nat.one_pos
  | cons x b ih =>
    have hx : x.toNat + 1 ≤ 256 := x.toNat_lt
    have hp := Nat.mul_le_mul_right (Nat.pow 256 b.length) hx
    rw [Nat.add_mul, Nat.one_mul] at hp
    rw [ofBigEndian_cons]
    show _ < Nat.pow 256 b.length * 256
    omega

/-- Byte strings of one length are ordered as the numbers they write. -/
theorem lt_iff_ofBigEndian_lt {a b : Bytes} (h : a.length = b.length) : a < b ↔ ofBigEndian a < ofBigEndian b := by
  induction a generalizing b with
  | nil =>
    cases List.length_eq_zero_iff.1 h.symm
    simp
  | cons x a ih =>
    obtain ⟨y, b, rfl⟩ := List.exists_cons_of_length_eq_add_one h.symm
    have hl : a.length = b.length := Nat.succ.inj h
    have ha := ofBigEndian_lt a
    have hb := ofBigEndian_lt b
    rw [List.cons_lt_cons_iff, ih hl, ofBigEndian_cons, ofBigEndian_cons, ← hl, UInt8.lt_iff_toNat_lt, ← UInt8.toNat_inj]
    rw [← hl] at hb
    have step : ∀ {u v : Nat}, u < v → u * Nat.pow 256 a.length + Nat.pow 256 a.length ≤ v * Nat.pow 256 a.length :=
      fun hu => Nat.succ_mul _ _ ▸ Nat.mul_le_mul_right _ hu
    obtain hxy | hxy | hxy := Nat.lt_trichotomy x.toNat y.toNat
    · have := step hxy
      omega
    · rw [hxy]
      omega
    · have := step hxy
      omega

end Bytes

namespace FixedBytes

/-- The byte string as one of length `n`, if that is its length. -/
def ofBytes? (n : Nat) (b : Bytes) : Option (FixedBytes n) :=
  if h : b.length = n then some ⟨b, h⟩ else none

/-- `n` zero bytes. -/
def zero (n : Nat) : FixedBytes n := ⟨List.replicate n 0, List.length_replicate⟩

/-- The bytes in the opposite order. -/
def reverse {n : Nat} (b : FixedBytes n) : FixedBytes n := ⟨b.val.reverse, by simp [b.property]⟩

/-- One byte string followed by another. -/
def append {m n : Nat} (a : FixedBytes m) (b : FixedBytes n) : FixedBytes (m + n) :=
  ⟨a.val ++ b.val, by simp [a.property, b.property]⟩

/-- The number `k` in `n` bytes, least significant first. -/
def littleEndian (n k : Nat) : FixedBytes n := ⟨Bytes.littleEndian n k, Bytes.length_littleEndian n k⟩

/-- The number `k` in `n` bytes, most significant first. -/
def bigEndian (n k : Nat) : FixedBytes n := ⟨Bytes.bigEndian n k, Bytes.length_bigEndian n k⟩

/-- Comparison from the first byte on; for equal lengths this is the order of
the big-endian numbers. -/
def lt {n : Nat} (a b : FixedBytes n) : Bool := decide (a.val < b.val)

theorem lt_iff {n : Nat} (a b : FixedBytes n) :
    a.lt b = true ↔ Bytes.ofBigEndian a.val < Bytes.ofBigEndian b.val := by
  rw [lt, decide_eq_true_eq, Bytes.lt_iff_ofBigEndian_lt (a.property.trans b.property.symm)]

theorem append_val_inj {m n : Nat} {a c : FixedBytes m} {b d : FixedBytes n} :
    a.val ++ b.val = c.val ++ d.val ↔ a = c ∧ b = d := by
  constructor
  · intro h
    obtain ⟨hl, hr⟩ := List.append_inj h (a.property.trans c.property.symm)
    exact ⟨Subtype.ext hl, Subtype.ext hr⟩
  · rintro ⟨rfl, rfl⟩
    rfl

@[simp] theorem reverse_reverse {n : Nat} (b : FixedBytes n) : b.reverse.reverse = b := by
  apply Subtype.ext
  simp [reverse]

end FixedBytes

end Bitcoin

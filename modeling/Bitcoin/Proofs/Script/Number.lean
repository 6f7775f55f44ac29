import Bitcoin.Proofs.Bytes
import Bitcoin.Script.Machine

/-!
# Numbers as signs and magnitudes

What a byte string says as a number: the highest bit of its last byte is the
sign, the other bits are the magnitude, least significant byte first (`signed`).
Decoding gives this number for every byte string that is short enough
(`decode_eq_ok_iff`).

A magnitude with a sign has one shortest spelling (`spell`), the one that
encoding writes: the sign goes into the last byte if that has room for it, and
into a further one if not. So encoding keeps the number (`signed_encode`), what
is read from a byte string is never written longer, and it is written as long
only as the same bytes (`length_encode_le`).
-/

namespace Bitcoin.Script.Number

/-! ## Signs and magnitudes -/

/-- The highest bit of the last byte. -/
def negative : Bytes → Bool
  | [] => false
  | [b] => 0x80 ≤ b
  | _ :: c :: rest => negative (c :: rest)

/-- The number that the other bits write. -/
def magnitude : Bytes → Nat
  | [] => 0
  | [b] => b.toNat % 128
  | b :: c :: rest => b.toNat + 256 * magnitude (c :: rest)

/-- The number with the sign and the magnitude of a byte string. -/
def signed (b : Bytes) : Int := if negative b then -(magnitude b : Int) else magnitude b

theorem sign_le_iff (b : UInt8) : (0x80 : UInt8) ≤ b ↔ 128 ≤ b.toNat := UInt8.le_iff_toNat_le

theorem lt_sign_iff (b : UInt8) : b < (0x80 : UInt8) ↔ b.toNat < 128 := UInt8.lt_iff_toNat_lt

theorem negative_eq (b : Bytes) (c : UInt8) : negative (b ++ [c]) = decide (0x80 ≤ c) := by
  fun_induction negative b with
  | case1 => rfl
  | case2 b => rfl
  | case3 b d rest ih => exact ih

theorem ofLittleEndian_eq (b : Bytes) : Bytes.ofLittleEndian b =
    magnitude b + if negative b then 128 * Nat.pow 256 (b.length - 1) else 0 := by
  fun_induction magnitude b with
  | case1 => rfl
  | case2 b =>
    have := b.toNat_lt
    simp only [Bytes.ofLittleEndian, negative, decide_eq_true_eq, sign_le_iff, List.length_singleton, Nat.sub_self,
      show Nat.pow 256 0 = 1 from rfl]
    split <;> omega
  | case3 b c rest ih =>
    have hp : Nat.pow 256 ((b :: c :: rest).length - 1) = Nat.pow 256 ((c :: rest).length - 1) * 256 := rfl
    rw [Bytes.ofLittleEndian, ih, hp, negative]
    split <;> omega

theorem magnitude_lt {b : Bytes} (hb : b ≠ []) : magnitude b < 128 * Nat.pow 256 (b.length - 1) := by
  fun_induction magnitude b with
  | case1 => exact absurd rfl hb
  | case2 b =>
    show _ < 128 * 1
    omega
  | case3 b c rest ih =>
    have := b.toNat_lt
    have hi := ih nofun
    have hp : Nat.pow 256 ((b :: c :: rest).length - 1) = Nat.pow 256 ((c :: rest).length - 1) * 256 := rfl
    rw [hp]
    omega

/-- The number that is decoded is the one with this sign and magnitude. -/
theorem value_eq_signed (b : Bytes) : value b = signed b := by
  have hl : ¬b.getLastD 0 < 0x80 ↔ negative b = true := by
    rcases List.eq_nil_or_concat b with rfl | ⟨front, last, rfl⟩
    · decide
    · rw [List.concat_eq_append, negative_eq, List.getLastD_concat, decide_eq_true_eq, lt_sign_iff, sign_le_iff, Nat.not_lt]
  rw [value, signed, ofLittleEndian_eq]
  cases hn : negative b with
  | false =>
    rw [if_pos (Decidable.not_not.1 (mt hl.1 (by simp [hn])))]
    simp
  | true =>
    rw [if_neg (hl.2 hn)]
    simp

theorem decode_eq_ok_iff {limit : Nat} {b : Bytes} {v : Int} :
    decode limit b = .ok v ↔ b.length ≤ limit ∧ v = signed b := by
  rw [decode, value_eq_signed]
  split
  · simp; omega
  · simp only [Except.ok.injEq]
    omega

theorem natAbs_signed (b : Bytes) : (signed b).natAbs = magnitude b := by
  rw [signed]
  split <;> omega

/-- With at most `n + 1` bytes the magnitude has at most `8 n + 7` bits. -/
theorem natAbs_signed_lt {b : Bytes} {n : Nat} (h : b.length ≤ n + 1) : (signed b).natAbs < 128 * Nat.pow 256 n := by
  rw [natAbs_signed]
  cases b with
  | nil => exact Nat.mul_pos (by decide) (Nat.pow_pos (by decide))
  | cons x rest =>
    have hp : Nat.pow 256 ((x :: rest).length - 1) ≤ Nat.pow 256 n := Nat.pow_le_pow_right (by decide) (by simpa using h)
    have := magnitude_lt (b := x :: rest) nofun
    omega

/-! ## The shortest spelling -/

/-- The shortest byte string with a sign and a magnitude. -/
def spell (s : Bool) (n : Nat) : Bytes := withSign s (Bytes.minimal n)

theorem magnitude_cons (x : UInt8) {b : Bytes} (hb : b ≠ []) : magnitude (x :: b) = x.toNat + 256 * magnitude b := by
  cases b with
  | nil => exact absurd rfl hb
  | cons c rest => rfl

theorem negative_cons (x : UInt8) {b : Bytes} (hb : b ≠ []) : negative (x :: b) = negative b := by
  cases b with
  | nil => exact absurd rfl hb
  | cons c rest => rfl

theorem withSign_ne_nil (s : Bool) (x : UInt8) (b : Bytes) : withSign s (x :: b) ≠ [] := by
  cases b with
  | nil => rw [withSign]; split <;> nofun
  | cons c rest => nofun

theorem toNat_or_sign {x : UInt8} (h : x.toNat < 128) : (x ||| 0x80).toNat = x.toNat + 128 := by
  have hx : 128 * 1 + x.toNat = 128 * 1 ||| x.toNat := Nat.two_pow_add_eq_or_of_lt (show x.toNat < 2 ^ 7 from h) 1
  rw [UInt8.toNat_or, Nat.or_comm]
  exact hx.symm.trans (by omega)

theorem magnitude_withSign (s : Bool) (b : Bytes) : magnitude (withSign s b) = Bytes.ofLittleEndian b := by
  fun_induction withSign s b with
  | case1 => rfl
  | case2 b h =>
    have hb := (lt_sign_iff b).1 h
    cases s with
    | false =>
      show b.toNat % 128 = b.toNat + 256 * 0
      omega
    | true =>
      show (b ||| 0x80).toNat % 128 = b.toNat + 256 * 0
      rw [toNat_or_sign hb]
      omega
  | case3 b h => cases s <;> rfl
  | case4 b c rest ih =>
    rw [magnitude_cons b (withSign_ne_nil s c rest), ih]
    rfl

theorem negative_withSign (s : Bool) {b : Bytes} (hb : b ≠ []) : negative (withSign s b) = s := by
  fun_induction withSign s b with
  | case1 => exact absurd rfl hb
  | case2 b h =>
    have hb := (lt_sign_iff b).1 h
    cases s with
    | false => simpa [negative, sign_le_iff] using hb
    | true => simp [negative, sign_le_iff, toNat_or_sign hb]
  | case3 b h => cases s <;> rfl
  | case4 b c rest ih => rw [negative_cons b (withSign_ne_nil s c rest), ih nofun]

theorem signed_spell (s : Bool) (n : Nat) : signed (spell s n) = if s then -(n : Int) else n := by
  by_cases hn : n = 0
  · subst hn
    simp [spell, Bytes.minimal_zero, withSign, signed, magnitude]
  · have hb : Bytes.minimal n ≠ [] := by
      rw [Bytes.minimal_of_ne_zero hn]
      nofun
    rw [signed, spell, negative_withSign s hb, magnitude_withSign, Bytes.ofLittleEndian_minimal]

/-- Encoding keeps the number. -/
theorem signed_encode (v : Int) : signed (encode v) = v := by
  have h : signed (encode v) = if (v < 0 : Bool) then -(v.natAbs : Int) else v.natAbs := signed_spell _ _
  rw [h]
  by_cases hv : v < 0
  · rw [decide_eq_true hv, if_pos rfl]
    omega
  · rw [decide_eq_false hv, if_neg Bool.false_ne_true]
    omega

/-! ## What a spelling begins with -/

section Spell

variable (s : Bool) {x : UInt8}

theorem spell_zero : spell s 0 = [] := by
  rw [spell, Bytes.minimal_zero, withSign]

theorem spell_byte (h : x.toNat ≠ 0) : spell s x.toNat = withSign s [x] := by
  have hm := Bytes.minimal_cons x (n := 0) (by omega)
  rw [Nat.mul_zero, Nat.add_zero, Bytes.minimal_zero] at hm
  rw [spell, hm]

theorem spell_cons (x : UInt8) {n : Nat} (h : n ≠ 0) : spell s (x.toNat + 256 * n) = x :: spell s n := by
  rw [spell, Bytes.minimal_cons x (by omega), spell, Bytes.minimal_of_ne_zero h, withSign]

/-- A byte takes no more than two bytes, and two if there is no room in it for
the sign. -/
theorem length_spell_byte (x : UInt8) : (spell s x.toNat).length ≤ 2 ∧
    ((spell s x.toNat).length = 2 → spell s x.toNat = [x, if s then 0x80 else 0]) := by
  by_cases h : x.toNat = 0
  · rw [h, spell_zero]
    exact ⟨Nat.zero_le 2, nofun⟩
  · rw [spell_byte s h, withSign]
    split
    · exact ⟨Nat.le_succ 1, nofun⟩
    · exact ⟨Nat.le_refl 2, fun _ => rfl⟩

/-- The sign and the other bits of a byte are spelled as this byte. -/
theorem spell_of_mod_ne_zero (h : x.toNat % 128 ≠ 0) : spell (0x80 ≤ x : Bool) (x.toNat % 128) = [x] := by
  have hx := x.toNat_lt
  have hm : (UInt8.ofNat (x.toNat % 128)).toNat = x.toNat % 128 := by
    rw [UInt8.toNat_ofNat']
    omega
  have hl : (UInt8.ofNat (x.toNat % 128)).toNat < 128 := by omega
  rw [← hm] at h ⊢
  rw [spell_byte _ h, withSign, if_pos ((lt_sign_iff _).2 hl), List.singleton_inj]
  apply UInt8.toNat_inj.1
  by_cases hs : 0x80 ≤ x
  · have := (sign_le_iff x).1 hs
    rw [decide_eq_true hs, if_pos rfl, toNat_or_sign hl]
    omega
  · have := mt (sign_le_iff x).2 hs
    rw [decide_eq_false hs, if_neg nofun]
    omega

theorem length_spell_le_of_lt {n k : Nat} (h : n < 128 * Nat.pow 256 k) : (spell s n).length ≤ k + 1 := by
  induction k generalizing n with
  | zero =>
    have hn : n < 128 := h
    have hx : (UInt8.ofNat n).toNat = n := by
      rw [UInt8.toNat_ofNat']
      omega
    rw [← hx]
    by_cases h0 : (UInt8.ofNat n).toNat = 0
    · rw [h0, spell_zero]
      exact Nat.zero_le 1
    · rw [spell_byte s h0, withSign, if_pos ((lt_sign_iff _).2 (by omega))]
      exact Nat.le_refl 1
  | succ k ih =>
    have hx : (UInt8.ofNat n).toNat + 256 * (n / 256) = n := by
      rw [UInt8.toNat_ofNat']
      omega
    have hk : n < 128 * (Nat.pow 256 k * 256) := h
    by_cases h0 : n / 256 = 0
    · have hb := (length_spell_byte s (UInt8.ofNat n)).1
      rw [← hx, h0, Nat.mul_zero, Nat.add_zero]
      omega
    · rw [← hx, spell_cons s _ h0, List.length_cons]
      have := ih (n := n / 256) (by omega)
      omega

end Spell

/-- What is read from a byte string is not spelled longer, and only the same
bytes are a spelling as long: by induction on the bytes. -/
theorem length_spell_le (b : Bytes) : (spell (negative b) (magnitude b)).length ≤ b.length ∧
    ((spell (negative b) (magnitude b)).length = b.length → b = spell (negative b) (magnitude b)) := by
  fun_induction magnitude b with
  | case1 => rw [spell_zero]; exact ⟨Nat.le_refl 0, fun _ => rfl⟩
  | case2 b =>
    rw [negative]
    by_cases hm : b.toNat % 128 = 0
    · rw [hm, spell_zero]
      exact ⟨Nat.zero_le 1, nofun⟩
    · rw [spell_of_mod_ne_zero hm]
      exact ⟨Nat.le_refl 1, fun _ => rfl⟩
  | case3 b c rest ih =>
    rw [negative]
    by_cases hm : magnitude (c :: rest) = 0
    · obtain ⟨hle, hsame⟩ := length_spell_byte (negative (c :: rest)) b
      rw [hm, Nat.mul_zero, Nat.add_zero, List.length_cons, List.length_cons]
      refine ⟨by omega, fun h => ?_⟩
      obtain rfl : rest = [] := List.length_eq_zero_iff.1 (by omega)
      have hc : c.toNat % 128 = 0 := hm
      rw [hsame h, negative, List.cons.injEq, List.singleton_inj]
      refine ⟨rfl, UInt8.toNat_inj.1 ?_⟩
      have := c.toNat_lt
      simp only [decide_eq_true_eq, sign_le_iff]
      split
      · show c.toNat = 128
        omega
      · show c.toNat = 0
        omega
    · rw [spell_cons _ b hm, List.length_cons, List.length_cons]
      exact ⟨Nat.succ_le_succ ih.1, fun h => congrArg (b :: ·) (ih.2 (Nat.succ.inj h))⟩

/-- A number other than zero is negative exactly if its sign says so. -/
theorem signed_neg_iff {b : Bytes} (h : magnitude b ≠ 0) : signed b < 0 ↔ negative b = true := by
  rw [signed]
  cases negative b with
  | false =>
    rw [if_neg Bool.false_ne_true]
    exact iff_of_false (by omega) Bool.false_ne_true
  | true =>
    rw [if_pos rfl]
    exact iff_of_true (by omega) rfl

theorem encode_signed (b : Bytes) : encode (signed b) = spell (negative b) (magnitude b) := by
  show spell (signed b < 0 : Bool) (signed b).natAbs = _
  by_cases hm : magnitude b = 0
  · have hv : signed b = 0 := by simp [signed, hm]
    rw [hv, hm, Int.natAbs_zero, spell_zero, spell_zero]
  · have hn : (signed b < 0 : Bool) = negative b := by
      rw [Bool.eq_iff_iff, decide_eq_true_iff, signed_neg_iff hm]
    rw [hn, natAbs_signed]

theorem length_encode_le (b : Bytes) : (encode (signed b)).length ≤ b.length ∧
    ((encode (signed b)).length = b.length ↔ b = encode (signed b)) := by
  rw [encode_signed]
  obtain ⟨hle, hsame⟩ := length_spell_le b
  exact ⟨hle, hsame, fun he => congrArg List.length he.symm⟩

end Bitcoin.Script.Number

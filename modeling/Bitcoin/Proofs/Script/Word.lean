import Mathlib.Algebra.Group.Nat.Defs
import Bitcoin.Proofs.Script.Nesting
import Bitcoin.Proofs.Script.Number

/-!
# Numbers in words, and truth values

The number of up to eight bytes, computed in a signed word of 64 bits: the bytes
are shifted to their places and joined, the sign is masked out, and what is left
is negated. None of these steps overflows, and the word holds the number that
is decoded (`exists_decodeWord`). So does every word but the least when it is
encoded and decoded again (`decode_encode`), and a number of four bytes leaves
room to count on (`exists_decodeWord_succ`).

A byte string is false exactly if its number is zero, so if all its bits but the
sign are zero (`isTrue_eq_false_iff`, `signed_eq_zero_iff`): no matter how many
zero bytes there are, and with the sign or without. The truth value is found
without the number, from the first byte that is not zero (`scan_eq`).
-/

namespace Bitcoin.Script.Number

/-! ## Steps in a word -/

/-- A word shifted left, by less than its width. -/
def shiftLeft? (w : Int64) (n : Nat) : Option Int64 := if n < 64 then some (w <<< Int64.ofNat n) else none

/-- A word with the other sign; the least one has none. -/
def neg? (w : Int64) : Option Int64 := if w = .minValue then none else some (-w)

/-- Bytes shifted to their places, from some place on, and joined with a word. -/
def join? (place : Nat) (w : Int64) : Bytes → Option Int64
  | [] => some w
  | b :: rest => do
    let shifted ← shiftLeft? (Int64.ofNat b.toNat) (8 * place)
    join? (place + 1) (w ||| shifted) rest

/-- The number of a byte string, computed in a word, if no step overflows. -/
def decodeWord? (b : Bytes) : Option Int64 :=
  match b.getLast? with
  | none => some 0
  | some last => do
    let w ← join? 0 0 b
    if last &&& 0x80 ≠ 0 then
      let sign ← shiftLeft? 0x80 (8 * (b.length - 1))
      neg? (w &&& ~~~sign)
    else return w

/-! ## What the steps come to -/

theorem smod_place {place : Nat} (h : place < 8) :
    (Int64.ofNat (8 * place)).toBitVec.smod 64 = BitVec.ofNat 64 (8 * place) := by
  have : ∀ k < 8, (Int64.ofNat (8 * k)).toBitVec.smod 64 = BitVec.ofNat 64 (8 * k) := by decide
  exact this place h

theorem exists_shiftLeft (place x : Nat) (h : place < 8) (hx : x < 256) :
    ∃ w, shiftLeft? (Int64.ofNat x) (8 * place) = some w ∧ w.toBitVec.toNat = x * 2 ^ (8 * place) := by
  refine ⟨_, if_pos (by omega), ?_⟩
  have hp : x * 2 ^ (8 * place) < 2 ^ 64 := by
    have h1 : 2 ^ (8 * place) ≤ 2 ^ 56 := Nat.pow_le_pow_right (by decide) (by omega)
    have := Nat.mul_le_mul (Nat.le_of_lt_succ hx) h1
    omega
  rw [Int64.toBitVec_shiftLeft, smod_place h, BitVec.shiftLeft_eq', BitVec.toNat_ofNat, Nat.mod_eq_of_lt (by omega),
    BitVec.toNat_shiftLeft, Int64.toBitVec_ofNat', BitVec.toNat_ofNat, Nat.shiftLeft_eq,
    Nat.mod_eq_of_lt (show x < 2 ^ 64 by omega), Nat.mod_eq_of_lt hp]

theorem pow_256 (n : Nat) : Nat.pow 256 n = 2 ^ (8 * n) := by
  rw [Nat.pow_mul]
  rfl

theorem toNat_or_shifted {w v : Int64} {n x : Nat} (hw : w.toBitVec.toNat < 2 ^ n) (hv : v.toBitVec.toNat = x * 2 ^ n) :
    (w ||| v).toBitVec.toNat = w.toBitVec.toNat + x * 2 ^ n := by
  rw [Int64.toBitVec_or, BitVec.toNat_or, hv, Nat.or_comm, Nat.mul_comm, ← Nat.two_pow_add_eq_or_of_lt hw, Nat.add_comm]

/-- Joining adds the bytes in their places to a word that ends before them: by
induction on the bytes. -/
theorem exists_join (place : Nat) (w : Int64) (b : Bytes) (h : place + b.length ≤ 8)
    (hw : w.toBitVec.toNat < 2 ^ (8 * place)) :
    ∃ v, join? place w b = some v ∧ v.toBitVec.toNat = w.toBitVec.toNat + Bytes.ofLittleEndian b * 2 ^ (8 * place) := by
  induction b generalizing place w with
  | nil => exact ⟨w, rfl, by simp [Bytes.ofLittleEndian]⟩
  | cons x b ih =>
    rw [List.length_cons] at h
    obtain ⟨u, hs, hu⟩ := exists_shiftLeft place x.toNat (by omega) x.toNat_lt
    have ho := toNat_or_shifted hw hu
    have hx := x.toNat_lt
    have hp : 2 ^ (8 * (place + 1)) = 256 * 2 ^ (8 * place) := by
      rw [Nat.mul_add, Nat.pow_add, Nat.mul_comm]
    have hlt : (w ||| u).toBitVec.toNat < 2 ^ (8 * (place + 1)) := by
      have := Nat.mul_le_mul_right (2 ^ (8 * place)) (Nat.le_of_lt_succ (n := 255) hx)
      rw [ho, hp]
      omega
    obtain ⟨v, hj, hv⟩ := ih (place + 1) (w ||| u) (by omega) hlt
    refine ⟨v, by rw [join?, hs]; exact hj, ?_⟩
    rw [hv, ho, hp, Bytes.ofLittleEndian]
    grind

theorem and_sign (b : UInt8) : b &&& 0x80 ≠ 0 ↔ 0x80 ≤ b := by
  have h : ∀ i : Fin 256, UInt8.ofNat i.val &&& 0x80 ≠ 0 ↔ 0x80 ≤ UInt8.ofNat i.val := by decide +kernel
  have := h ⟨b.toNat, b.toNat_lt⟩
  rwa [UInt8.ofNat_toNat] at this

/-- Masking out the highest bit takes it away. -/
theorem toNat_and_not {w t : Int64} {k m : Nat} (hm : m < 2 ^ k) (hw : w.toBitVec.toNat = 2 ^ k + m)
    (ht : t.toBitVec.toNat = 2 ^ k) : (w &&& ~~~t).toBitVec.toNat = m := by
  have hor : w.toBitVec.toNat = 2 ^ k ||| m := by
    have := Nat.two_pow_add_eq_or_of_lt hm 1
    rw [Nat.mul_one] at this
    rw [hw, this]
  apply Nat.eq_of_testBit_eq
  intro i
  rw [Int64.toBitVec_and, Int64.toBitVec_not, BitVec.testBit_toNat, BitVec.getLsbD_and, BitVec.getLsbD_not,
    ← BitVec.testBit_toNat, ← BitVec.testBit_toNat, hor, ht, Nat.testBit_or, Nat.testBit_two_pow]
  by_cases hk : k = i
  · subst hk
    simp [Nat.testBit_lt_two_pow hm]
  · by_cases hi : i < 64
    · simp [hk, hi]
    · have hb : m < 2 ^ i :=
        Nat.lt_of_lt_of_le (by have := w.toBitVec.isLt; omega) (Nat.pow_le_pow_right (by decide) (Nat.not_lt.1 hi))
      simp [hi, Nat.testBit_lt_two_pow hb]

theorem toInt_of_lt {w : Int64} (h : w.toBitVec.toNat < 2 ^ 63) : w.toInt = w.toBitVec.toNat :=
  BitVec.toInt_eq_toNat_of_lt (by omega)

theorem exists_neg {w : Int64} (h : w.toBitVec.toNat < 2 ^ 63) : ∃ v, neg? w = some v ∧ v.toInt = -w.toInt := by
  have hw : w ≠ Int64.minValue := by
    rintro rfl
    exact absurd h (by decide)
  refine ⟨_, if_neg hw, ?_⟩
  have hv : (-w).toInt = -w.toInt := by
    show (-w).toBitVec.toInt = -w.toBitVec.toInt
    rw [Int64.toBitVec_neg, BitVec.toInt_neg_of_ne_intMin]
    exact fun hn => hw (Int64.toBitVec_inj.1 hn)
  exact hv

/-! ## The number in a word -/

section Last

variable (front : Bytes) (last : UInt8)

theorem magnitude_lt_two_pow : magnitude (front ++ [last]) < 2 ^ (8 * front.length + 7) := by
  have hm := magnitude_lt (b := front ++ [last]) (by simp)
  rw [List.length_append, List.length_singleton, Nat.add_sub_cancel, pow_256] at hm
  rw [Nat.pow_add]
  omega

/-- All bits of a number: the magnitude and, above it, the sign. -/
theorem ofLittleEndian_concat : Bytes.ofLittleEndian (front ++ [last]) =
    magnitude (front ++ [last]) + if 0x80 ≤ last then 2 ^ (8 * front.length + 7) else 0 := by
  have hp : 128 * 2 ^ (8 * front.length) = 2 ^ (8 * front.length + 7) := by rw [Nat.pow_add, Nat.mul_comm]
  rw [ofLittleEndian_eq, negative_eq, List.length_append, List.length_singleton, Nat.add_sub_cancel, pow_256, hp]
  simp only [decide_eq_true_eq]

/-- The bytes joined are that number. -/
theorem exists_joined (h : front.length < 8) : ∃ w, join? 0 0 (front ++ [last]) = some w ∧
    w.toBitVec.toNat = magnitude (front ++ [last]) + if 0x80 ≤ last then 2 ^ (8 * front.length + 7) else 0 := by
  obtain ⟨w, hj, hw⟩ := exists_join 0 0 (front ++ [last]) (by simp; omega) (by decide)
  refine ⟨w, hj, ?_⟩
  rw [hw, Nat.mul_zero, Nat.pow_zero, Nat.mul_one, ofLittleEndian_concat]
  exact Nat.zero_add _

end Last

/-- Up to eight bytes are decoded in a word, without an overflow. -/
theorem exists_decodeWord {b : Bytes} (h : b.length ≤ 8) : ∃ w, decodeWord? b = some w ∧ w.toInt = signed b := by
  rcases List.eq_nil_or_concat b with rfl | ⟨front, last, rfl⟩
  · exact ⟨0, rfl, rfl⟩
  rw [List.concat_eq_append] at h ⊢
  rw [List.length_append, List.length_singleton] at h
  have hm := magnitude_lt_two_pow front last
  have hk : 2 ^ (8 * front.length + 7) ≤ 2 ^ 63 := Nat.pow_le_pow_right (by decide) (by omega)
  obtain ⟨w, hj, hw⟩ := exists_joined front last (by omega)
  rw [decodeWord?, List.getLast?_concat]
  simp only [hj, Option.bind_eq_bind, Option.bind_some, and_sign]
  rw [List.length_append, List.length_singleton, Nat.add_sub_cancel]
  by_cases hs : 0x80 ≤ last
  · obtain ⟨sign, ht, htn⟩ := exists_shiftLeft front.length 128 (by omega) (by decide)
    have hr : (w &&& ~~~sign).toBitVec.toNat = magnitude (front ++ [last]) := by
      refine toNat_and_not hm ?_ ?_
      · rw [hw, if_pos hs, Nat.add_comm]
      · rw [htn, Nat.pow_add, Nat.mul_comm]
    obtain ⟨v, hn, hv⟩ := exists_neg (w := w &&& ~~~sign) (by omega)
    refine ⟨v, ?_, ?_⟩
    · rw [if_pos hs, show shiftLeft? 0x80 (8 * front.length) = some sign from ht, Option.bind_some, hn]
    · rw [hv, toInt_of_lt (by omega), hr, signed, negative_eq, decide_eq_true hs, if_pos rfl]
  · rw [if_neg hs, Nat.add_zero] at hw
    refine ⟨w, if_neg hs, ?_⟩
    rw [toInt_of_lt (by omega), hw, signed, negative_eq, decide_eq_false hs, if_neg Bool.false_ne_true]

/-! ## Reading, writing and counting on -/

theorem decode_encode {w : Int64} (h : w ≠ .minValue) : decode 8 (encode w.toInt) = .ok w.toInt := by
  refine decode_eq_ok_iff.2 ⟨length_spell_le_of_lt _ (k := 7) ?_, (signed_encode _).symm⟩
  have hl := w.minValue_le_toInt
  have hu := w.toInt_le
  have hn : w.toInt ≠ Int64.minValue.toInt := fun he => h (Int64.toInt_inj.1 he)
  have hp : 128 * Nat.pow 256 7 = 2 ^ 63 := by decide
  rw [show Int64.minValue.toInt = -2 ^ 63 by decide] at hl hn
  rw [show Int64.maxValue.toInt = 2 ^ 63 - 1 by decide] at hu
  rw [hp]
  omega

/-- Four bytes are far from the bounds of a word, so one may be added. -/
theorem exists_decodeWord_succ {b : Bytes} (h : b.length ≤ 4) :
    ∃ w, decodeWord? b = some w ∧ w.toInt = signed b ∧ (w + 1).toInt = signed b + 1 := by
  obtain ⟨w, hd, hw⟩ := exists_decodeWord (b := b) (by omega)
  refine ⟨w, hd, hw, ?_⟩
  have hb : (signed b).natAbs < 2 ^ 31 := natAbs_signed_lt (n := 3) h
  rw [Int64.toInt_add, hw, show (1 : Int64).toInt = 1 by decide]
  exact Int.bmod_eq_of_le (by omega) (by omega)

theorem runOpcode_addOne (context : Option Context) (script : Bytes) {item : Bytes} {n : Int}
    (h : decode 4 item = .ok n) (stack : List Bytes) (flags : List Bool) (calls : List Call) :
    runOpcode context script .addOne ⟨item :: stack, flags, calls⟩ = .ok () ⟨encode (n + 1) :: stack, flags, calls⟩ := by
  have hp : Run.pop Opcode.addOne.label ⟨item :: stack, flags, calls⟩ = .ok item ⟨stack, flags, calls⟩ := rfl
  rw [runOpcode, bind_of_ok hp, h]
  rfl

/-- Decoding gives the number with the sign and the magnitude of a byte string
that is short enough, and a signed word of 64 bits is enough for it. What is
encoded is decoded again, and there is no shorter byte string of a number than
the encoded one, nor another as short. Numbers of four bytes can be counted on. -/
theorem decode_exact_encode_shortest (b : Bytes) (limit : Nat) (v : Int) :
    (decode limit b = .ok v ↔ b.length ≤ limit ∧ v = signed b) ∧
    (b.length ≤ 8 → ∃ w, decodeWord? b = some w ∧ w.toInt = signed b) ∧
    (∀ w : Int64, w ≠ .minValue → decode 8 (encode w.toInt) = .ok w.toInt) ∧
    (decode limit b = .ok v →
      (encode v).length ≤ b.length ∧ ((encode v).length = b.length ↔ b = encode v)) ∧
    (decode 4 b = .ok v →
      (∃ w, decodeWord? b = some w ∧ w.toInt = v ∧ (w + 1).toInt = v + 1) ∧
      ∀ context script stack flags calls, runOpcode context script .addOne ⟨b :: stack, flags, calls⟩ =
        .ok () ⟨encode (v + 1) :: stack, flags, calls⟩) := by
  refine ⟨decode_eq_ok_iff, exists_decodeWord, fun w => decode_encode, fun h => ?_, fun h => ⟨?_, ?_⟩⟩
  · obtain ⟨-, rfl⟩ := decode_eq_ok_iff.1 h
    exact length_encode_le b
  · obtain ⟨hl, rfl⟩ := decode_eq_ok_iff.1 h
    exact exists_decodeWord_succ hl
  · exact fun context script => runOpcode_addOne context script h

/-- A negative number with a zero byte too many. -/
theorem decode_exact_encode_shortest_padded :
    decode 4 [0xff, 0x00, 0x80] = .ok (-255) ∧ signed [0xff, 0x00, 0x80] = -255 ∧
    (∃ w, decodeWord? [0xff, 0x00, 0x80] = some w ∧ w.toInt = -255 ∧ (w + 1).toInt = -254) ∧
    decode 8 (encode Int64.maxValue.toInt) = .ok Int64.maxValue.toInt ∧
    (encode (-255)).length < 3 ∧
    runOpcode none [0x8b] .addOne ⟨[[0xff, 0x00, 0x80]], [], []⟩ = .ok () ⟨[encode (-254)], [], []⟩ := by
  have hd : decode 4 [0xff, 0x00, 0x80] = .ok (-255) := rfl
  obtain ⟨hi, -, hr, hs, hn⟩ := decode_exact_encode_shortest [0xff, 0x00, 0x80] 4 (-255)
  obtain ⟨hle, hsame⟩ := hs hd
  obtain ⟨hw, ho⟩ := hn hd
  refine ⟨hd, (hi.1 hd).2.symm, hw, hr _ (by decide), ?_, ho none [0x8b] [] [] []⟩
  exact Nat.lt_of_le_of_ne hle (mt hsame.1 (by decide +kernel))

end Bitcoin.Script.Number

namespace Bitcoin.Script

open Number

/-! ## The first byte that is not zero -/

/-- The truth value of a byte string of some length by a scan from an index on:
the first byte that is not zero decides, and it makes the string false only as a
lone sign at the last index. -/
def scan (length index : Nat) : Bytes → Bool
  | [] => false
  | b :: rest => if b ≠ 0 then !(index == length - 1 && b == 0x80) else scan length (index + 1) rest

theorem scan_eq (index : Nat) (b : Bytes) : scan (index + b.length) index b = isTrue b := by
  fun_induction isTrue b generalizing index with
  | case1 => rfl
  | case2 b =>
    rw [scan, List.length_singleton, Nat.add_sub_cancel, BEq.rfl, Bool.true_and]
    by_cases hb : b = 0
    · rw [if_neg (Decidable.not_not.2 hb), hb]
      rfl
    · rw [if_pos hb, bne_iff_ne.2 hb, Bool.true_and]
      rfl
  | case3 b c rest ih =>
    rw [scan]
    by_cases hb : b = 0
    · have hl : index + (b :: c :: rest).length = index + 1 + (c :: rest).length := by
        rw [List.length_cons]
        omega
      rw [if_neg (Decidable.not_not.2 hb), hl, ih, hb]
      rfl
    · have hi : (index == index + (b :: c :: rest).length - 1) = false := by
        rw [beq_eq_false_iff_ne, List.length_cons, List.length_cons]
        omega
      rw [if_pos hb, hi, bne_iff_ne.2 hb]
      rfl

/-! ## Zero -/

theorem isTrue_eq_false_iff_magnitude (b : Bytes) : isTrue b = false ↔ magnitude b = 0 := by
  fun_induction isTrue b with
  | case1 => exact ⟨fun _ => rfl, fun _ => rfl⟩
  | case2 b =>
    -- the sign is the one bit that is not looked at
    have h : (b != 0 && b != 0x80) = false ↔ b.toNat = 0 ∨ b.toNat = 128 := by
      rw [Bool.and_eq_false_iff, bne_eq_false_iff_eq, bne_eq_false_iff_eq, ← UInt8.toNat_inj, ← UInt8.toNat_inj]
      rfl
    have hlt := b.toNat_lt
    rw [h, magnitude]
    omega
  | case3 b c rest ih =>
    rw [Bool.or_eq_false_iff, bne_eq_false_iff_eq, ih, magnitude, ← UInt8.toNat_inj]
    show b.toNat = 0 ∧ _ ↔ _
    omega

theorem signed_eq_zero_iff_magnitude (b : Bytes) : signed b = 0 ↔ magnitude b = 0 := by
  rw [← Int.natAbs_eq_zero, natAbs_signed]

theorem isTrue_eq_false_iff (b : Bytes) : isTrue b = false ↔ signed b = 0 := by
  rw [isTrue_eq_false_iff_magnitude, signed_eq_zero_iff_magnitude]

/-- The magnitude is what the bits below the sign write. -/
theorem magnitude_eq_mod (front : Bytes) (last : UInt8) :
    magnitude (front ++ [last]) = Bytes.ofLittleEndian (front ++ [last]) % 2 ^ (8 * front.length + 7) := by
  have hm := magnitude_lt_two_pow front last
  rw [ofLittleEndian_concat]
  split
  · rw [Nat.add_mod_right, Nat.mod_eq_of_lt hm]
  · exact (Nat.mod_eq_of_lt hm).symm

theorem mod_two_pow_eq_zero_iff (n k : Nat) : n % 2 ^ k = 0 ↔ ∀ i < k, n.testBit i = false := by
  refine ⟨fun h i hi => ?_, fun h => Nat.eq_of_testBit_eq fun i => ?_⟩
  · have ht := Nat.testBit_mod_two_pow n k i
    rw [h, Nat.zero_testBit, decide_eq_true hi, Bool.true_and] at ht
    exact ht.symm
  · rw [Nat.testBit_mod_two_pow, Nat.zero_testBit]
    by_cases hi : i < k
    · rw [h i hi, Bool.and_false]
    · rw [decide_eq_false hi, Bool.false_and]

/-- A number is zero exactly if all bits but the last one are. -/
theorem signed_eq_zero_iff (b : Bytes) :
    signed b = 0 ↔ ∀ i, i + 1 < 8 * b.length → (Bytes.ofLittleEndian b).testBit i = false := by
  rw [signed_eq_zero_iff_magnitude]
  rcases List.eq_nil_or_concat b with rfl | ⟨front, last, rfl⟩
  · exact ⟨fun _ i _ => Nat.zero_testBit i, fun _ => rfl⟩
  · rw [List.concat_eq_append, magnitude_eq_mod, mod_two_pow_eq_zero_iff, List.length_append, List.length_singleton]
    exact forall_congr' fun i => imp_congr_left (by omega)

/-! ## Truth values -/

theorem isTrue_iff (b : Bytes) : isTrue b = true ↔ signed b ≠ 0 := by
  rw [← Bool.not_eq_false, Ne, isTrue_eq_false_iff]

/-- A byte string that can be decoded is true exactly if its number is not zero. -/
theorem isTrue_iff_decode {limit : Nat} {b : Bytes} (h : b.length ≤ limit) :
    isTrue b = true ↔ ∃ v, Number.decode limit b = .ok v ∧ v ≠ 0 := by
  rw [isTrue_iff]
  refine ⟨fun hn => ⟨signed b, decode_eq_ok_iff.2 ⟨h, rfl⟩, hn⟩, fun ⟨v, hv, hn⟩ => ?_⟩
  rwa [← (decode_eq_ok_iff.1 hv).2]

theorem isTrue_iff_decodeWord {b : Bytes} (h : b.length ≤ 8) :
    isTrue b = true ↔ ∃ w, decodeWord? b = some w ∧ w ≠ 0 := by
  obtain ⟨w, hd, hw⟩ := exists_decodeWord h
  have hz : w = 0 ↔ signed b = 0 := by
    rw [← hw, ← Int64.toInt_inj]
    rfl
  rw [isTrue_iff, ne_eq, ← hz, hd]
  refine ⟨fun hn => ⟨w, rfl, hn⟩, fun ⟨v, hv, hn⟩ => ?_⟩
  rwa [Option.some.inj hv]

/-- What the first byte that is not zero decides is whether the number is zero,
for byte strings of any length: whether all bits but the sign are. Up to eight
bytes are true exactly if they are decoded as a number other than zero, which a
signed word of 64 bits holds. -/
theorem isTrue_iff_number_ne_zero (b : Bytes) :
    isTrue b = scan b.length 0 b ∧
    (isTrue b = false ↔ signed b = 0) ∧
    (isTrue b = false ↔ ∀ i, i + 1 < 8 * b.length → (Bytes.ofLittleEndian b).testBit i = false) ∧
    (b.length ≤ 8 → (isTrue b = true ↔ ∃ v, Number.decode 8 b = .ok v ∧ v ≠ 0) ∧
      (isTrue b = true ↔ ∃ w, decodeWord? b = some w ∧ w ≠ 0)) := by
  have hs := scan_eq 0 b
  rw [Nat.zero_add] at hs
  refine ⟨hs.symm, isTrue_eq_false_iff b, ?_, fun h => ⟨isTrue_iff_decode h, isTrue_iff_decodeWord h⟩⟩
  rw [isTrue_eq_false_iff, signed_eq_zero_iff]

/-- The sign alone behind seven zero bytes, and in front of one. -/
theorem isTrue_iff_number_ne_zero_signs :
    isTrue [0, 0, 0, 0, 0, 0, 0, 0x80] = false ∧
    (¬∃ v, Number.decode 8 [0, 0, 0, 0, 0, 0, 0, 0x80] = .ok v ∧ v ≠ 0) ∧
    isTrue [0x80, 0] = true ∧ ∃ w, decodeWord? [0x80, 0] = some w ∧ w ≠ 0 := by
  have hf : isTrue [0, 0, 0, 0, 0, 0, 0, 0x80] = false := rfl
  have ht : isTrue [0x80, 0] = true := rfl
  obtain ⟨-, -, -, hn⟩ := isTrue_iff_number_ne_zero [0, 0, 0, 0, 0, 0, 0, 0x80]
  obtain ⟨-, -, -, hp⟩ := isTrue_iff_number_ne_zero [0x80, 0]
  refine ⟨hf, mt (hn (by decide)).1.2 ?_, ht, (hp (by decide)).2.1 ht⟩
  rw [hf]
  exact Bool.false_ne_true

end Bitcoin.Script

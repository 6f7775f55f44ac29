import Mathlib.Algebra.Group.Nat.Defs
import Bitcoin.Proofs.Bytes
import Bitcoin.Proofs.Outcome

/-!
# Hexadecimal and Base58, read back

Text is read byte by byte, and in ASCII the bytes are the codes of the
characters (`utf8_ofList`). What is written in hexadecimal is read back
(`Hex.decode_encode`), so no two byte strings have the same text.

What is written in Base58 is read back, leading zero bytes included
(`Base58.decode_encode`), and so is what is written behind a checksum
(`decodeCheck_encodeCheck`). The first character tells in which range the number
is (`head?_reverse_digits`), so that texts of 25 bytes begin with `1` or `3`
under the version bytes 0 and 5.
-/

/-! ## Text in ASCII -/

namespace Bitcoin.Text

/-- The bytes of characters by their codes. -/
def codes (cs : List Char) : Bytes := cs.map fun c => UInt8.ofNat c.toNat

@[simp] theorem length_codes (cs : List Char) : (codes cs).length = cs.length := List.length_map _

theorem codes_cons (c : Char) (cs : List Char) : codes (c :: cs) = UInt8.ofNat c.toNat :: codes cs := rfl

theorem codes_append (cs ds : List Char) : codes (cs ++ ds) = codes cs ++ codes ds := List.map_append

theorem utf8EncodeChar_eq {c : Char} (h : c.toNat < 128) : String.utf8EncodeChar c = codes [c] := by
  have hs : c.utf8Size = 1 := by
    rw [Char.utf8Size_eq_one_iff, UInt32.le_iff_toNat_le]
    exact Nat.le_of_lt_succ h
  rw [String.utf8EncodeChar_eq_singleton hs]
  rfl

theorem flatMap_utf8EncodeChar {cs : List Char} (h : ∀ c ∈ cs, c.toNat < 128) :
    cs.flatMap String.utf8EncodeChar = codes cs := by
  induction cs with
  | nil => rfl
  | cons c cs ih =>
    obtain ⟨hc, hcs⟩ := List.forall_mem_cons.1 h
    rw [List.flatMap_cons, utf8EncodeChar_eq hc, ih hcs, ← codes_append]
    rfl

/-- The bytes of a text in ASCII. -/
theorem utf8_ofList {cs : List Char} (h : ∀ c ∈ cs, c.toNat < 128) :
    (String.ofList cs).toUTF8.data.toList = codes cs := by
  rw [String.toUTF8_eq_toByteArray, String.toByteArray_ofList, List.utf8Encode, flatMap_utf8EncodeChar h,
    List.data_toByteArray]

end Bitcoin.Text

/-! ## Hexadecimal -/

namespace Bitcoin.Hex

open Text (codes)

theorem digits_read (x : UInt8) (index : Nat) :
    ∃ high low, codes (digits x) = [high, low] ∧ valueAt index high = .ok (x >>> 4) ∧
      valueAt (index + 1) low = .ok (x &&& 0x0f) ∧ x >>> 4 <<< 4 ||| x &&& 0x0f = x := by
  have h : ∀ i : Fin 256, let x := UInt8.ofNat i.val
      value? (UInt8.ofNat (digit (x >>> 4)).toNat) = some (x >>> 4) ∧
      value? (UInt8.ofNat (digit (x &&& 0x0f)).toNat) = some (x &&& 0x0f) ∧
      x >>> 4 <<< 4 ||| x &&& 0x0f = x := by decide +kernel
  obtain ⟨hh, hl, hx⟩ := h ⟨x.toNat, x.toNat_lt⟩
  rw [UInt8.ofNat_toNat] at hh hl hx
  exact ⟨_, _, rfl, by rw [valueAt, hh], by rw [valueAt, hl], hx⟩

theorem isAlphanum_digits (x : UInt8) : ∀ c ∈ digits x, c.toNat < 128 ∧ c.isAlphanum := by
  have h : ∀ i : Fin 256, (digits (UInt8.ofNat i.val)).all (fun c => c.toNat < 128 && c.isAlphanum) = true := by
    decide +kernel
  have hx := h ⟨x.toNat, x.toNat_lt⟩
  rw [UInt8.ofNat_toNat, List.all_eq_true] at hx
  intro c hc
  simpa using hx c hc

theorem isAlphanum_flatMap_digits (b : Bytes) : ∀ c ∈ b.flatMap digits, c.toNat < 128 ∧ c.isAlphanum := by
  intro c hc
  obtain ⟨x, -, hx⟩ := List.mem_flatMap.1 hc
  exact isAlphanum_digits x c hx

/-- The digits of some bytes are read back, by induction on the bytes. -/
theorem decodePairs_digits (b : Bytes) (index : Nat) (read : Bytes) :
    decodePairs index read (codes (b.flatMap digits)) = .ok (read.reverse ++ b) := by
  induction b generalizing index read with
  | nil =>
    rw [List.append_nil]
    rfl
  | cons x b ih =>
    obtain ⟨high, low, hd, hh, hl, hx⟩ := digits_read x index
    rw [List.flatMap_cons, Text.codes_append, hd, List.cons_append, List.cons_append, List.nil_append, decodePairs,
      hh, ok_bind, hl, ok_bind, hx, ih, List.reverse_cons, List.append_assoc]
    rfl

theorem length_flatMap_digits (b : Bytes) : (b.flatMap digits).length = 2 * b.length := by
  induction b with
  | nil => rfl
  | cons x b ih =>
    rw [List.flatMap_cons, List.length_append, ih, List.length_cons, Nat.mul_succ, Nat.add_comm]
    rfl

theorem decode_encode (b : Bytes) : decode (encode b) = .ok b := by
  have hu := Text.utf8_ofList fun c hc => (isAlphanum_flatMap_digits b c hc).1
  have hl : (codes (b.flatMap digits)).length % 2 = 0 := by
    rw [Text.length_codes, length_flatMap_digits]
    omega
  rw [decode, encode, hu, if_neg (by omega), decodePairs_digits]
  rfl

theorem encode_inj {a b : Bytes} (h : encode a = encode b) : a = b :=
  Except.ok.inj ((decode_encode a).symm.trans ((congrArg decode h).trans (decode_encode b)))

end Bitcoin.Hex

namespace Bitcoin.Base58

open Text (codes)

variable {α : Type} [BEq α] [LawfulBEq α]

/-! ## Leading elements -/

theorem leading_of_head?_ne {x : α} {xs : List α} (h : xs.head? ≠ some x) : leading x xs = 0 := by
  cases xs with
  | nil => rfl
  | cons y ys =>
    have hy : (y == x) = false := beq_eq_false_iff_ne.2 fun hy => h (congrArg some hy)
    rw [leading, List.takeWhile_cons, hy]
    rfl

theorem leading_replicate_append (k : Nat) {x : α} {xs : List α} (h : xs.head? ≠ some x) :
    leading x (List.replicate k x ++ xs) = k := by
  induction k with
  | zero => exact leading_of_head?_ne h
  | succ k ih =>
    rw [leading] at ih ⊢
    rw [List.replicate_succ, List.cons_append, List.takeWhile_cons, beq_self_eq_true, if_pos rfl, List.length_cons, ih]

/-- Bytes are leading zeros and bytes that begin with another one. -/
theorem exists_eq_replicate_append (b : Bytes) :
    ∃ rest, b = List.replicate (leading 0 b) 0 ++ rest ∧ rest.head? ≠ some 0 := by
  induction b with
  | nil => exact ⟨[], rfl, nofun⟩
  | cons x b ih =>
    by_cases hx : x = 0
    · obtain ⟨rest, hb, hr⟩ := ih
      refine ⟨rest, ?_, hr⟩
      have hl : leading 0 (x :: b) = leading 0 b + 1 := by
        rw [leading, List.takeWhile_cons, hx]
        rfl
      rw [hl, List.replicate_succ, List.cons_append, ← hb, hx]
    · have hh : (x :: b).head? ≠ some 0 := fun h => hx (Option.some.inj h)
      exact ⟨x :: b, by rw [leading_of_head?_ne hh]; rfl, hh⟩

/-! ## Digits of a number -/

theorem digits_zero : digits 0 = [] := by
  rw [digits, dif_pos rfl]

theorem digits_of_ne_zero {n : Nat} (h : n ≠ 0) : digits n = n % 58 :: digits (n / 58) := by
  rw [digits, dif_neg h]

theorem lt_of_mem_digits {n d : Nat} (h : d ∈ digits n) : d < 58 := by
  fun_induction digits n with
  | case1 => cases h
  | case2 n hn ih =>
    obtain rfl | h := List.mem_cons.1 h
    · exact Nat.mod_lt n (by decide)
    · exact ih h

theorem foldl_reverse_digits (n : Nat) : (digits n).reverse.foldl (fun n d => 58 * n + d) 0 = n := by
  rw [List.foldl_reverse]
  fun_induction digits n with
  | case1 => rfl
  | case2 n hn ih =>
    rw [List.foldr_cons, ih]
    exact Nat.div_add_mod n 58

/-- The first digit is the number of times that the power of its place fits. -/
theorem head?_reverse_digits {n k : Nat} (hl : 58 ^ k ≤ n) (hu : n < 58 ^ (k + 1)) :
    (digits n).reverse.head? = some (n / 58 ^ k) := by
  rw [List.head?_reverse]
  induction k generalizing n with
  | zero =>
    have h0 : n ≠ 0 := Nat.ne_of_gt hl
    have hd : n / 58 = 0 := Nat.div_eq_of_lt hu
    rw [digits_of_ne_zero h0, hd, digits_zero, Nat.mod_eq_of_lt (show n < 58 from hu), Nat.pow_zero, Nat.div_one]
    rfl
  | succ k ih =>
    have hq : 58 ^ k ≤ n / 58 := by
      rw [Nat.le_div_iff_mul_le (by decide)]
      exact hl
    have hr := ih hq (by rw [Nat.div_lt_iff_lt_mul (by decide)]; exact hu)
    have h0 : n ≠ 0 := by
      have := Nat.pow_pos (n := k) (show 0 < 58 by decide)
      omega
    rw [digits_of_ne_zero h0, List.getLast?_cons, hr, Nat.pow_succ, Nat.mul_comm, Nat.div_div_eq_div_mul]
    rfl

theorem head?_reverse_digits_ne_zero (n : Nat) : (digits n).reverse.head? ≠ some 0 := by
  rw [List.head?_reverse]
  fun_induction digits n with
  | case1 => exact nofun
  | case2 n hn ih =>
    rw [List.getLast?_cons]
    cases hq : (digits (n / 58)).getLast? with
    | none =>
      rw [List.getLast?_eq_none_iff] at hq
      have h0 : n / 58 = 0 := by
        false_or_by_contra
        rw [digits_of_ne_zero ‹_›] at hq
        cases hq
      show some (n % 58) ≠ some 0
      rw [ne_eq, Option.some.injEq]
      omega
    | some d =>
      rw [hq] at ih
      exact ih

/-! ## Digits as characters -/

/-- The character of a digit. -/
def char (d : Nat) : Char := alphabet.getD d '1'

theorem char_read {d : Nat} (h : d < 58) (index : Nat) :
    (char d).toNat < 128 ∧ valueAt index (UInt8.ofNat (char d).toNat) = .ok d := by
  have hd : ∀ i : Fin 58, (char i.val).toNat < 128 ∧ ¬ 127 < UInt8.ofNat (char i.val).toNat ∧
      alphabet.idxOf? (Char.ofNat (UInt8.ofNat (char i.val).toNat).toNat) = some i.val := by decide +kernel
  obtain ⟨ha, hb, hi⟩ := hd ⟨d, h⟩
  refine ⟨ha, ?_⟩
  rw [valueAt, if_neg hb]
  dsimp only
  rw [hi]

/-- Digits are read back from their characters, by induction on them. -/
theorem values_codes {ds : List Nat} (h : ∀ d ∈ ds, d < 58) (index : Nat) (read : List Nat) :
    values index read (codes (ds.map char)) = .ok (read.reverse ++ ds) := by
  induction ds generalizing index read with
  | nil =>
    rw [List.append_nil]
    rfl
  | cons d ds ih =>
    obtain ⟨hd, hds⟩ := List.forall_mem_cons.1 h
    rw [List.map_cons, Text.codes_cons, values, (char_read hd index).2, ok_bind, ih hds, List.reverse_cons,
      List.append_assoc]
    rfl

/-- The digits of a byte string: a zero for each leading zero byte, and those of
the number. -/
def allDigits (b : Bytes) : List Nat := List.replicate (leading 0 b) 0 ++ (digits (Bytes.ofBigEndian b)).reverse

theorem encode_eq (b : Bytes) : encode b = String.ofList ((allDigits b).map char) := by
  rw [encode, allDigits, List.map_append, List.map_replicate]
  rfl

theorem lt_of_mem_allDigits {b : Bytes} : ∀ d ∈ allDigits b, d < 58 := by
  intro d hd
  obtain hd | hd := List.mem_append.1 hd
  · rw [List.eq_of_mem_replicate hd]
    decide
  · exact lt_of_mem_digits (List.mem_reverse.1 hd)

theorem foldl_allDigits (b : Bytes) : (allDigits b).foldl (fun n d => 58 * n + d) 0 = Bytes.ofBigEndian b := by
  have hz (k : Nat) : (List.replicate k 0).foldl (fun n d => 58 * n + d) 0 = 0 := by
    induction k with
    | zero => rfl
    | succ k ih => exact ih
  rw [allDigits, List.foldl_append, hz, foldl_reverse_digits]

theorem leading_allDigits (b : Bytes) : leading 0 (allDigits b) = leading 0 b :=
  leading_replicate_append _ (head?_reverse_digits_ne_zero _)

/-! ## Reading a text back -/

/-- The zeros in front and the bytes of the number are the byte string. -/
theorem replicate_append_minimal (b : Bytes) :
    List.replicate (leading 0 b) 0 ++ (Bytes.minimal (Bytes.ofBigEndian b)).reverse = b := by
  obtain ⟨rest, hb, hr⟩ := exists_eq_replicate_append b
  have hn : Bytes.ofBigEndian b = Bytes.ofLittleEndian rest.reverse := by
    rw [← Bytes.ofBigEndian_reverse, List.reverse_reverse]
    exact (congrArg Bytes.ofBigEndian hb).trans (Bytes.ofBigEndian_replicate_append _ _)
  rw [hn, Bytes.minimal_ofLittleEndian (by rwa [List.getLast?_reverse]), List.reverse_reverse, ← hb]

theorem decode_encode (b : Bytes) : decode (encode b) = .ok b := by
  have hu : (encode b).toUTF8.data.toList = codes ((allDigits b).map char) := by
    rw [encode_eq]
    refine Text.utf8_ofList fun c hc => ?_
    obtain ⟨d, hd, rfl⟩ := List.mem_map.1 hc
    exact (char_read (lt_of_mem_allDigits d hd) 0).1
  rw [decode, hu, values_codes lt_of_mem_allDigits, List.reverse_nil, List.nil_append, ok_bind]
  show Except.ok (List.replicate (leading 0 (allDigits b)) 0 ++ (Bytes.minimal ((allDigits b).foldl _ 0)).reverse) = _
  rw [leading_allDigits, foldl_allDigits, replicate_append_minimal]

theorem length_checksum (b : Bytes) : (checksum b).length = 4 := by
  rw [checksum, List.length_take, (doubleSha256 b).property]
  rfl

/-- What is written behind a checksum is read back. -/
theorem decodeCheck_encodeCheck (b : Bytes) : decodeCheck (encodeCheck b) = .ok b := by
  have hl : (b ++ checksum b).length - 4 = b.length := by
    rw [List.length_append, length_checksum, Nat.add_sub_cancel]
  have ht : ¬ (b ++ checksum b).length < 4 := by
    rw [List.length_append, length_checksum]
    omega
  rw [decodeCheck, encodeCheck, decode_encode, ok_bind, if_neg ht, hl, List.take_left, List.drop_left, if_pos rfl]
  rfl

/-! ## The first character -/

theorem head?_encode (b : Bytes) : (encode b).toList.head? = (allDigits b).head?.map char := by
  rw [encode_eq, String.toList_ofList, List.head?_map]

theorem head?_encode_zero_cons (b : Bytes) : (encode (0 :: b)).toList.head? = some '1' := by
  have hl : leading 0 ((0 : UInt8) :: b) = leading 0 b + 1 := rfl
  rw [head?_encode, allDigits, hl]
  rfl

/-- 25 bytes that begin with a 5 are written with a 3 in front. -/
theorem head?_encode_five_cons {b : Bytes} (h : b.length = 24) : (encode (5 :: b)).toList.head? = some '3' := by
  have hb : Bytes.ofBigEndian b < 256 ^ 24 := h ▸ Bytes.ofBigEndian_lt b
  have hn : Bytes.ofBigEndian (5 :: b) = 5 * 256 ^ 24 + Bytes.ofBigEndian b := by
    rw [Bytes.ofBigEndian_cons, h]
    rfl
  -- 5 * 256 ^ 24 and 6 * 256 ^ 24 are between 2 * 58 ^ 33 and 3 * 58 ^ 33
  have hd := head?_reverse_digits (n := Bytes.ofBigEndian (5 :: b)) (k := 33) (by omega) (by omega)
  have hq : Bytes.ofBigEndian (5 :: b) / 58 ^ 33 = 2 := by omega
  rw [hq] at hd
  rw [head?_encode, allDigits, leading_of_head?_ne (by simp), List.replicate_zero, List.nil_append, hd]
  rfl

end Bitcoin.Base58

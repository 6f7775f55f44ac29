import Bitcoin.Bytes

/-!
# Numbers as bytes

The bytes of a number without needless zeros (`minimal`) write it again and are
as few as possible (`ofLittleEndian_minimal`, `length_minimal_le`); bytes that
end in no zero are those of their number (`minimal_ofLittleEndian`). The two byte
orders are each other reversed (`ofBigEndian_reverse`), so big-endian bytes can
be read back too, and zeros in front of them change nothing
(`bigEndian_ofBigEndian`, `bigEndian_of_le`). A byte string is one of a fixed
length exactly if that is its length (`FixedBytes.ofBytes?_eq_some`).
-/

namespace Bitcoin.Bytes

theorem minimal_zero : minimal 0 = [] := by
  rw [minimal, dif_pos rfl]

theorem minimal_of_ne_zero {n : Nat} (h : n ≠ 0) : minimal n = UInt8.ofNat n :: minimal (n / 256) := by
  rw [minimal, dif_neg h]

theorem minimal_cons (x : UInt8) {n : Nat} (h : x.toNat + 256 * n ≠ 0) :
    minimal (x.toNat + 256 * n) = x :: minimal n := by
  have hx := x.toNat_lt
  have hd : (x.toNat + 256 * n) / 256 = n := by omega
  have hm : UInt8.ofNat (x.toNat + 256 * n) = x := by
    apply UInt8.toNat_inj.1
    rw [UInt8.toNat_ofNat']
    omega
  rw [minimal_of_ne_zero h, hd, hm]

/-- Bytes that do not end in a zero are the bytes of the number they write. -/
theorem minimal_ofLittleEndian {b : Bytes} (h : b.getLast? ≠ some 0) : minimal (ofLittleEndian b) = b := by
  induction b with
  | nil => exact minimal_zero
  | cons x b ih =>
    cases b with
    | nil =>
      have hx : x.toNat ≠ 0 := fun hx => h (congrArg some (UInt8.toNat_inj.1 hx))
      exact minimal_cons x (n := 0) (by omega) |>.trans (congrArg _ minimal_zero)
    | cons y b =>
      have hm := ih (by rwa [List.getLast?_cons_cons] at h)
      have hn : ofLittleEndian (y :: b) ≠ 0 := by
        intro hz
        rw [hz, minimal_zero] at hm
        cases hm
      rw [ofLittleEndian, minimal_cons x (by omega), hm]

theorem ofLittleEndian_minimal (n : Nat) : ofLittleEndian (minimal n) = n := by
  fun_induction minimal n with
  | case1 => rfl
  | case2 n h ih =>
    rw [ofLittleEndian, ih, UInt8.toNat_ofNat']
    omega

theorem length_minimal_le {n k : Nat} (h : n < Nat.pow 256 k) : (minimal n).length ≤ k := by
  induction k generalizing n with
  | zero =>
    have hn : n < 1 := h
    rw [show n = 0 by omega, minimal_zero]
    exact Nat.le_refl 0
  | succ k ih =>
    have hk : n < Nat.pow 256 k * 256 := h
    by_cases h0 : n = 0
    · rw [h0, minimal_zero]
      exact Nat.zero_le _
    · rw [minimal_of_ne_zero h0, List.length_cons]
      exact Nat.succ_le_succ (ih (by omega))

theorem ofBigEndian_reverse (b : Bytes) : ofBigEndian b.reverse = ofLittleEndian b := by
  induction b with
  | nil => rfl
  | cons x b ih =>
    rw [ofBigEndian] at ih
    rw [ofBigEndian, List.reverse_cons, List.foldl_append, ih, ofLittleEndian]
    exact Nat.add_comm _ _

theorem ofBigEndian_reverse_minimal (n : Nat) : ofBigEndian (minimal n).reverse = n := by
  rw [ofBigEndian_reverse, ofLittleEndian_minimal]

theorem bigEndian_ofBigEndian (b : Bytes) : bigEndian b.length (ofBigEndian b) = b := by
  have h := ofBigEndian_reverse b.reverse
  rw [List.reverse_reverse] at h
  rw [bigEndian, h, ← List.length_reverse, littleEndian_ofLittleEndian, List.reverse_reverse]

theorem ofBigEndian_bigEndian (w n : Nat) : ofBigEndian (bigEndian w n) = n % Nat.pow 256 w := by
  rw [bigEndian, ofBigEndian_reverse, ofLittleEndian_littleEndian]

theorem ofBigEndian_zero_cons (b : Bytes) : ofBigEndian (0 :: b) = ofBigEndian b := by
  rw [ofBigEndian_cons]
  exact (congrArg (· + _) (Nat.zero_mul _)).trans (Nat.zero_add _)

theorem ofBigEndian_replicate_append (k : Nat) (b : Bytes) :
    ofBigEndian (List.replicate k 0 ++ b) = ofBigEndian b := by
  induction k with
  | zero => rfl
  | succ k ih => rw [List.replicate_succ, List.cons_append, ofBigEndian_zero_cons, ih]

/-- In more bytes than needed, a number has zeros in front. -/
theorem bigEndian_of_le {w : Nat} {b : Bytes} (h : b.length ≤ w) :
    bigEndian w (ofBigEndian b) = List.replicate (w - b.length) 0 ++ b := by
  have hb := bigEndian_ofBigEndian (List.replicate (w - b.length) 0 ++ b)
  rwa [ofBigEndian_replicate_append, List.length_append, List.length_replicate, Nat.sub_add_cancel h] at hb

/-! ## Byte strings of a length -/

theorem split?_of_lt {n : Nat} {s : Bytes} (h : s.length < n) : split? n s = none := by
  have ht : (s.take n).length ≠ n := by
    rw [List.length_take]
    omega
  rw [split?, dif_neg ht]

end Bitcoin.Bytes

namespace Bitcoin.FixedBytes

theorem ofBytes?_eq_some {n : Nat} {b : Bytes} {k : FixedBytes n} : ofBytes? n b = some k ↔ b = k.val := by
  unfold ofBytes?
  constructor
  · intro h
    split at h <;> cases h
    rfl
  · rintro rfl
    rw [dif_pos k.property]

theorem ofBytes?_val {n : Nat} (k : FixedBytes n) : ofBytes? n k.val = some k := ofBytes?_eq_some.2 rfl

end Bitcoin.FixedBytes

import Mathlib.Algebra.Group.Nat.Defs
import Bitcoin.Proofs.Bytes
import Bitcoin.Proofs.Outcome

/-!
# What is read as a signature

A signature is read if it is long enough and is a sequence of two integers of at
most 32 bytes, or 33 with a zero in front (`Holds`); what is read are the
integers in 32 bytes each (`decodeDer_eq_ok_iff`). The length of the sequence
may be any byte, and anything may follow. The standard encoding is read as the
numbers it encodes (`decodeDer_encodeDer`), and whatever is not read is a fault
of the signature. `decodeDerAt` reads by indices and slices, and none of them is
out of range (`inRange_decodeDerAt`).
-/

namespace Bitcoin.Signature

/-! ## What is read -/

/-- At most 32 bytes, or 33 with a zero in front. -/
def Fits32 (body : Bytes) : Prop := body.length ≤ 32 ∨ body.length = 33 ∧ body.head? = some 0

/-- At least eight bytes that are a sequence of two integers with the bytes `R`
and `S`, whatever its length byte is and whatever follows them. -/
structure Holds (sig R S : Bytes) : Prop where
  long : 8 ≤ sig.length
  sequence : ∃ x lr ls tail, sig = [0x30, x, 0x02, lr] ++ R ++ [0x02, ls] ++ S ++ tail ∧
    R.length = lr.toNat ∧ S.length = ls.toNat
  fitsR : Fits32 R
  fitsS : Fits32 S

/-! ## One integer -/

/-- The bytes of an integer without the zero in front of 32 others. -/
def stripped (length : UInt8) (body : Bytes) : Bytes :=
  if length = 33 ∧ body.head? = some 0 then body.drop 1 else body

/-- The bytes of an integer in 32 bytes, unless they are too many. -/
def padded (body : Bytes) : Except Error (FixedBytes 32) :=
  match padLeft? 32 body with
  | some value => .ok value
  | none => .error (.signature (.integerTooLong body.length))

theorem length_zeros_append {w : Nat} {body : Bytes} :
    (List.replicate (w - body.length) 0 ++ body).length = w ↔ body.length ≤ w := by
  rw [List.length_append, List.length_replicate]
  omega

theorem padded_of_le {body : Bytes} (h : body.length ≤ 32) :
    padded body = .ok ⟨List.replicate (32 - body.length) 0 ++ body, length_zeros_append.2 h⟩ := by
  rw [padded, padLeft?, FixedBytes.ofBytes?, dif_pos (length_zeros_append.2 h)]

theorem padded_of_lt {body : Bytes} (h : 32 < body.length) :
    padded body = .error (.signature (.integerTooLong body.length)) := by
  rw [padded, padLeft?, FixedBytes.ofBytes?, dif_neg (mt length_zeros_append.1 (Nat.not_le.2 h))]

theorem padded_eq_ok_iff {body : Bytes} {value : FixedBytes 32} :
    padded body = .ok value ↔ body.length ≤ 32 ∧ Bytes.ofBigEndian value.val = Bytes.ofBigEndian body := by
  rcases Nat.lt_or_ge 32 body.length with h | h
  · rw [padded_of_lt h]
    exact ⟨nofun, fun ⟨hl, _⟩ => absurd h (Nat.not_lt.2 hl)⟩
  · rw [padded_of_le h]
    refine ⟨fun hv => ?_, fun ⟨_, hv⟩ => ?_⟩
    · cases hv
      exact ⟨h, Bytes.ofBigEndian_replicate_append _ _⟩
    · have hb := Bytes.bigEndian_ofBigEndian value.val
      rw [value.property, hv, Bytes.bigEndian_of_le h] at hb
      exact congrArg Except.ok (Subtype.ext hb)

/-- The zero in front of 32 bytes is not part of what has to fit. -/
theorem padded_stripped_eq_ok_iff {length : UInt8} {body : Bytes} {value : FixedBytes 32}
    (h : body.length = length.toNat) :
    padded (stripped length body) = .ok value ↔
      Fits32 body ∧ Bytes.ofBigEndian value.val = Bytes.ofBigEndian body := by
  have hl : length = 33 ↔ body.length = 33 := by
    rw [h, ← UInt8.toNat_inj]
    rfl
  rw [padded_eq_ok_iff]
  simp only [stripped, hl, Fits32]
  by_cases hz : body.length = 33 ∧ body.head? = some 0
  · obtain ⟨tail, rfl⟩ := List.head?_eq_some_iff.1 hz.2
    have ht : tail.length ≤ 32 := Nat.le_of_eq (Nat.succ.inj hz.1)
    rw [if_pos hz, List.drop_one, List.tail_cons, Bytes.ofBigEndian_zero_cons]
    simp only [ht, hz, and_self, or_true, true_and]
  · rw [if_neg hz]
    simp only [hz, or_false]

theorem readInteger_of_tag_ne {tag : UInt8} (h : tag ≠ 0x02) (length : UInt8) (behind : Bytes) :
    readInteger (tag :: length :: behind) = .error (.signature .notAnInteger) := by
  rw [readInteger, if_pos h]

theorem readInteger_of_truncated {length : UInt8} {behind : Bytes} (h : Bytes.split? length.toNat behind = none) :
    readInteger (0x02 :: length :: behind) = .error (.signature .integerTruncated) := by
  rw [readInteger, if_neg (by simp), h]

theorem readInteger_of_split? {length : UInt8} {behind rest : Bytes} {body : FixedBytes length.toNat}
    (h : Bytes.split? length.toNat behind = some (body, rest)) :
    readInteger (0x02 :: length :: behind) = padded (stripped length body.val) >>= fun value => .ok (value, rest) := by
  rw [readInteger, if_neg (by simp), h]
  unfold padded
  show (match padLeft? 32 (stripped length body.val) with | some _ => _ | none => _) = _
  cases padLeft? 32 (stripped length body.val) <;> rfl

theorem readInteger_eq_ok_iff {data rest : Bytes} {value : FixedBytes 32} :
    readInteger data = .ok (value, rest) ↔ ∃ length body, data = [0x02, length] ++ body ++ rest ∧
      body.length = length.toNat ∧ Fits32 body ∧ Bytes.ofBigEndian value.val = Bytes.ofBigEndian body := by
  refine ⟨fun h => ?_, fun ⟨length, body, hd, hl, hb⟩ => ?_⟩
  · match data with
    | [] | [_] => cases h
    | tag :: length :: behind =>
      by_cases ht : tag = 0x02
      · subst ht
        cases hs : Bytes.split? length.toNat behind with
        | none =>
          rw [readInteger_of_truncated hs] at h
          cases h
        | some p =>
          rw [readInteger_of_split? hs] at h
          obtain ⟨_, hv, h⟩ := bind_eq_ok.1 h
          cases h
          rw [← Bytes.append_of_split? hs]
          exact ⟨length, p.1.val, rfl, p.1.property, (padded_stripped_eq_ok_iff p.1.property).1 hv⟩
      · rw [readInteger_of_tag_ne ht] at h
        cases h
  · have hs := Bytes.split?_append ⟨body, hl⟩ rest
    have hv := (padded_stripped_eq_ok_iff hl).2 hb
    rw [hd, List.append_assoc, List.cons_append, List.cons_append, List.nil_append, readInteger_of_split? hs, hv]
    rfl

/-! ## The two integers -/

theorem decodeDer_eq (sig : Bytes) :
    decodeDer sig =
      if sig.head? ≠ some 0x30 then .error (.signature .notASequence)
      else if sig.length < 8 then .error (.signature (.tooShort sig.length))
      else readInteger (sig.drop 2) >>= fun p => readInteger p.2 >>= fun q => .ok (p.1, q.1) := by
  unfold decodeDer
  split
  · rfl
  · split <;> rfl

theorem decodeDer_eq_ok_iff {sig : Bytes} {r s : FixedBytes 32} :
    decodeDer sig = .ok (r, s) ↔ ∃ R S, Holds sig R S ∧
      Bytes.ofBigEndian r.val = Bytes.ofBigEndian R ∧ Bytes.ofBigEndian s.val = Bytes.ofBigEndian S := by
  rw [decodeDer_eq]
  refine ⟨fun h => ?_, ?_⟩
  · split at h
    · cases h
    next htag =>
    split at h
    · cases h
    next h8 =>
    obtain ⟨⟨r', rest⟩, hr, h⟩ := bind_eq_ok.1 h
    obtain ⟨⟨s', tail⟩, hs, h⟩ := bind_eq_ok.1 h
    cases h
    obtain ⟨lr, R, hd, hR, hfR, hvR⟩ := readInteger_eq_ok_iff.1 hr
    obtain ⟨ls, S, rfl, hS, hfS, hvS⟩ := readInteger_eq_ok_iff.1 hs
    -- the two bytes in front are the tag and the byte that is not looked at
    obtain ⟨behind, rfl⟩ := List.head?_eq_some_iff.1 (Decidable.not_not.1 htag)
    obtain ⟨x, behind, rfl⟩ := List.exists_cons_of_length_pos (l := behind) (by rw [List.length_cons] at h8; omega)
    have hsig : 0x30 :: x :: behind = [0x30, x, 0x02, lr] ++ R ++ [0x02, ls] ++ S ++ tail := by
      rw [show behind = _ from hd]
      simp
    exact ⟨R, S, ⟨Nat.not_lt.1 h8, ⟨x, lr, ls, tail, hsig, hR, hS⟩, hfR, hfS⟩, hvR, hvS⟩
  · rintro ⟨R, S, ⟨h8, ⟨x, lr, ls, tail, rfl, hR, hS⟩, hfR, hfS⟩, hvR, hvS⟩
    have hs : readInteger ([0x02, ls] ++ S ++ tail) = .ok (s, tail) :=
      readInteger_eq_ok_iff.2 ⟨ls, S, rfl, hS, hfS, hvS⟩
    have hr : readInteger ([0x02, lr] ++ R ++ ([0x02, ls] ++ S ++ tail)) = .ok (r, [0x02, ls] ++ S ++ tail) :=
      readInteger_eq_ok_iff.2 ⟨lr, R, rfl, hR, hfR, hvR⟩
    have hd : ([0x30, x, 0x02, lr] ++ R ++ [0x02, ls] ++ S ++ tail).drop 2 =
        [0x02, lr] ++ R ++ ([0x02, ls] ++ S ++ tail) := by simp
    rw [if_neg (by simp), if_neg (Nat.not_lt.2 h8), hd, hr, ok_bind, hs, ok_bind]

theorem exists_of_readInteger_eq_error {data : Bytes} {e : Error} (h : readInteger data = .error e) :
    ∃ fault, e = .signature fault := by
  unfold readInteger at h
  split at h
  · split at h
    · cases h
      exact ⟨_, rfl⟩
    split at h
    · cases h
      exact ⟨_, rfl⟩
    dsimp only at h
    split at h
    · cases h
    · cases h
      exact ⟨_, rfl⟩
  · cases h
    exact ⟨_, rfl⟩

/-- A signature that is not read is at fault itself. -/
theorem exists_of_decodeDer_eq_error {sig : Bytes} {e : Error} (h : decodeDer sig = .error e) :
    ∃ fault, e = .signature fault := by
  rw [decodeDer_eq] at h
  split at h
  · cases h
    exact ⟨_, rfl⟩
  split at h
  · cases h
    exact ⟨_, rfl⟩
  rcases bind_eq_error.1 h with hr | ⟨p, -, h⟩
  · exact exists_of_readInteger_eq_error hr
  rcases bind_eq_error.1 h with hs | ⟨q, -, h⟩
  · exact exists_of_readInteger_eq_error hs
  · cases h

/-! ## The standard encoding -/

/-- The bytes of a number in an integer: as few as possible, but at least one
and none that begins with a one bit, which would be a sign. -/
def integerBytes (n : Nat) : Bytes :=
  match (Bytes.minimal n).reverse with
  | [] => [0]
  | x :: rest => if 0x80 ≤ x then 0 :: x :: rest else x :: rest

/-- A number as an integer. -/
def encodeInteger (n : Nat) : Bytes := 0x02 :: UInt8.ofNat (integerBytes n).length :: integerBytes n

/-- Two numbers as a signature. -/
def encodeDer (m n : Nat) : Bytes :=
  0x30 :: UInt8.ofNat (encodeInteger m ++ encodeInteger n).length :: (encodeInteger m ++ encodeInteger n)

theorem ofBigEndian_integerBytes (n : Nat) : Bytes.ofBigEndian (integerBytes n) = n := by
  have hn := Bytes.ofBigEndian_reverse_minimal n
  unfold integerBytes
  split
  · next h =>
    rw [h] at hn
    exact hn
  · next x rest h =>
    rw [h] at hn
    split
    · rw [Bytes.ofBigEndian_zero_cons, hn]
    · exact hn

theorem integerBytes_ne_nil (n : Nat) : integerBytes n ≠ [] := by
  unfold integerBytes
  split
  · nofun
  · split <;> nofun

/-- 32 bytes are enough, but for a zero in front. -/
theorem fits32_integerBytes {n : Nat} (h : n < 2 ^ 256) : Fits32 (integerBytes n) := by
  have hl : (Bytes.minimal n).reverse.length ≤ 32 := by
    rw [List.length_reverse]
    exact Bytes.length_minimal_le (k := 32) h
  unfold integerBytes
  split
  · exact .inl (by decide)
  · next x rest hb =>
    rw [hb] at hl
    split
    · by_cases h32 : (x :: rest).length = 32
      · exact .inr ⟨congrArg (· + 1) h32, rfl⟩
      · exact .inl (by rw [List.length_cons]; omega)
    · exact .inl hl

theorem Fits32.length_le {body : Bytes} (h : Fits32 body) : body.length ≤ 33 := by
  rcases h with h | ⟨h, -⟩ <;> omega

theorem holds_encodeDer {m n : Nat} (hm : m < 2 ^ 256) (hn : n < 2 ^ 256) :
    Holds (encodeDer m n) (integerBytes m) (integerBytes n) := by
  have hl : ∀ {k}, k < 2 ^ 256 → (integerBytes k).length = (UInt8.ofNat (integerBytes k).length).toNat := by
    intro k hk
    have := (fits32_integerBytes hk).length_le
    rw [UInt8.toNat_ofNat']
    omega
  refine ⟨?_, ⟨UInt8.ofNat (encodeInteger m ++ encodeInteger n).length, _, _, [], ?_, hl hm, hl hn⟩,
    fits32_integerBytes hm, fits32_integerBytes hn⟩
  · have := List.length_pos_iff.2 (integerBytes_ne_nil m)
    have := List.length_pos_iff.2 (integerBytes_ne_nil n)
    simp only [encodeDer, encodeInteger, List.length_cons, List.length_append]
    omega
  · simp only [encodeDer, encodeInteger, List.cons_append, List.nil_append, List.append_assoc, List.append_nil]

theorem decodeDer_encodeDer {m n : Nat} (hm : m < 2 ^ 256) (hn : n < 2 ^ 256) :
    decodeDer (encodeDer m n) = .ok (.bigEndian 32 m, .bigEndian 32 n) := by
  have hv : ∀ {k}, k < 2 ^ 256 →
      Bytes.ofBigEndian (FixedBytes.bigEndian 32 k).val = Bytes.ofBigEndian (integerBytes k) := by
    intro k hk
    rw [ofBigEndian_integerBytes, FixedBytes.bigEndian, Bytes.ofBigEndian_bigEndian]
    exact Nat.mod_eq_of_lt hk
  exact decodeDer_eq_ok_iff.2 ⟨_, _, holds_encodeDer hm hn, hv hm, hv hn⟩

/-! ## Reading by indices -/

/-- The bytes from one index up to another, if both are in range. -/
def slice? (b : Bytes) (i j : Nat) : Option Bytes :=
  if i ≤ j ∧ j ≤ b.length then some ((b.take j).drop i) else none

/-- Bytes copied over those from an index on, if they are as many. -/
def copyFrom? {n : Nat} (out : FixedBytes n) (i : Nat) (b : Bytes) : Option (FixedBytes n) :=
  if i ≤ n then FixedBytes.ofBytes? n (out.val.take i ++ b) else none

/-- The difference of two numbers, if it is one. -/
def sub? (m n : Nat) : Option Nat := if n ≤ m then some (m - n) else none

/-- A reading that may also end with an index out of range, without a result. -/
abbrev Indexed := ExceptT Error Option

/-- `stripped` by indices. -/
def strip? (length : UInt8) (body : Bytes) : Option Bytes :=
  if length = 33 ∧ body.head? = some 0 then slice? body 1 body.length else some body

/-- `padded` by indices: the bytes are copied over the end of 32 zeros. -/
def padAt (body : Bytes) : Indexed (FixedBytes 32) := do
  if 32 < body.length then throw (.signature (.integerTooLong body.length))
  let start ← sub? 32 body.length
  copyFrom? (.zero 32) start body

/-- `readInteger` by indices. -/
def readIntegerAt (data : Bytes) : Indexed (FixedBytes 32 × Bytes) := do
  if data.length < 2 then throw (.signature .notAnInteger)
  let tag ← (data[0]? : Option UInt8)
  if tag ≠ 0x02 then throw (.signature .notAnInteger)
  let length ← (data[1]? : Option UInt8)
  let some body := slice? data 2 (2 + length.toNat) | throw (.signature .integerTruncated)
  let value ← padAt (← strip? length body)
  let rest ← slice? data (2 + length.toNat) data.length
  return (value, rest)

/-- `decodeDer` by indices. -/
def decodeDerAt (sig : Bytes) : Indexed (FixedBytes 32 × FixedBytes 32) := do
  if sig.head? ≠ some 0x30 then throw (.signature .notASequence)
  if sig.length < 8 then throw (.signature (.tooShort sig.length))
  let behind ← slice? sig 2 sig.length
  let (r, rest) ← readIntegerAt behind
  let (s, _) ← readIntegerAt rest
  return (r, s)

section Indexed

variable {α β : Type}

/-- The reading ends as `y`, and no index was out of range. -/
def InRange (x : Indexed α) (y : Except Error α) : Prop := x.run = some y

theorem InRange.throw (e : Error) : InRange (throw e : Indexed α) (.error e) := rfl

theorem InRange.bind {x : Indexed α} {y : Except Error α} {f : α → Indexed β} {g : α → Except Error β}
    (hx : InRange x y) (hf : ∀ a, InRange (f a) (g a)) : InRange (x >>= f) (y >>= g) := by
  unfold InRange at *
  rw [ExceptT.run_bind, hx]
  cases y with
  | ok a => exact hf a
  | error e => rfl

theorem liftM_some_bind (a : α) (f : α → Indexed β) : (liftM (some a) : Indexed α) >>= f = f a := rfl

end Indexed

theorem slice?_to_end {b : Bytes} {i : Nat} (h : i ≤ b.length) : slice? b i b.length = some (b.drop i) := by
  rw [slice?, if_pos ⟨h, Nat.le_refl _⟩, List.take_length]

/-- The bytes of an integer are in range if there are that many. -/
theorem slice?_two (tag length : UInt8) (behind : Bytes) (n : Nat) :
    slice? (tag :: length :: behind) 2 (2 + n) = (Bytes.split? n behind).map (·.1.val) := by
  have hl : (behind.take n).length = n ↔ n ≤ behind.length := by
    rw [List.length_take]
    omega
  unfold slice? Bytes.split?
  by_cases hn : n ≤ behind.length
  · rw [if_pos ⟨by omega, by rw [List.length_cons, List.length_cons]; omega⟩, dif_pos (hl.2 hn), Nat.add_comm]
    rfl
  · rw [if_neg (by rw [List.length_cons, List.length_cons]; omega), dif_neg (mt hl.1 hn)]
    rfl

theorem strip?_eq (length : UInt8) (body : Bytes) : strip? length body = some (stripped length body) := by
  unfold strip? stripped
  split
  · next h =>
    obtain ⟨tail, rfl⟩ := List.head?_eq_some_iff.1 h.2
    exact slice?_to_end (Nat.le_add_left 1 _)
  · rfl

theorem inRange_padAt (body : Bytes) : InRange (padAt body) (padded body) := by
  unfold padAt
  rcases Nat.lt_or_ge 32 body.length with h | h
  · rw [padded_of_lt h, if_pos h]
    exact .throw _
  · have hs : sub? 32 body.length = some (32 - body.length) := if_pos h
    have hc : copyFrom? (.zero 32) (32 - body.length) body =
        some ⟨List.replicate (32 - body.length) 0 ++ body, length_zeros_append.2 h⟩ := by
      rw [copyFrom?, if_pos (Nat.sub_le _ _), FixedBytes.zero, List.take_replicate, Nat.min_eq_left (Nat.sub_le _ _)]
      exact dif_pos (length_zeros_append.2 h)
    dsimp only
    rw [padded_of_le h, if_neg (Nat.not_lt.2 h), hs, liftM_some_bind, hc]
    rfl

theorem inRange_readIntegerAt (data : Bytes) : InRange (readIntegerAt data) (readInteger data) := by
  match data with
  | [] | [_] => rfl
  | tag :: length :: behind =>
    rw [readIntegerAt, if_neg (by simp)]
    dsimp only [List.getElem?_cons_zero, List.getElem?_cons_succ]
    rw [liftM_some_bind]
    by_cases ht : tag = 0x02
    · subst ht
      rw [if_neg (by simp), liftM_some_bind, slice?_two]
      cases hs : Bytes.split? length.toNat behind with
      | none =>
        rw [readInteger_of_truncated hs]
        exact .throw _
      | some p =>
        have hl := Bytes.length_of_split? hs
        have hrest : slice? (0x02 :: length :: behind) (2 + length.toNat) (0x02 :: length :: behind).length =
            some p.2 := by
          rw [slice?_to_end (by rw [List.length_cons, List.length_cons]; omega), Nat.add_comm, List.drop_succ_cons,
            List.drop_succ_cons, ← Bytes.append_of_split? hs, List.drop_left' p.1.property]
        rw [readInteger_of_split? hs, Option.map_some]
        dsimp only
        rw [strip?_eq, liftM_some_bind, hrest]
        exact .bind (inRange_padAt _) fun value => rfl
    · rw [if_pos ht, readInteger_of_tag_ne ht]
      exact .throw _

theorem inRange_decodeDerAt (sig : Bytes) : InRange (decodeDerAt sig) (decodeDer sig) := by
  rw [decodeDer_eq]
  unfold decodeDerAt
  by_cases h : sig.head? ≠ some 0x30
  · rw [if_pos h, if_pos h]
    exact .throw _
  rw [if_neg h, if_neg h]
  dsimp only
  by_cases h8 : sig.length < 8
  · rw [if_pos h8, if_pos h8]
    exact .throw _
  rw [if_neg h8, if_neg h8, slice?_to_end (by omega), liftM_some_bind]
  exact .bind (inRange_readIntegerAt _) fun p => .bind (inRange_readIntegerAt p.2) fun q => rfl

/-! ## Exactly the signatures -/

/-- What is read are two integers of at most 32 bytes, or 33 with a zero in
front, in 32 bytes each, and the standard encoding is read as what it encodes.
Anything else is a fault of the signature, and no index is out of range. -/
theorem decodeDer_reads_exactly (sig : Bytes) :
    (∀ r s, decodeDer sig = .ok (r, s) ↔ ∃ R S, Holds sig R S ∧
      Bytes.ofBigEndian r.val = Bytes.ofBigEndian R ∧ Bytes.ofBigEndian s.val = Bytes.ofBigEndian S) ∧
    (∀ m n, m < 2 ^ 256 → n < 2 ^ 256 → decodeDer (encodeDer m n) = .ok (.bigEndian 32 m, .bigEndian 32 n)) ∧
    ((∀ R S, ¬ Holds sig R S) → ∃ fault, decodeDer sig = .error (.signature fault)) ∧
    (decodeDerAt sig).run = some (decodeDer sig) := by
  refine ⟨fun r s => decodeDer_eq_ok_iff, fun m n => decodeDer_encodeDer, fun h => ?_, inRange_decodeDerAt sig⟩
  cases hd : decodeDer sig with
  | ok p =>
    obtain ⟨R, S, hs, -⟩ := decodeDer_eq_ok_iff.1 hd
    exact absurd hs (h R S)
  | error e =>
    obtain ⟨fault, rfl⟩ := exists_of_decodeDer_eq_error hd
    exact ⟨fault, rfl⟩

/-- A sequence with a wrong length and an integer without bytes, another tag, and
a number whose first bit would be a sign. -/
theorem decodeDer_reads_exactly_empty :
    decodeDer [0x30, 0x00, 0x02, 0x00, 0x02, 0x02, 0x01, 0x05] = .ok (.bigEndian 32 0, .bigEndian 32 261) ∧
    (decodeDerAt [0x30, 0x00, 0x02, 0x00, 0x02, 0x02, 0x01, 0x05]).run =
      some (.ok (.bigEndian 32 0, .bigEndian 32 261)) ∧
    (∃ fault, decodeDer [0x31, 0x06, 0x02, 0x01, 0x01, 0x02, 0x01, 0x01] = .error (.signature fault)) ∧
    decodeDer (encodeDer 1 (2 ^ 255)) = .ok (.bigEndian 32 1, .bigEndian 32 (2 ^ 255)) := by
  have hh : Holds [0x30, 0x00, 0x02, 0x00, 0x02, 0x02, 0x01, 0x05] [] [0x01, 0x05] :=
    ⟨by decide, ⟨0x00, 0x00, 0x02, [], rfl, rfl, rfl⟩, .inl (by decide), .inl (by decide)⟩
  obtain ⟨hi, hr, -, hx⟩ := decodeDer_reads_exactly [0x30, 0x00, 0x02, 0x00, 0x02, 0x02, 0x01, 0x05]
  obtain ⟨-, -, he, -⟩ := decodeDer_reads_exactly [0x31, 0x06, 0x02, 0x01, 0x01, 0x02, 0x01, 0x01]
  have hd := (hi (.bigEndian 32 0) (.bigEndian 32 261)).2 ⟨_, _, hh, by decide, by decide⟩
  refine ⟨hd, hd ▸ hx, he ?_, hr 1 (2 ^ 255) (by decide) (by decide)⟩
  rintro R S ⟨-, ⟨x, lr, ls, tail, hs, -⟩, -, -⟩
  cases hs

end Bitcoin.Signature

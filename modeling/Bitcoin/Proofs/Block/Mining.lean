import Mathlib.Logic.Function.Iterate
import Bitcoin.Block

/-!
# Mining

The search for a nonce tries one after the other, so what it finds is the least
nonce with which the header meets the target (`searchFrom_eq_some_iff`,
`search_eq_some_iff`). As a machine goes about it, with the nonce in a word of
32 bits, it has ended once every nonce up to the limit was tried, whatever the
limit (`iterate_attempt`).
-/

namespace Bitcoin.BlockHeader

variable {h : BlockHeader} {target : Hash256} {nonce : UInt32}

theorem meets_iff : h.meets target = true ↔ Bytes.ofBigEndian h.hash.val < Bytes.ofBigEndian target.val :=
  FixedBytes.lt_iff _ _

/-- The search from a nonce on, by induction on the number of nonces left. -/
theorem searchFrom_eq_some_iff {first count : Nat} (hb : first + count ≤ UInt32.size) :
    h.searchFrom target first count = some nonce ↔
      first ≤ nonce.toNat ∧ nonce.toNat < first + count ∧ (h.withNonce nonce).meets target = true ∧
      ∀ k : UInt32, first ≤ k.toNat → k < nonce → (h.withNonce k).meets target = false := by
  induction count generalizing first with
  | zero =>
    refine ⟨nofun, fun ⟨hl, hu, _⟩ => ?_⟩
    omega
  | succ count ih =>
    have hf : (UInt32.ofNat first).toNat = first := UInt32.toNat_ofNat_of_lt' (by omega)
    rw [searchFrom]
    split
    · rename_i hm
      constructor
      · intro he
        cases he
        refine ⟨Nat.le_of_eq hf.symm, by omega, hm, fun k hk hlt => ?_⟩
        rw [UInt32.lt_iff_toNat_lt, hf] at hlt
        omega
      · intro ⟨hl, _, _, hmin⟩
        obtain heq | hlt := Nat.eq_or_lt_of_le hl
        · rw [← UInt32.toNat_inj.1 (hf.trans heq)]
        · have := hmin (UInt32.ofNat first) (Nat.le_of_eq hf.symm) (UInt32.lt_iff_toNat_lt.2 (hf.symm ▸ hlt))
          rw [hm] at this
          cases this
    · rename_i hm
      rw [ih (by omega)]
      constructor
      · intro ⟨hl, hu, hn, hmin⟩
        refine ⟨by omega, by omega, hn, fun k hk hlt => ?_⟩
        obtain heq | hgt := Nat.eq_or_lt_of_le hk
        · rw [← UInt32.toNat_inj.1 (hf.trans heq)]
          exact Bool.eq_false_iff.2 hm
        · exact hmin k hgt hlt
      · intro ⟨hl, hu, hn, hmin⟩
        refine ⟨Nat.lt_of_le_of_ne hl fun heq => hm ?_, by omega, hn, fun k hk => hmin k (by omega)⟩
        rwa [UInt32.toNat_inj.1 (hf.trans heq)]

theorem search_eq_some_iff {maxNonce : UInt32} : h.search target maxNonce = some nonce ↔
    nonce ≤ maxNonce ∧ (h.withNonce nonce).meets target = true ∧
    ∀ k < nonce, (h.withNonce k).meets target = false := by
  have hm := maxNonce.toNat_lt
  rw [search, searchFrom_eq_some_iff (by rw [Nat.zero_add]; exact hm), Nat.zero_add, Nat.lt_succ_iff,
    UInt32.le_iff_toNat_le]
  simp only [Nat.zero_le, true_and, true_implies]

/-- Where nothing is found, every nonce was tried; by induction on the number of
nonces left. -/
theorem searchFrom_eq_none_iff {first count : Nat} (hb : first + count ≤ UInt32.size) :
    h.searchFrom target first count = none ↔
      ∀ k : UInt32, first ≤ k.toNat → k.toNat < first + count → (h.withNonce k).meets target = false := by
  induction count generalizing first with
  | zero => exact iff_of_true rfl fun k hl hu => by omega
  | succ count ih =>
    have hf : (UInt32.ofNat first).toNat = first := UInt32.toNat_ofNat_of_lt' (by omega)
    rw [searchFrom]
    split
    · rename_i hm
      refine iff_of_false nofun fun hall => ?_
      rw [hall (UInt32.ofNat first) (by omega) (by omega)] at hm
      cases hm
    · rename_i hm
      rw [ih (by omega)]
      refine ⟨fun hall k hl hu => ?_, fun hall k hl hu => hall k (by omega) (by omega)⟩
      obtain heq | hlt := Nat.eq_or_lt_of_le hl
      · rw [← UInt32.toNat_inj.1 (hf.trans heq)]
        exact Bool.eq_false_iff.2 hm
      · exact hall k hlt (by omega)

theorem search_eq_none_iff {maxNonce : UInt32} : h.search target maxNonce = none ↔
    ∀ k ≤ maxNonce, (h.withNonce k).meets target = false := by
  have hm := maxNonce.toNat_lt
  rw [search, searchFrom_eq_none_iff (by rw [Nat.zero_add]; exact hm)]
  simp only [Nat.zero_le, true_implies, Nat.zero_add, Nat.lt_succ_iff, UInt32.le_iff_toNat_le]

/-! ## One attempt after the other -/

/-- How far a search has come. -/
inductive Progress where
  /-- The nonce that is next. -/
  | trying (nonce : UInt32)
  /-- The nonce that was found, if any was. -/
  | ended (found : Option UInt32)
  deriving Repr, DecidableEq

/-- One attempt. The nonce is compared with the limit before it is counted up,
as after the greatest one the count would begin again. -/
def attempt (h : BlockHeader) (target : Hash256) (maxNonce : UInt32) : Progress → Progress
  | .trying nonce =>
    if (h.withNonce nonce).meets target then .ended (some nonce)
    else if nonce < maxNonce then .trying (nonce + 1)
    else .ended none
  | .ended found => .ended found

variable {maxNonce : UInt32}

theorem attempt_of_not_meets {first : Nat} (hf : first < maxNonce.toNat)
    (hm : ¬ (h.withNonce (UInt32.ofNat first)).meets target = true) :
    h.attempt target maxNonce (.trying (UInt32.ofNat first)) = .trying (UInt32.ofNat (first + 1)) := by
  have hlt : UInt32.ofNat first < maxNonce := by
    have hn : (UInt32.ofNat first).toNat = first := UInt32.toNat_ofNat_of_lt' (Nat.lt_trans hf maxNonce.toNat_lt)
    rwa [UInt32.lt_iff_toNat_lt, hn]
  rw [attempt, if_neg hm, if_pos hlt, UInt32.ofNat_add]
  rfl

theorem attempt_of_limit (hm : ¬ (h.withNonce maxNonce).meets target = true) :
    h.attempt target maxNonce (.trying maxNonce) = .ended none := by
  rw [attempt, if_neg hm, if_neg (by rw [UInt32.lt_iff_toNat_lt]; omega)]

theorem iterate_attempt_ended (found : Option UInt32) (k : Nat) :
    (h.attempt target maxNonce)^[k] (.ended found) = .ended found :=
  Function.iterate_fixed rfl k

/-- As many attempts as there are nonces left come to what the search of these
nonces finds, by induction on their number. -/
theorem iterate_attempt_trying {first count : Nat} (hl : first + count = maxNonce.toNat) :
    (h.attempt target maxNonce)^[count + 1] (.trying (UInt32.ofNat first)) =
      .ended (h.searchFrom target first (count + 1)) := by
  induction count generalizing first with
  | zero =>
    have hn : UInt32.ofNat first = maxNonce := by rw [show first = maxNonce.toNat by omega, UInt32.ofNat_toNat]
    rw [Function.iterate_one, searchFrom, searchFrom, hn]
    split
    · rename_i hm
      rw [attempt, if_pos hm]
    · rename_i hm
      exact attempt_of_limit hm
  | succ count ih =>
    rw [Function.iterate_succ_apply, searchFrom]
    split
    · rename_i hm
      rw [attempt, if_pos hm, iterate_attempt_ended]
    · rename_i hm
      rw [attempt_of_not_meets (by omega) hm, ih (by omega)]

/-- From the first nonce on, the attempts have ended when all nonces up to the
limit were tried, with what the search finds. -/
theorem iterate_attempt (h : BlockHeader) (target : Hash256) {k : Nat} (hk : maxNonce.toNat < k) :
    (h.attempt target maxNonce)^[k] (.trying 0) = .ended (h.search target maxNonce) := by
  have hs : (h.attempt target maxNonce)^[maxNonce.toNat + 1] (.trying 0) = .ended (h.search target maxNonce) :=
    iterate_attempt_trying (Nat.zero_add _)
  rw [← Nat.sub_add_cancel hk, Function.iterate_add_apply, hs, iterate_attempt_ended]

end Bitcoin.BlockHeader

namespace Bitcoin.BlockTemplate

/-- Whether the header with a nonce has a hash that is, as a number, below the
target. -/
def Wins (t : BlockTemplate) (nonce : UInt32) : Prop :=
  Bytes.ofBigEndian (t.block.header.withNonce nonce).hash.val < Bytes.ofBigEndian t.target.val

variable {t : BlockTemplate} {maxNonce : UInt32}

theorem meets_eq_false_iff {nonce : UInt32} :
    (t.block.header.withNonce nonce).meets t.target = false ↔ ¬ t.Wins nonce := by
  rw [← Bool.not_eq_true, BlockHeader.meets_iff, Wins]

theorem mine?_eq_none_iff : t.mine? maxNonce = none ↔ ∀ nonce ≤ maxNonce, ¬ t.Wins nonce := by
  simp only [mine?, Option.map_eq_none_iff, BlockHeader.search_eq_none_iff, meets_eq_false_iff]

theorem mine?_eq_some_iff {b : Block} : t.mine? maxNonce = some b ↔
    ∃ nonce ≤ maxNonce, t.Wins nonce ∧ (∀ k < nonce, ¬ t.Wins k) ∧
      b = { t.block with header := t.block.header.withNonce nonce } := by
  simp only [mine?, Option.map_eq_some_iff, BlockHeader.search_eq_some_iff, meets_eq_false_iff,
    BlockHeader.meets_iff, and_assoc, Wins, eq_comm (b := b)]

/-- Mining gives the template's block with the least nonce that wins, if that is
within the limit, and none exactly if no nonce within the limit wins. The
attempts that it makes come to an end at any limit, with the same nonce. -/
theorem mined_nonce_least (t : BlockTemplate) (maxNonce : UInt32) :
    (∀ b, t.mine? maxNonce = some b ↔ ∃ nonce ≤ maxNonce, t.Wins nonce ∧ (∀ k < nonce, ¬ t.Wins k) ∧
      b = { t.block with header := t.block.header.withNonce nonce }) ∧
    (t.mine? maxNonce = none ↔ ∀ nonce ≤ maxNonce, ¬ t.Wins nonce) ∧
    ∀ k > maxNonce.toNat, (t.block.header.attempt t.target maxNonce)^[k] (.trying 0) =
      .ended ((t.mine? maxNonce).map (·.header.nonce)) := by
  refine ⟨fun b => mine?_eq_some_iff, mine?_eq_none_iff, fun k hk => ?_⟩
  rw [BlockHeader.iterate_attempt _ _ hk, mine?, Option.map_map]
  exact congrArg _ Option.map_id'.symm

end Bitcoin.BlockTemplate

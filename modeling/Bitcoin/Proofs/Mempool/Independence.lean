import Mathlib.Data.List.Basic
import Bitcoin.Proofs.Mempool.Consistency

/-!
# Selections and independent arrivals

Each candidate was offered at some point (`offer_mem_of_get?_serveAll`). Sorted
they are the candidates in another order (`sorted_perm`), each once if the pool
is consistent, and what fits the budget is picked from these in order
(`pack_sublist`, `totalWeight_pack_le`). So those selected from a pool that
requests lead to differ by identifier and claim different outpoints.

Transactions that differ by identifier and claim different outpoints do not get
in each other's way (`Independent`): whatever is offered first, each is accepted
(`offerAll_eq`), and the candidates are those offered, in that order
(`toList_offerAll`). The candidates of a consistent pool determine who spends
what (`Consistent.spent_eq`). The order of arrival only decides between equal
fee rates (`sorted_eq_of_perm`), so without these the selection does not depend
on it either (`offerAll_perm`).
-/

namespace Bitcoin

theorem Transaction.totalWeight_cons (tx : Transaction) (txs : List Transaction) :
    totalWeight (tx :: txs) = tx.weight + totalWeight txs := by
  have hm : ∀ (n : Nat) (l : List Transaction),
      l.foldl (fun sum tx => sum + tx.weight) n = (l.map weight).foldl (· + ·) n := fun n l =>
    List.foldl_map.symm
  rw [totalWeight, totalWeight, List.foldl_cons, hm, hm, Nat.zero_add, ← Nat.add_zero tx.weight, List.foldl_assoc,
    Nat.add_zero]

namespace Mempool

variable {m : Mempool} {tx : Transaction} {txid : Hash256}

/-! ## Where candidates come from -/

/-- A candidate was one before an offer, or is what is offered. -/
theorem get?_of_serve {r : Request} (h : (m.serve r).get? txid = some tx) :
    m.get? txid = some tx ∨ r = .offer tx := by
  cases r with
  | erase id =>
    rw [serve, get?_erase] at h
    split at h
    · cases h
    · exact .inl h
  | offer t =>
    rw [serve, offer_eq] at h
    split at h
    · exact .inl h
    · split at h
      · exact .inl h
      · rw [get?_insert] at h
        split at h
        · cases h
          exact .inr rfl
        · rw [get?_foldl_erase] at h
          split at h
          · cases h
          · exact .inl h

theorem get?_of_foldl_serve {requests : List Request} (h : (requests.foldl serve m).get? txid = some tx) :
    m.get? txid = some tx ∨ .offer tx ∈ requests := by
  induction requests generalizing m with
  | nil => exact .inl h
  | cons r rs ih =>
    obtain hm | hr := ih h
    · exact (get?_of_serve hm).imp_right fun he => List.mem_cons.2 (.inl he.symm)
    · exact .inr (List.mem_cons_of_mem _ hr)

theorem offer_mem_of_get?_serveAll {requests : List Request} (h : (serveAll requests).get? txid = some tx) :
    .offer tx ∈ requests := by
  obtain he | hr := get?_of_foldl_serve h
  · rw [get?_empty] at he
    cases he
  · exact hr

/-! ## Candidates in order -/

theorem map_txid_filterMap_get? (h : m.Consistent) (ids : List Hash256) (hi : ∀ id ∈ ids, m.contains id) :
    (ids.filterMap m.get?).map Transaction.txid = ids := by
  induction ids with
  | nil => rfl
  | cons id ids ih =>
    obtain ⟨tx, ht⟩ := Option.isSome_iff_exists.1 (m.contains_eq id ▸ hi id List.mem_cons_self)
    rw [List.filterMap_cons_some ht, List.map_cons, h.txid_eq id tx ht,
      ih fun i him => hi i (List.mem_cons_of_mem _ him)]

theorem Consistent.map_txid_toList (h : m.Consistent) : m.toList.map Transaction.txid = m.arrival :=
  map_txid_filterMap_get? h m.arrival fun id hi => (h.mem_arrival_iff id).1 hi

theorem Consistent.get?_of_mem_toList (h : m.Consistent) (ht : tx ∈ m.toList) : m.get? tx.txid = some tx := by
  obtain ⟨id, -, hi⟩ := List.mem_filterMap.1 ht
  rwa [h.txid_eq id tx hi]

theorem sorted_perm (m : Mempool) : m.sorted.Perm m.toList := by
  have hm := ((m.toList.map fun tx => (tx.rateKey, tx)).mergeSort_perm fun a b => decide (b.1 ≤ a.1)).map (·.2)
  rwa [List.map_map, List.map_id''] at hm
  exact fun _ => rfl

/-! ## Packing -/

theorem pack_sublist (budget used : Nat) (txs : List Transaction) : (pack budget used txs).Sublist txs := by
  fun_induction pack budget used txs with
  | case1 => exact .slnil
  | case2 used tx txs _ ih => exact ih.cons tx
  | case3 used tx txs _ ih => exact ih.cons_cons tx

theorem totalWeight_pack_le {budget used : Nat} (h : used ≤ budget) (txs : List Transaction) :
    used + Transaction.totalWeight (pack budget used txs) ≤ budget := by
  fun_induction pack budget used txs with
  | case1 used => exact h
  | case2 used tx txs _ ih => exact ih h
  | case3 used tx txs hw ih =>
    rw [Transaction.totalWeight_cons, ← Nat.add_assoc]
    exact ih (Nat.not_lt.1 hw)

/-! ## Selection -/

theorem totalWeight_select_le (m : Mempool) (budget : Nat) :
    Transaction.totalWeight (m.select budget) ≤ budget := by
  have := totalWeight_pack_le (Nat.zero_le budget) m.sorted
  rwa [Nat.zero_add] at this

theorem Consistent.get?_of_mem_select (h : m.Consistent) {budget : Nat} (ht : tx ∈ m.select budget) :
    m.get? tx.txid = some tx :=
  h.get?_of_mem_toList (m.sorted_perm.mem_iff.1 ((pack_sublist budget 0 m.sorted).subset ht))

theorem Consistent.nodup_txid_select (h : m.Consistent) (budget : Nat) :
    ((m.select budget).map Transaction.txid).Nodup := by
  have hs : (m.sorted.map Transaction.txid).Nodup := by
    rw [(m.sorted_perm.map _).nodup_iff, h.map_txid_toList]
    exact h.nodup_arrival
  exact hs.sublist ((pack_sublist budget 0 m.sorted).map _)

/-- No outpoint is claimed by two of those selected. -/
theorem Consistent.pairwise_claims_select (h : m.Consistent) (budget : Nat) :
    (m.select budget).Pairwise fun s t => ∀ o ∈ s.claims, o ∉ t.claims := by
  have hn := List.pairwise_map.1 (List.nodup_iff_pairwise_ne.1 (h.nodup_txid_select budget))
  exact hn.imp_of_mem fun hs ht hne => h.disjoint_claims (h.get?_of_mem_select hs) (h.get?_of_mem_select ht) hne

end Mempool

end Bitcoin

/-! ## Independent transactions -/

namespace Bitcoin.Mempool

variable {m m' : Mempool} {s t tx : Transaction} {txid : Hash256} {txs txs' : List Transaction}

/-- Offers transactions one after the other; the answers, and the pool after them. -/
def offerAll (m : Mempool) : List Transaction → List Admission × Mempool
  | [] => ([], m)
  | tx :: txs =>
    let answers := offerAll (m.offer tx).2 txs
    ((m.offer tx).1 :: answers.1, answers.2)

/-- The transactions differ by identifier, and none claims what another does. -/
structure Independent (txs : List Transaction) : Prop where
  nodup_txid : (txs.map Transaction.txid).Nodup
  disjoint_claims : txs.Pairwise fun s t => ∀ o ∈ s.claims, o ∉ t.claims

theorem Independent.perm (h : Independent txs) (hp : txs'.Perm txs) : Independent txs' where
  nodup_txid := (hp.map Transaction.txid).nodup_iff.2 h.nodup_txid
  disjoint_claims := (hp.pairwise_iff fun hd o ht hs => hd o hs ht).2 h.disjoint_claims

/-! ## What one offer does -/

/-- A transaction is new to a pool and claims nothing that is spent. -/
structure Admits (m : Mempool) (tx : Transaction) : Prop where
  get?_eq_none : m.get? tx.txid = none
  spender?_eq_none : ∀ o ∈ tx.claims, m.spender? o = none

theorem admits_empty (tx : Transaction) : empty.Admits tx := ⟨get?_empty tx.txid, fun o _ => spender?_empty o⟩

theorem Admits.offer_eq (h : m.Admits tx) : m.offer tx = (.accepted, m.insert tx) := by
  have hc : m.conflicts tx = [] := by
    refine List.eq_nil_iff_forall_not_mem.2 fun txid hm => ?_
    obtain ⟨o, ho, hs⟩ := mem_conflicts.1 hm
    rw [h.spender?_eq_none o ho] at hs
    cases hs
  rw [Mempool.offer_eq, h.get?_eq_none, hc]
  rfl

/-- What is independent of the newcomer can still be taken in. -/
theorem Admits.insert (h : m.Admits t) (hne : s.txid ≠ t.txid) (hd : ∀ o ∈ s.claims, o ∉ t.claims) :
    (m.insert s).Admits t where
  get?_eq_none := by rw [get?_insert, if_neg hne, h.get?_eq_none]
  spender?_eq_none o ho := by
    rw [spender?_insert, if_neg fun hs => hd o hs ho, h.spender?_eq_none o ho]

/-! ## What all offers do -/

/-- Independent transactions are accepted and inserted, by induction on them. -/
theorem offerAll_eq (h : Independent txs) (hm : ∀ tx ∈ txs, m.Admits tx) :
    m.offerAll txs = (List.replicate txs.length .accepted, txs.foldl insert m) := by
  induction txs generalizing m with
  | nil => rfl
  | cons tx txs ih =>
    obtain ⟨hid, hids⟩ := List.nodup_cons.1 h.nodup_txid
    obtain ⟨hd, hds⟩ := List.pairwise_cons.1 h.disjoint_claims
    have ht : ∀ t ∈ txs, (m.insert tx).Admits t := fun t ht =>
      (hm t (List.mem_cons_of_mem tx ht)).insert (fun he => hid (List.mem_map.2 ⟨t, ht, he.symm⟩)) (hd t ht)
    simp only [offerAll, (hm tx List.mem_cons_self).offer_eq, ih ⟨hids, hds⟩ ht]
    rfl

/-- The candidates after the insertion of a transaction that was none. -/
theorem get?_insert_eq_some_iff (hn : m.get? t.txid = none) :
    (m.insert t).get? txid = some tx ↔ m.get? txid = some tx ∨ tx = t ∧ tx.txid = txid := by
  rw [get?_insert]
  by_cases he : t.txid = txid
  · rw [if_pos he, show m.get? txid = none from he ▸ hn]
    constructor
    · intro hs
      cases hs
      exact .inr ⟨rfl, he⟩
    · rintro (hs | ⟨rfl, -⟩)
      · cases hs
      · rfl
  · rw [if_neg he]
    constructor
    · exact .inl
    · rintro (hs | ⟨rfl, ht⟩)
      · exact hs
      · exact absurd ht he

/-- The candidates after some insertions, by induction on these. -/
theorem get?_foldl_insert_eq_some_iff (hn : (txs.map Transaction.txid).Nodup)
    (hm : ∀ tx ∈ txs, m.get? tx.txid = none) :
    (txs.foldl insert m).get? txid = some tx ↔ m.get? txid = some tx ∨ tx ∈ txs ∧ tx.txid = txid := by
  induction txs generalizing m with
  | nil => simp
  | cons t txs ih =>
    obtain ⟨hid, hids⟩ := List.nodup_cons.1 hn
    have ht : ∀ u ∈ txs, (m.insert t).get? u.txid = none := by
      intro u hu
      have hne : t.txid ≠ u.txid := fun he => hid (List.mem_map.2 ⟨u, hu, he.symm⟩)
      rw [get?_insert, if_neg hne, hm u (List.mem_cons_of_mem t hu)]
    rw [List.foldl_cons, ih hids ht, get?_insert_eq_some_iff (hm t List.mem_cons_self), List.mem_cons, or_and_right,
      or_assoc]

theorem arrival_foldl_insert (m : Mempool) (txs : List Transaction) :
    (txs.foldl insert m).arrival = m.arrival ++ txs.map Transaction.txid := by
  induction txs generalizing m with
  | nil => exact (List.append_nil _).symm
  | cons tx txs ih => rw [List.foldl_cons, ih, arrival_insert, List.map_cons, List.append_assoc, List.singleton_append]

theorem Consistent.offerAll (h : m.Consistent) (txs : List Transaction) : (m.offerAll txs).2.Consistent := by
  induction txs generalizing m with
  | nil => exact h
  | cons tx txs ih => exact ih (h.offer tx)

/-! ## What the candidates determine -/

theorem Consistent.spent_eq (h : m.Consistent) (h' : m'.Consistent) (hc : m.candidates = m'.candidates) :
    m.spent = m'.spent := by
  refine Std.ExtHashMap.ext_getElem? fun o => Option.ext fun txid => ?_
  have hs := h.spender?_eq_some_iff o txid
  have hs' := h'.spender?_eq_some_iff o txid
  simp only [get?, hc] at hs hs'
  exact hs.trans hs'.symm

/-! ## Candidates by fee rate -/

section FallingKeys

variable {α : Type} (key : α → Int)

theorem falling_trans (a b c : α) (hab : decide (key b ≤ key a) = true) (hbc : decide (key c ≤ key b) = true) :
    decide (key c ≤ key a) = true :=
  decide_eq_true (Int.le_trans (of_decide_eq_true hbc) (of_decide_eq_true hab))

theorem falling_total (a b : α) : (decide (key b ≤ key a) || decide (key a ≤ key b)) = true := by
  rw [Bool.or_eq_true, decide_eq_true_eq, decide_eq_true_eq]
  exact Int.le_total (key b) (key a)

/-- Sorting with the keys at hand is sorting by key. -/
theorem map_snd_mergeSort (l : List α) :
    ((l.map fun a => (key a, a)).mergeSort fun a b => decide (b.1 ≤ a.1)).map (·.2) =
      l.mergeSort fun a b => decide (key b ≤ key a) := by
  have hk := List.map_mergeSort (f := fun a => (key a, a)) (l := l) (r := fun a b => decide (key b ≤ key a))
    (s := fun a b => decide (b.1 ≤ a.1)) fun _ _ _ _ => rfl
  rw [← hk, List.map_map]
  exact List.map_id'' (fun _ => rfl) _

end FallingKeys

theorem sorted_eq_mergeSort (m : Mempool) :
    m.sorted = m.toList.mergeSort fun a b => decide (b.rateKey ≤ a.rateKey) :=
  map_snd_mergeSort Transaction.rateKey m.toList

theorem pairwise_sorted (m : Mempool) : m.sorted.Pairwise fun s t => t.rateKey ≤ s.rateKey := by
  rw [sorted_eq_mergeSort]
  have hs := List.pairwise_mergeSort (falling_trans Transaction.rateKey) (falling_total Transaction.rateKey) m.toList
  exact hs.imp of_decide_eq_true

/-- Without ties the order is strict. -/
theorem pairwise_sorted_of_nodup (hn : (m.toList.map Transaction.rateKey).Nodup) :
    m.sorted.Pairwise fun s t => t.rateKey < s.rateKey := by
  have hs : (m.sorted.map Transaction.rateKey).Nodup := (m.sorted_perm.map _).nodup_iff.2 hn
  refine (m.pairwise_sorted.and (List.pairwise_map.1 hs)).imp fun {s t} h => ?_
  obtain ⟨hle, hne⟩ := h
  omega

/-- Without ties the order of arrival does not show. -/
theorem sorted_eq_of_perm (hp : m.toList.Perm m'.toList) (hn : (m.toList.map Transaction.rateKey).Nodup) :
    m.sorted = m'.sorted := by
  have hs : m.sorted.Perm m'.sorted := m.sorted_perm.trans (hp.trans m'.sorted_perm.symm)
  have hn' : (m'.toList.map Transaction.rateKey).Nodup := (hp.map _).nodup_iff.1 hn
  exact List.Perm.eq_of_pairwise (fun s t _ _ hlt hgt => absurd hgt (Int.lt_asymm hlt))
    (pairwise_sorted_of_nodup hn) (pairwise_sorted_of_nodup hn') hs

/-! ## Any order of arrival -/

section Offered

variable (h : Independent txs)

include h

theorem offerAll_empty : empty.offerAll txs = (List.replicate txs.length .accepted, txs.foldl insert empty) :=
  offerAll_eq h fun tx _ => admits_empty tx

theorem get?_offerAll_eq_some_iff :
    (empty.offerAll txs).2.get? txid = some tx ↔ tx ∈ txs ∧ tx.txid = txid := by
  rw [offerAll_empty h, get?_foldl_insert_eq_some_iff h.nodup_txid fun tx _ => (admits_empty tx).get?_eq_none,
    get?_empty]
  exact or_iff_right nofun

/-- The candidates are those offered, in that order. -/
theorem toList_offerAll : (empty.offerAll txs).2.toList = txs := by
  have ha : (empty.offerAll txs).2.arrival = txs.map Transaction.txid := by
    rw [offerAll_empty h, arrival_foldl_insert, arrival_empty, List.nil_append]
  have hg : ∀ tx ∈ txs, (empty.offerAll txs).2.get? tx.txid = some tx := fun tx ht =>
    (get?_offerAll_eq_some_iff h).2 ⟨ht, rfl⟩
  rw [toList, ha, List.filterMap_map]
  exact (List.filterMap_congr hg).trans (List.filterMap_some)

end Offered

theorem candidates_offerAll_eq (h : Independent txs) (hp : txs'.Perm txs) :
    (empty.offerAll txs').2.candidates = (empty.offerAll txs).2.candidates := by
  refine Std.ExtHashMap.ext_getElem? fun txid => Option.ext fun tx => ?_
  have hg' : (empty.offerAll txs').2.get? txid = some tx ↔ tx ∈ txs' ∧ tx.txid = txid :=
    get?_offerAll_eq_some_iff (h.perm hp)
  rw [hp.mem_iff] at hg'
  exact hg'.trans (get?_offerAll_eq_some_iff h).symm

/-- Independent transactions offered to the empty pool in any order are all
accepted and lead to the same candidates and the same claims; if their fee rates
differ, the selection is the same for every budget. -/
theorem offerAll_perm (h : Independent txs) (hp : txs'.Perm txs) :
    (empty.offerAll txs').1 = List.replicate txs'.length .accepted ∧
    (empty.offerAll txs').2.candidates = (empty.offerAll txs).2.candidates ∧
    (empty.offerAll txs').2.spent = (empty.offerAll txs).2.spent ∧
    ((txs.map Transaction.rateKey).Nodup → ∀ budget,
      (empty.offerAll txs').2.select budget = (empty.offerAll txs).2.select budget) := by
  have hc := candidates_offerAll_eq h hp
  refine ⟨?_, hc, (consistent_empty.offerAll txs').spent_eq (consistent_empty.offerAll txs) hc, fun hn budget => ?_⟩
  · rw [offerAll_empty (h.perm hp)]
  · have hs : (empty.offerAll txs').2.sorted = (empty.offerAll txs).2.sorted := by
      refine sorted_eq_of_perm ?_ ?_
      · rw [toList_offerAll h, toList_offerAll (h.perm hp)]
        exact hp
      · rw [toList_offerAll (h.perm hp)]
        exact (hp.map _).nodup_iff.2 hn
    rw [select, select, hs]

/-- Leaves an amount to the miner, and may be replaced. -/
def fundedSpend (vout : UInt32) (amount : Amount) : Transaction where
  version := 2
  locktime := 0
  inputs := [.make ⟨FixedBytes.zero 32, vout⟩ (some (.ofScript amount [0x51])) [] [] 0]
  outputs := []

set_option maxRecDepth 100000 in
/-- The first bytes tell their identifiers apart. -/
theorem head?_txid_fundedSpend (amount : Amount) : (fundedSpend 0 amount).txid.val.head? = some 60 ∧
    (fundedSpend 1 amount).txid.val.head? = some 33 ∧ (fundedSpend 2 amount).txid.val.head? = some 179 := by
  -- what is spent is not part of the wire form
  have hw (vout : UInt32) : (fundedSpend vout amount).txid = (signalingSpend vout 0).txid := rfl
  rw [hw, hw, hw]
  refine ⟨head?_txid_signalingSpend.1, head?_txid_signalingSpend.2.1, ?_⟩
  rw [Transaction.txid, doubleSha256, sha256_eq, sha256_eq]
  decide +kernel

set_option maxRecDepth 100000 in
/-- Two that arrive the other way round. -/
theorem offerAll_perm_fundedSpends :
    let a := fundedSpend 0 1000
    let b := fundedSpend 1 2000
    Independent [a, b] ∧ [b, a].Perm [a, b] ∧ ([a, b].map Transaction.rateKey).Nodup ∧
    (empty.offerAll [b, a]).1 = [.accepted, .accepted] ∧
    (empty.offerAll [b, a]).2.candidates = (empty.offerAll [a, b]).2.candidates ∧
    (empty.offerAll [b, a]).2.spent = (empty.offerAll [a, b]).2.spent ∧
    ∀ budget, (empty.offerAll [b, a]).2.select budget = (empty.offerAll [a, b]).2.select budget := by
  intro a b
  have ia : a.txid.val.head? = some 60 := (head?_txid_fundedSpend 1000).1
  have ib : b.txid.val.head? = some 33 := (head?_txid_fundedSpend 2000).2.1
  have hid : a.txid ≠ b.txid := fun h => by rw [h, ib] at ia; cases ia
  have hrate : a.rateKey ≠ b.rateKey := by decide +kernel
  have hclaims : ∀ o ∈ a.claims, o ∉ b.claims := by decide +kernel
  have independent : Independent [a, b] :=
    { nodup_txid := by simpa using hid
      disjoint_claims := by simpa using hclaims }
  have swapped : [b, a].Perm [a, b] := .swap a b []
  have rates : ([a, b].map Transaction.rateKey).Nodup := by simpa using hrate
  obtain ⟨hall, hc, hs, hsel⟩ := offerAll_perm independent swapped
  exact ⟨independent, swapped, rates, hall, hc, hs, hsel rates⟩

end Bitcoin.Mempool

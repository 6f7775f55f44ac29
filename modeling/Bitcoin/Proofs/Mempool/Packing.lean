import Bitcoin.Proofs.Mempool.Independence

/-!
# The order of selection, and what fits

Sorting leaves the candidates of each fee rate in their order of arrival
(`filter_sorted`), and together with falling rates that fixes the order
(`Ranks.eq`). A packing takes transactions in order and leaves one out only if
it does not fit beside those taken before it; one list does so
(`packs_iff_eq_pack`). The sum of weights that is kept on the way stays within
a word as long as the weights of all candidates do (`packWords?_eq`).
`select_serveAll` says all this of the pools that requests lead to.
-/

namespace Bitcoin

namespace Transaction

variable {txs txs' : List Transaction}

theorem totalWeight_append (txs txs' : List Transaction) :
    totalWeight (txs ++ txs') = totalWeight txs + totalWeight txs' := by
  induction txs with
  | nil => exact (Nat.zero_add _).symm
  | cons tx txs ih => rw [List.cons_append, totalWeight_cons, totalWeight_cons, ih, Nat.add_assoc]

theorem totalWeight_le_of_sublist (h : txs.Sublist txs') : totalWeight txs ≤ totalWeight txs' := by
  induction h with
  | slnil => exact Nat.le_refl _
  | cons tx _ ih =>
    rw [totalWeight_cons]
    exact Nat.le_trans ih (Nat.le_add_left _ _)
  | cons_cons tx _ ih =>
    rw [totalWeight_cons, totalWeight_cons]
    exact Nat.add_le_add_left ih _

theorem totalWeight_perm (h : txs.Perm txs') : totalWeight txs = totalWeight txs' := by
  induction h with
  | nil => rfl
  | cons tx _ ih => rw [totalWeight_cons, totalWeight_cons, ih]
  | swap s t txs => simp only [totalWeight_cons, Nat.add_left_comm]
  | trans _ _ ih ih' => exact ih.trans ih'

end Transaction

namespace Mempool

open Transaction (totalWeight totalWeight_cons totalWeight_append totalWeight_le_of_sublist totalWeight_perm)

variable {m : Mempool} {tx : Transaction} {txs chosen : List Transaction} {budget used : Nat}

/-! ## The order of selection -/

section Keys

variable {α : Type} {key : α → Int} {l l' : List α}

theorem mem_of_filter_key_eq (hf : ∀ k, (l.filter fun a => key a = k) = l'.filter fun a => key a = k) {a : α}
    (ha : a ∈ l) : a ∈ l' := by
  have hm : a ∈ l.filter fun b => key b = key a := List.mem_filter.2 ⟨ha, decide_eq_true rfl⟩
  rw [hf] at hm
  exact (List.mem_filter.1 hm).1

/-- Lists whose keys fall are equal if they hold the same of each key in the
same order, by induction on the first. -/
theorem eq_of_filter_key_eq (h : l.Pairwise fun a b => key b ≤ key a) (h' : l'.Pairwise fun a b => key b ≤ key a)
    (hf : ∀ k, (l.filter fun a => key a = k) = l'.filter fun a => key a = k) : l = l' := by
  induction l generalizing l' with
  | nil =>
    refine (List.eq_nil_iff_forall_not_mem.2 fun a ha => ?_).symm
    cases mem_of_filter_key_eq (fun k => (hf k).symm) ha
  | cons a l ih =>
    have hb := mem_of_filter_key_eq hf List.mem_cons_self
    obtain ⟨b, l', rfl⟩ := List.exists_cons_of_ne_nil (List.ne_nil_of_mem hb)
    obtain ⟨ha, hl⟩ := List.pairwise_cons.1 h
    obtain ⟨hb, hl'⟩ := List.pairwise_cons.1 h'
    -- each head is in the other list, so none has the lesser key
    have hab : key a ≤ key b := by
      obtain rfl | hm := List.mem_cons.1 (mem_of_filter_key_eq hf List.mem_cons_self)
      · exact Int.le_refl _
      · exact hb a hm
    have hba : key b ≤ key a := by
      obtain rfl | hm := List.mem_cons.1 (mem_of_filter_key_eq (fun k => (hf k).symm) List.mem_cons_self)
      · exact Int.le_refl _
      · exact ha b hm
    have hkey : key a = key b := Int.le_antisymm hab hba
    have heads := hf (key b)
    simp only [List.filter_cons, hkey, decide_true, ↓reduceIte] at heads
    obtain ⟨rfl, -⟩ := List.cons.inj heads
    congr 1
    refine ih hl hl' fun k => ?_
    have tails := hf k
    simp only [List.filter_cons] at tails
    split at tails
    · exact (List.cons.inj tails).2
    · exact tails

end Keys

/-- Transactions in the order of selection: by falling fee rate, and for each
rate as they stood. -/
structure Ranks (txs ranked : List Transaction) : Prop where
  pairwise_rateKey : ranked.Pairwise fun s t => t.rateKey ≤ s.rateKey
  filter_rateKey : ∀ k, (ranked.filter fun tx => tx.rateKey = k) = txs.filter fun tx => tx.rateKey = k

/-- There is one such order. -/
theorem Ranks.eq {a b : List Transaction} (ha : Ranks txs a) (hb : Ranks txs b) : a = b :=
  eq_of_filter_key_eq ha.pairwise_rateKey hb.pairwise_rateKey fun k =>
    (ha.filter_rateKey k).trans (hb.filter_rateKey k).symm

/-- Candidates of one rate keep the order of arrival. -/
theorem filter_sorted (m : Mempool) (k : Int) :
    (m.sorted.filter fun tx => tx.rateKey = k) = m.toList.filter fun tx => tx.rateKey = k := by
  have equal : (m.toList.filter fun tx => tx.rateKey = k).Pairwise
      fun a b => decide (b.rateKey ≤ a.rateKey) = true := by
    refine List.pairwise_of_forall_mem_list fun a ha b hb => decide_eq_true (Int.le_of_eq ?_)
    rw [of_decide_eq_true (List.mem_filter.1 ha).2, of_decide_eq_true (List.mem_filter.1 hb).2]
  -- what is sorted already is left in its order by the sort, and the two lists are of one length
  have hs := (List.sublist_mergeSort (falling_trans _) (falling_total _) equal List.filter_sublist).filter
    fun tx => decide (tx.rateKey = k)
  rw [List.filter_filter, ← sorted_eq_mergeSort] at hs
  simp only [Bool.and_self] at hs
  exact (hs.eq_of_length ((m.sorted_perm.filter _).length_eq.symm)).symm

theorem ranks_sorted (m : Mempool) : Ranks m.toList m.sorted := ⟨m.pairwise_sorted, m.filter_sorted⟩

/-! ## Packing -/

/-- What is in a part of a list without repetition is that part. -/
theorem filter_mem_of_sublist {α : Type} [DecidableEq α] {part l : List α} (h : part.Sublist l) (hn : l.Nodup) :
    (l.filter fun a => a ∈ part) = part := by
  induction h with
  | slnil => rfl
  | cons a h ih =>
    obtain ⟨ha, hl⟩ := List.nodup_cons.1 hn
    rw [List.filter_cons_of_neg (by simpa using fun hm => ha (h.subset hm)), ih hl]
  | @cons_cons part l a h ih =>
    obtain ⟨ha, hl⟩ := List.nodup_cons.1 hn
    have hf : (l.filter fun b => b ∈ a :: part) = l.filter fun b => b ∈ part :=
      List.filter_congr fun b hb => by simp [show b ≠ a from fun he => ha (he ▸ hb)]
    rw [List.filter_cons_of_pos (by simp), hf, ih hl]

/-- The second part is packed as if the first had left a sum. -/
theorem pack_append (budget used : Nat) (before after : List Transaction) :
    pack budget used (before ++ after) =
      pack budget used before ++ pack budget (used + totalWeight (pack budget used before)) after := by
  fun_induction pack budget used before with
  | case1 used => rfl
  | case2 used tx txs hlt ih => rw [List.cons_append, pack, if_pos hlt, ih]
  | case3 used tx txs hlt ih =>
    rw [List.cons_append, pack, if_neg hlt, ih, totalWeight_cons, Nat.add_assoc, List.cons_append]

/-- Transactions taken in their order within a budget, such that each one left
out would have passed the budget with those taken before it. -/
structure Packs (budget : Nat) (txs chosen : List Transaction) : Prop where
  sublist : chosen.Sublist txs
  totalWeight_le : totalWeight chosen ≤ budget
  lt_of_left_out : ∀ before tx after, txs = before ++ tx :: after → tx ∉ chosen →
    budget < tx.weight + totalWeight (before.filter fun t => t ∈ chosen)

/-- What is taken of a first part does not depend on what comes after it. -/
theorem filter_mem_pack {before after : List Transaction} (hn : (before ++ after).Nodup) :
    (before.filter fun t => t ∈ pack budget 0 (before ++ after)) = pack budget 0 before := by
  obtain ⟨hb, -, hd⟩ := List.nodup_append.1 hn
  have hf : (before.filter fun t => t ∈ pack budget 0 (before ++ after)) =
      before.filter fun t => t ∈ pack budget 0 before := by
    refine List.filter_congr fun t ht => ?_
    have ha : t ∉ pack budget (0 + totalWeight (pack budget 0 before)) after := fun hm =>
      hd t ht t ((pack_sublist _ _ _).subset hm) rfl
    simp only [pack_append, List.mem_append, ha, or_false]
  rw [hf, filter_mem_of_sublist (pack_sublist budget 0 before) hb]

theorem packs_pack (budget : Nat) (hn : txs.Nodup) : Packs budget txs (pack budget 0 txs) where
  sublist := pack_sublist budget 0 txs
  totalWeight_le := by
    have := totalWeight_pack_le (Nat.zero_le budget) txs
    rwa [Nat.zero_add] at this
  lt_of_left_out before tx after he ho := by
    subst he
    rw [filter_mem_pack hn, Nat.add_comm]
    refine Nat.lt_of_not_le fun hle => ho ?_
    rw [pack_append, pack, Nat.zero_add, if_neg (Nat.not_lt.2 hle)]
    exact List.mem_append_right _ List.mem_cons_self

namespace Packs

/-- What is chosen from some place on is packed on top of what is chosen before,
by induction on the rest. -/
theorem filter_eq_pack (h : Packs budget txs chosen) (hn : txs.Nodup) (before rest : List Transaction)
    (he : txs = before ++ rest) :
    (rest.filter fun t => t ∈ chosen) = pack budget (totalWeight (before.filter fun t => t ∈ chosen)) rest := by
  induction rest generalizing before with
  | nil => rfl
  | cons tx rest ih =>
    have step := ih (before ++ [tx]) (by rw [he, List.append_assoc, List.singleton_append])
    simp only [List.filter_append, totalWeight_append, List.filter_cons, List.filter_nil] at step ⊢
    by_cases hc : tx ∈ chosen
    · have fits : ¬budget < totalWeight (before.filter fun t => t ∈ chosen) + tx.weight := by
        have hs := congrArg totalWeight (filter_mem_of_sublist h.sublist hn)
        simp only [he, List.filter_append, totalWeight_append, List.filter_cons, hc, decide_true, ↓reduceIte,
          totalWeight_cons] at hs
        have := h.totalWeight_le
        omega
      simp only [hc, decide_true, ↓reduceIte] at step ⊢
      rw [pack, if_neg fits, step, totalWeight_cons]
      rfl
    · have full := h.lt_of_left_out before tx rest he hc
      rw [Nat.add_comm] at full
      simp only [hc, decide_false, Bool.false_eq_true, ↓reduceIte] at step ⊢
      rw [pack, if_pos full, step]
      rfl

/-- There is one packing. -/
theorem eq_pack (h : Packs budget txs chosen) (hn : txs.Nodup) : chosen = pack budget 0 txs := by
  have := h.filter_eq_pack hn [] txs rfl
  rwa [filter_mem_of_sublist h.sublist hn] at this

/-- Nothing left out fits beside all that is chosen. -/
theorem lt_of_not_mem (h : Packs budget txs chosen) (hn : txs.Nodup) (ht : tx ∈ txs) (hc : tx ∉ chosen) :
    budget < tx.weight + totalWeight chosen := by
  obtain ⟨before, after, he⟩ := List.append_of_mem ht
  have hs : (before.filter fun t => t ∈ chosen).Sublist chosen := by
    have := (List.sublist_append_left before (tx :: after)).filter fun t => decide (t ∈ chosen)
    rwa [← he, filter_mem_of_sublist h.sublist hn] at this
  have := h.lt_of_left_out before tx after he hc
  have := totalWeight_le_of_sublist hs
  omega

/-- If all fit, all are chosen. -/
theorem eq_of_totalWeight_le (h : Packs budget txs chosen) (hn : txs.Nodup) (hw : totalWeight txs ≤ budget) :
    chosen = txs := by
  have hall : ∀ tx ∈ txs, tx ∈ chosen := by
    intro tx ht
    refine Classical.byContradiction fun hc => ?_
    obtain ⟨before, after, he⟩ := List.append_of_mem ht
    have hlt := h.lt_of_left_out before tx after he hc
    have := totalWeight_le_of_sublist (List.filter_sublist (p := fun t => decide (t ∈ chosen)) (l := before))
    rw [he, totalWeight_append, totalWeight_cons] at hw
    omega
  rw [← filter_mem_of_sublist h.sublist hn, List.filter_eq_self]
  exact fun tx ht => decide_eq_true (hall tx ht)

end Packs

theorem packs_iff_eq_pack (hn : txs.Nodup) : Packs budget txs chosen ↔ chosen = pack budget 0 txs :=
  ⟨fun h => h.eq_pack hn, fun h => h ▸ packs_pack budget hn⟩

/-! ## The sum of weights as a word -/

/-- The packing with its sum kept in a word; there is no result if the sum
leaves the word. -/
def packWords? (budget : UInt64) : UInt64 → List Transaction → Option (List Transaction)
  | _, [] => some []
  | used, tx :: txs =>
    if UInt64.size ≤ used.toNat + tx.weight then none
    else if budget < used + UInt64.ofNat tx.weight then packWords? budget used txs
    else (packWords? budget (used + UInt64.ofNat tx.weight) txs).map (tx :: ·)

theorem toNat_add_ofNat {used : UInt64} {weight : Nat} (h : used.toNat + weight < UInt64.size) :
    (used + UInt64.ofNat weight).toNat = used.toNat + weight := by
  have h : used.toNat + weight < 2 ^ 64 := h
  rw [UInt64.toNat_add, UInt64.toNat_ofNat']
  omega

/-- A sum that all weights leave in the word never leaves it on the way. -/
theorem packWords?_eq {budget used : UInt64} (h : used.toNat + totalWeight txs < UInt64.size) :
    packWords? budget used txs = some (pack budget.toNat used.toNat txs) := by
  induction txs generalizing used with
  | nil => rfl
  | cons tx txs ih =>
    rw [totalWeight_cons] at h
    have hs : (used + UInt64.ofNat tx.weight).toNat = used.toNat + tx.weight := toNat_add_ofNat (by omega)
    rw [packWords?, pack, if_neg (by omega)]
    simp only [UInt64.lt_iff_toNat_lt, hs]
    split
    · exact ih (by omega)
    · rw [ih (by omega), hs, Option.map_some]

/-! ## Pools that requests lead to -/

theorem Consistent.mem_sorted_iff (h : m.Consistent) : tx ∈ m.sorted ↔ m.get? tx.txid = some tx := by
  rw [m.sorted_perm.mem_iff]
  refine ⟨h.get?_of_mem_toList, fun hg => List.mem_filterMap.2 ⟨tx.txid, ?_, hg⟩⟩
  rw [h.mem_arrival_iff, contains_eq, hg]
  rfl

theorem Consistent.nodup_sorted (h : m.Consistent) : m.sorted.Nodup := by
  have hn : (m.toList.map Transaction.txid).Nodup := by
    rw [h.map_txid_toList]
    exact h.nodup_arrival
  refine m.sorted_perm.nodup_iff.2 (List.nodup_iff_pairwise_ne.2 ?_)
  exact (List.pairwise_map.1 (List.nodup_iff_pairwise_ne.1 hn)).imp fun hne he => hne (congrArg _ he)

/-- The candidates of a pool that requests lead to are ranked by falling fee
rate, those of one rate as they arrived, and in this order packed into the
budget, with a sum of weights that stays within a word; both are determined by
that. What is left out does not fit beside what is chosen, and if all fit, all
are chosen. -/
theorem select_serveAll (requests : List Request) (budget : UInt64)
    (hw : totalWeight (serveAll requests).toList < UInt64.size) :
    let m := serveAll requests
    let chosen := m.select budget.toNat
    (∀ tx, tx ∈ m.sorted ↔ m.get? tx.txid = some tx) ∧
    m.toList.map Transaction.txid = m.arrival ∧ m.sorted.Perm m.toList ∧
    (∀ ranked, Ranks m.toList ranked ↔ ranked = m.sorted) ∧
    (∀ packed, Packs budget.toNat m.sorted packed ↔ packed = chosen) ∧
    packWords? budget 0 m.sorted = some chosen ∧
    (∀ tx ∈ m.sorted, tx ∉ chosen → budget.toNat < tx.weight + totalWeight chosen) ∧
    (totalWeight m.sorted ≤ budget.toNat → chosen = m.sorted) := by
  intro m chosen
  have h : m.Consistent := consistent_serveAll requests
  have hn : m.sorted.Nodup := h.nodup_sorted
  have hp : Packs budget.toNat m.sorted chosen := packs_pack budget.toNat hn
  refine ⟨fun tx => h.mem_sorted_iff, h.map_txid_toList, m.sorted_perm, fun ranked => ?_,
    fun packed => packs_iff_eq_pack hn, ?_, fun tx ht hc => hp.lt_of_not_mem hn ht hc, hp.eq_of_totalWeight_le hn⟩
  · exact ⟨fun hr => hr.eq m.ranks_sorted, fun he => he ▸ m.ranks_sorted⟩
  · rw [← totalWeight_perm m.sorted_perm] at hw
    exact packWords?_eq (by rwa [UInt64.toNat_zero, Nat.zero_add])

/-- Offers alone are served one after the other. -/
theorem serveAll_map_offer (txs : List Transaction) : serveAll (txs.map .offer) = (empty.offerAll txs).2 := by
  have general (m : Mempool) : (txs.map Request.offer).foldl serve m = (m.offerAll txs).2 := by
    induction txs generalizing m with
    | nil => rfl
    | cons tx txs ih => exact ih (m.offer tx).2
  exact general empty

set_option maxRecDepth 100000 in
/-- The second to arrive pays most, the other two the same, and the budget is
that of two. -/
theorem select_serveAll_fundedSpends :
    let a := fundedSpend 0 1000
    let b := fundedSpend 1 2000
    let c := fundedSpend 2 1000
    let m := serveAll [.offer a, .offer b, .offer c]
    totalWeight m.toList < UInt64.size ∧ m.sorted = [b, a, c] ∧ m.select 500 = [b, a] ∧
    packWords? 500 0 [b, a, c] = some [b, a] ∧ 500 < c.weight + totalWeight [b, a] := by
  intro a b c m
  have ia : a.txid.val.head? = some 60 := (head?_txid_fundedSpend 1000).1
  have ib : b.txid.val.head? = some 33 := (head?_txid_fundedSpend 2000).2.1
  have ic : c.txid.val.head? = some 179 := (head?_txid_fundedSpend 1000).2.2
  have hab : a.txid ≠ b.txid := fun h => by rw [h, ib] at ia; cases ia
  have hac : a.txid ≠ c.txid := fun h => by rw [h, ic] at ia; cases ia
  have hbc : b.txid ≠ c.txid := fun h => by rw [h, ic] at ib; cases ib
  have independent : Independent [a, b, c] :=
    { nodup_txid := by simp [hab, hac, hbc]
      disjoint_claims := by decide +kernel }
  have toList : m.toList = [a, b, c] := by
    rw [show m = _ from serveAll_map_offer [a, b, c], toList_offerAll independent]
  have weights : a.weight = 204 ∧ b.weight = 204 ∧ c.weight = 204 := by decide +kernel
  have fits : totalWeight m.toList < UInt64.size := by
    rw [toList]
    decide +kernel
  obtain ⟨equal, lower⟩ : a.rateKey = c.rateKey ∧ a.rateKey < b.rateKey := by decide +kernel
  clear_value a b c
  have ranks : Ranks m.toList [b, a, c] := by
    rw [toList]
    constructor
    · simp [Int.le_of_lt lower, show c.rateKey ≤ b.rateKey by omega, Int.le_of_eq equal.symm]
    · intro k
      by_cases hb : b.rateKey = k
      · simp [hb, show ¬a.rateKey = k by omega, show ¬c.rateKey = k by omega]
      · simp [List.filter_cons, hb]
  obtain ⟨-, -, -, ranked, -, words, left, -⟩ := select_serveAll [.offer a, .offer b, .offer c] 500 fits
  have sorted : m.sorted = [b, a, c] := ((ranked _).1 ranks).symm
  have chosen : m.select 500 = [b, a] := by
    rw [select, sorted]
    simp [pack, weights]
  rw [sorted] at words left
  change packWords? 500 0 [b, a, c] = some (m.select 500) at words
  change ∀ tx ∈ [b, a, c], tx ∉ m.select 500 → 500 < tx.weight + totalWeight (m.select 500) at left
  rw [chosen] at words left
  have out : c ∉ [b, a] := by
    simp only [List.mem_cons, List.not_mem_nil, or_false, not_or]
    exact ⟨fun h => hbc (h ▸ rfl), fun h => hac (h ▸ rfl)⟩
  exact ⟨fits, sorted, chosen, words, left c (by simp) out⟩

end Mempool

end Bitcoin

import Bitcoin.Proofs.Mempool.Independence

/-!
# What becomes of an offer

The conflicts of a transaction are found through the spenders of what it claims.
In a consistent pool these are the candidates that claim one of its outpoints
too, in the order in which its inputs first meet them (`metBy_conflicts`), and
that fixes the list (`MetBy.eq`). An offer is refused and changes nothing, or
the conflicts leave, all others stay in their order, and the newcomer is last
(`takesIn_replace`). `offer_serveAll` says which of these it is.

A transaction is accepted exactly if it is new and claims nothing that is spent
(`offer_eq_accepted_iff`), and its insertion then only adds to the pool. Its
removal takes away the candidate and the last arrival; who spends what follows
from the candidates, so no claim of another candidate is touched, whichever of
its outpoints the removed one names (`Consistent.erase_insert`).
-/

namespace Bitcoin.Mempool

variable {m : Mempool} {tx : Transaction} {txid : Hash256} {found : List Hash256}

/-! ## Whom the inputs meet -/

/-- A candidate claims an outpoint that a transaction claims. -/
def Shares (m : Mempool) (tx : Transaction) (txid : Hash256) : Prop :=
  ∃ t, m.get? txid = some t ∧ ∃ o ∈ tx.claims, o ∈ t.claims

/-- Whether an input, unless it is a coinbase input, holds an outpoint that the
candidate with an identifier claims. -/
def meets (m : Mempool) (txid : Hash256) (i : Input) : Bool :=
  !i.isCoinbase && (m.get? txid).any fun t => t.claims.contains i.outpoint

theorem meets_iff {i : Input} :
    m.meets txid i = true ↔ i.isCoinbase = false ∧ ∃ t, m.get? txid = some t ∧ i.outpoint ∈ t.claims := by
  simp [meets, Option.any_eq_true]

theorem mem_claims {o : OutPoint} : o ∈ tx.claims ↔ ∃ i ∈ tx.inputs, i.isCoinbase = false ∧ i.outpoint = o := by
  simp [Transaction.claims, and_assoc]

theorem shares_iff : m.Shares tx txid ↔ ∃ i ∈ tx.inputs, m.meets txid i = true := by
  simp only [Shares, mem_claims, meets_iff]
  constructor
  · rintro ⟨t, ht, o, ⟨i, hi, hc, rfl⟩, ho⟩
    exact ⟨i, hi, hc, t, ht, ho⟩
  · rintro ⟨i, hi, hc, t, ht, ho⟩
    exact ⟨t, ht, i.outpoint, ⟨i, hi, hc, rfl⟩, ho⟩

/-- The candidates that inputs meet, in the order in which they first meet them,
so that none is listed twice. -/
structure MetBy (m : Mempool) (inputs : List Input) (found : List Hash256) : Prop where
  mem_iff : ∀ txid, txid ∈ found ↔ ∃ i ∈ inputs, m.meets txid i = true
  pairwise_findIdx : found.Pairwise fun a b => inputs.findIdx (m.meets a) < inputs.findIdx (m.meets b)

namespace MetBy

variable {inputs : List Input}

theorem nil (m : Mempool) : m.MetBy [] [] := ⟨by simp, .nil⟩

theorem nodup (h : m.MetBy inputs found) : found.Nodup := by
  refine List.nodup_iff_pairwise_ne.2 (h.pairwise_findIdx.imp ?_)
  rintro a b hlt rfl
  exact Nat.lt_irrefl _ hlt

/-- There is one such list. -/
theorem eq {found' : List Hash256} (h : m.MetBy inputs found) (h' : m.MetBy inputs found') : found = found' :=
  have hp : found.Perm found' :=
    (List.perm_ext_iff_of_nodup h.nodup h'.nodup).2 fun a => (h.mem_iff a).trans (h'.mem_iff a).symm
  hp.eq_of_pairwise (fun _ _ _ _ hlt hgt => absurd hgt (Nat.lt_asymm hlt)) h.pairwise_findIdx h'.pairwise_findIdx

/-- Inputs further on do not change where a candidate is first met. -/
theorem findIdx_append (h : m.MetBy inputs found) (more : List Input) (hm : txid ∈ found) :
    (inputs ++ more).findIdx (m.meets txid) = inputs.findIdx (m.meets txid) := by
  rw [List.findIdx_append, if_pos (List.findIdx_lt_length.2 ((h.mem_iff txid).1 hm))]

variable {i : Input}

/-- An input that meets nobody new. -/
theorem append_known (h : m.MetBy inputs found) (hi : ∀ txid, m.meets txid i = true → txid ∈ found) :
    m.MetBy (inputs ++ [i]) found where
  mem_iff txid := by
    simp only [List.mem_append, List.mem_singleton, or_and_right, exists_or, exists_eq_left, ← h.mem_iff]
    exact (or_iff_left_of_imp (hi txid)).symm
  pairwise_findIdx := h.pairwise_findIdx.imp_of_mem fun ha hb hlt => by
    rwa [h.findIdx_append _ ha, h.findIdx_append _ hb]

/-- An input that meets a candidate which none before has met. -/
theorem append_new (h : m.MetBy inputs found) (hn : txid ∉ found) (hi : ∀ id, m.meets id i = true ↔ id = txid) :
    m.MetBy (inputs ++ [i]) (found ++ [txid]) where
  mem_iff id := by
    simp only [List.mem_append, List.mem_singleton, or_and_right, exists_or, exists_eq_left, ← h.mem_iff, hi]
  pairwise_findIdx := by
    refine List.pairwise_append.2 ⟨?_, List.pairwise_singleton _ _, ?_⟩
    · exact h.pairwise_findIdx.imp_of_mem fun ha hb hlt => by
        rwa [h.findIdx_append _ ha, h.findIdx_append _ hb]
    · intro a ha b hb
      cases List.mem_singleton.1 hb
      have ht : ¬inputs.findIdx (m.meets txid) < inputs.length := fun hlt =>
        hn ((h.mem_iff txid).2 (List.findIdx_lt_length.1 hlt))
      rw [h.findIdx_append _ ha, List.findIdx_append, if_neg ht]
      exact Nat.lt_of_lt_of_le (List.findIdx_lt_length.2 ((h.mem_iff a).1 ha)) (Nat.le_add_left _ _)

end MetBy

/-! ## The conflicts are whom the inputs meet -/

/-- The candidate that spends the outpoint of an input, unless this is a coinbase input. -/
def spenderOf? (m : Mempool) (i : Input) : Option Hash256 := if i.isCoinbase then none else m.spender? i.outpoint

theorem Consistent.spenderOf?_eq_some_iff (h : m.Consistent) {i : Input} :
    m.spenderOf? i = some txid ↔ m.meets txid i = true := by
  rw [meets_iff, ← h.spender?_eq_some_iff, spenderOf?]
  cases i.isCoinbase <;> simp

/-- The candidates found to conflict, when a further input is looked at. -/
def meetInput (m : Mempool) (found : List Hash256) (i : Input) : List Hash256 :=
  match m.spenderOf? i with
  | some txid => if txid ∈ found then found else found ++ [txid]
  | none => found

theorem conflicts_eq_foldl_inputs (m : Mempool) (tx : Transaction) :
    m.conflicts tx = tx.inputs.foldl m.meetInput [] := by
  rw [conflicts_eq, Transaction.claims, List.foldl_map, List.foldl_filter]
  congr 1
  funext found i
  unfold meetInput spenderOf? meet
  cases i.isCoinbase with
  | true => rfl
  | false => cases m.spender? i.outpoint <;> simp

theorem MetBy.meetInput {inputs : List Input} (hm : m.Consistent) (h : m.MetBy inputs found) (i : Input) :
    m.MetBy (inputs ++ [i]) (m.meetInput found i) := by
  have hs (id : Hash256) : m.meets id i = true ↔ m.spenderOf? i = some id := hm.spenderOf?_eq_some_iff.symm
  unfold Mempool.meetInput
  cases hi : m.spenderOf? i with
  | none =>
    refine h.append_known fun id hmi => ?_
    rw [hs, hi] at hmi
    cases hmi
  | some txid =>
    by_cases hf : txid ∈ found
    · simp only [hf, ↓reduceIte]
      refine h.append_known fun id hmi => ?_
      rw [hs, hi] at hmi
      cases hmi
      exact hf
    · simp only [hf, ↓reduceIte]
      refine h.append_new hf fun id => ?_
      rw [hs, hi, Option.some_inj, eq_comm]

theorem MetBy.foldl_meetInput (hm : m.Consistent) {inputs : List Input} (h : m.MetBy inputs found)
    (more : List Input) : m.MetBy (inputs ++ more) (more.foldl m.meetInput found) := by
  induction more generalizing inputs found with
  | nil => rwa [List.append_nil]
  | cons i more ih =>
    have := ih (h.meetInput hm i)
    rwa [List.append_assoc, List.singleton_append] at this

/-- The conflicts of a transaction are the candidates that its inputs meet. -/
theorem Consistent.metBy_conflicts (h : m.Consistent) (tx : Transaction) : m.MetBy tx.inputs (m.conflicts tx) := by
  rw [conflicts_eq_foldl_inputs]
  exact (MetBy.nil m).foldl_meetInput h tx.inputs

theorem Consistent.conflicts_eq_nil_iff (h : m.Consistent) : m.conflicts tx = [] ↔ ∀ txid, ¬m.Shares tx txid := by
  simp only [List.eq_nil_iff_forall_not_mem, (h.metBy_conflicts tx).mem_iff, shares_iff]

/-! ## What is left when the conflicts have gone -/

/-- The pool that takes a transaction in while others leave: all else stays as
and where it was, and the newcomer comes last. -/
structure TakesIn (m : Mempool) (tx : Transaction) (evicted : List Hash256) (m' : Mempool) : Prop where
  get?_eq : ∀ txid, m'.get? txid =
    if txid = tx.txid then some tx else if txid ∈ evicted then none else m.get? txid
  spender?_eq : ∀ o, m'.spender? o =
    if o ∈ tx.claims then some tx.txid else (m.spender? o).filter fun txid => txid ∉ evicted
  arrival_eq : m'.arrival = m.arrival.filter (fun txid => txid ∉ evicted) ++ [tx.txid]

theorem Consistent.spender?_foldl_erase (h : m.Consistent) (txids : List Hash256) (o : OutPoint) :
    (txids.foldl Mempool.erase m).spender? o = (m.spender? o).filter fun txid => txid ∉ txids := by
  induction txids generalizing m with
  | nil =>
    rw [List.foldl_nil]
    cases m.spender? o <;> rfl
  | cons id ids ih =>
    rw [List.foldl_cons, ih (h.erase id), h.spender?_erase]
    cases m.spender? o with
    | none => rfl
    | some other => by_cases he : other = id <;> simp [he, Option.filter]

theorem Consistent.arrival_foldl_erase (h : m.Consistent) (txids : List Hash256) :
    (txids.foldl Mempool.erase m).arrival = m.arrival.filter fun txid => txid ∉ txids := by
  induction txids generalizing m with
  | nil => exact (List.filter_eq_self.2 fun _ _ => rfl).symm
  | cons id ids ih =>
    rw [List.foldl_cons, ih (h.erase id), h.arrival_erase, List.filter_filter]
    congr 1
    funext a
    by_cases he : a = id <;> simp [he]

theorem Consistent.takesIn_replace (h : m.Consistent) (tx : Transaction) (evicted : List Hash256) :
    m.TakesIn tx evicted ((evicted.foldl Mempool.erase m).insert tx) where
  get?_eq txid := by
    rw [get?_insert, get?_foldl_erase]
    simp only [eq_comm (a := txid)]
  spender?_eq o := by rw [spender?_insert, h.spender?_foldl_erase]
  arrival_eq := by rw [arrival_insert, h.arrival_foldl_erase]

/-! ## Offers -/

/-- A transaction cannot be taken in: it is a candidate, or it shares a claim
with one and none of its inputs allows replacement. -/
def Refuses (m : Mempool) (tx : Transaction) : Prop :=
  m.contains tx.txid = true ∨ (∃ txid, m.Shares tx txid) ∧ ¬∃ i ∈ tx.inputs, i.sequence < 0xfffffffe

/-- Why it cannot. -/
def refusal (m : Mempool) (tx : Transaction) : Refusal :=
  if m.contains tx.txid then .present tx.txid else .doubleSpend tx.txid

theorem signalsReplacement_iff : tx.signalsReplacement = true ↔ ∃ i ∈ tx.inputs, i.sequence < 0xfffffffe := by
  simp [Transaction.signalsReplacement]

theorem Consistent.offer_of_refuses (h : m.Consistent) (hr : m.Refuses tx) :
    m.offer tx = (.rejected (m.refusal tx), m) := by
  rw [offer_eq, ← contains_eq, refusal]
  by_cases hc : m.contains tx.txid = true
  · rw [if_pos hc, if_pos hc]
  · obtain ⟨⟨txid, hs⟩, hn⟩ := hr.resolve_left hc
    have hf : m.conflicts tx ≠ [] := fun he => h.conflicts_eq_nil_iff.1 he txid hs
    rw [← signalsReplacement_iff, Bool.not_eq_true] at hn
    rw [if_neg hc, if_neg hc, if_pos ⟨hf, hn⟩]

theorem Consistent.offer_of_not_refuses (h : m.Consistent) (hr : ¬m.Refuses tx) :
    m.offer tx = (if m.conflicts tx = [] then .accepted else .replaced (m.conflicts tx),
      ((m.conflicts tx).foldl Mempool.erase m).insert tx) := by
  obtain ⟨hc, hn⟩ := not_or.1 hr
  have hf : ¬(m.conflicts tx ≠ [] ∧ tx.signalsReplacement = false) := by
    rintro ⟨hf, hs⟩
    refine hn ⟨?_, by rw [← signalsReplacement_iff, hs]; exact Bool.false_ne_true⟩
    exact Classical.byContradiction fun he => hf (h.conflicts_eq_nil_iff.2 (not_exists.1 he))
  rw [offer_eq, ← contains_eq, if_neg hc, if_neg hf]

/-- A pool that requests lead to refuses an offer, and stays as it is, exactly if
the transaction is a candidate or shares a claim without allowing replacement;
accepts it exactly if it is new and shares no claim; and otherwise replaces
those that its inputs meet. What is taken in comes last, what shares a claim
with it leaves, and all else is kept. -/
theorem offer_serveAll (requests : List Request) (tx : Transaction) :
    let m := serveAll requests
    (∀ why, (m.offer tx).1 = .rejected why ↔ m.Refuses tx ∧ why = m.refusal tx) ∧
    ((m.offer tx).1 = .accepted ↔ ¬m.Refuses tx ∧ ¬∃ txid, m.Shares tx txid) ∧
    (∀ found, (m.offer tx).1 = .replaced found ↔
      ¬m.Refuses tx ∧ (∃ txid, m.Shares tx txid) ∧ m.MetBy tx.inputs found) ∧
    (m.Refuses tx → (m.offer tx).2 = m) ∧
    (¬m.Refuses tx → ∃ evicted, (∀ txid, txid ∈ evicted ↔ m.Shares tx txid) ∧
      m.TakesIn tx evicted (m.offer tx).2) := by
  intro m
  have h : m.Consistent := consistent_serveAll requests
  by_cases hr : m.Refuses tx
  · rw [h.offer_of_refuses hr]
    simp [hr, eq_comm]
  · rw [h.offer_of_not_refuses hr]
    have hm : m.MetBy tx.inputs (m.conflicts tx) := h.metBy_conflicts tx
    have hs : (∃ txid, m.Shares tx txid) ↔ m.conflicts tx ≠ [] := by
      rw [Ne, h.conflicts_eq_nil_iff, Classical.not_forall_not]
    have ht := h.takesIn_replace tx (m.conflicts tx)
    refine ⟨fun why => ?_, ?_, fun found => ?_, fun hr' => absurd hr' hr, fun _ => ⟨m.conflicts tx, fun txid => ?_, ht⟩⟩
    · simp only [hr, false_and, iff_false]
      split <;> exact nofun
    · simp only [hr, hs, not_false_eq_true, true_and, Classical.not_not]
      by_cases hn : m.conflicts tx = [] <;> simp [hn]
    · simp only [hr, hs, not_false_eq_true, true_and]
      constructor
      · intro he
        split at he
        · cases he
        · cases he
          exact ⟨‹_›, hm⟩
      · rintro ⟨hn, hf⟩
        rw [if_neg hn, hf.eq hm]
    · rw [hm.mem_iff, shares_iff]

/-- Spends one output twice and allows replacement. -/
def doublingSpend : Transaction where
  version := 2
  locktime := 1
  inputs := [.make ⟨FixedBytes.zero 32, 0⟩ none [] [] 0, .make ⟨FixedBytes.zero 32, 0⟩ none [] [] 0]
  outputs := []

set_option maxRecDepth 100000 in
/-- The candidate that both inputs meet is listed once, and leaves. -/
theorem offer_serveAll_doublingSpend :
    let a := signalingSpend 0 0
    let m := serveAll [.offer a]
    (¬m.Refuses doublingSpend ∧ m.Shares doublingSpend a.txid) ∧
    (m.offer doublingSpend).1 = .replaced [a.txid] ∧
    (m.offer doublingSpend).2.get? a.txid = none ∧
    (m.offer doublingSpend).2.arrival = [doublingSpend.txid] := by
  intro a m
  -- the first bytes tell the identifiers apart
  have ia : a.txid.val.head? = some 60 := head?_txid_signalingSpend.1
  have id : doublingSpend.txid.val.head? = some 39 := by
    rw [Transaction.txid, doubleSha256, sha256_eq, sha256_eq]
    decide +kernel
  have hne : a.txid ≠ doublingSpend.txid := fun h => by rw [h, id] at ia; cases ia
  have ha : a.claims = [⟨FixedBytes.zero 32, 0⟩] := by decide
  have hm : m = empty.insert a := by
    show (empty.offer a).2 = _
    simp [offer_eq, conflicts_eq, ha, meet]
  have hg (txid : Hash256) : m.get? txid = if a.txid = txid then some a else none := by
    rw [hm, get?_insert, get?_empty]
  have hmeets : ∀ i ∈ doublingSpend.inputs, ∀ txid, m.meets txid i = true ↔ txid = a.txid := by
    intro i hi txid
    have hc : i.isCoinbase = false ∧ i.outpoint ∈ a.claims := by
      revert i
      decide
    rw [meets_iff, hg]
    by_cases he : a.txid = txid
    · simp [he, hc, eq_comm]
    · simp [he, Ne.symm he]
  have met : m.MetBy doublingSpend.inputs [a.txid] :=
    { mem_iff := fun txid => by
        rw [List.mem_singleton]
        constructor
        · exact fun h => ⟨_, List.mem_cons_self, (hmeets _ List.mem_cons_self txid).2 h⟩
        · rintro ⟨i, hi, h⟩
          exact (hmeets i hi txid).1 h
      pairwise_findIdx := List.pairwise_singleton _ _ }
  have shares : m.Shares doublingSpend a.txid := shares_iff.2 ((met.mem_iff _).1 List.mem_cons_self)
  have refused : ¬m.Refuses doublingSpend := by
    rintro (hc | ⟨-, hs⟩)
    · rw [contains_eq, hg, if_neg hne] at hc
      cases hc
    · exact hs (by decide)
  obtain ⟨-, -, replaced, -, taken⟩ := offer_serveAll [.offer a] doublingSpend
  obtain ⟨evicted, hev, htk⟩ := taken refused
  have left : a.txid ∈ evicted := (hev a.txid).2 shares
  refine ⟨⟨refused, shares⟩, (replaced _).2 ⟨refused, ⟨_, shares⟩, met⟩, ?_, ?_⟩
  · rw [htk.get?_eq, if_neg hne, if_pos left]
  · have ho : (serveAll [.offer a]).arrival = [a.txid] := congrArg arrival hm
    rw [htk.arrival_eq, ho]
    simp [left]

/-! ## Removal undoes acceptance -/

variable {m' : Mempool}

/-- A consistent pool is known from its candidates and their order. -/
theorem Consistent.eq (h : m.Consistent) (h' : m'.Consistent) (hc : m.candidates = m'.candidates)
    (ha : m.arrival = m'.arrival) : m = m' := by
  have hs := h.spent_eq h' hc
  cases m
  cases m'
  simp_all only

theorem offer_eq_accepted_iff : m.offer tx = (.accepted, m') ↔ m.Admits tx ∧ m' = m.insert tx := by
  constructor
  · intro h
    rw [offer_eq] at h
    split at h
    · cases h
    rename_i hn
    split at h
    · cases h
    split at h
    · rename_i hc
      have hf : ∀ o ∈ tx.claims, m.spender? o = none := by
        refine fun o ho => Option.eq_none_iff_forall_ne_some.2 fun id hs => ?_
        have hm : id ∈ m.conflicts tx := mem_conflicts.2 ⟨o, ho, hs⟩
        rw [hc] at hm
        cases hm
      rw [hc] at h
      cases h
      exact ⟨⟨by simpa using hn, hf⟩, rfl⟩
    · cases h
  · rintro ⟨ha, rfl⟩
    exact ha.offer_eq

/-- What was taken in without replacing anything leaves as if it had never been there. -/
theorem Consistent.erase_insert (h : m.Consistent) (ha : m.Admits tx) : (m.insert tx).erase tx.txid = m := by
  have hi : (m.insert tx).Consistent := h.insert ha.get?_eq_none ha.spender?_eq_none
  refine (hi.erase tx.txid).eq h ?_ ?_
  · refine Std.ExtHashMap.ext_getElem? fun id => ?_
    show ((m.insert tx).erase tx.txid).get? id = m.get? id
    rw [get?_erase, get?_insert]
    by_cases he : tx.txid = id
    · rw [if_pos he, ← he, ha.get?_eq_none]
    · rw [if_neg he, if_neg he]
  · rw [hi.arrival_erase, arrival_insert, List.filter_append, h.filter_arrival_eq_self ha.get?_eq_none]
    simp

/-- In a pool that requests lead to, a transaction that is accepted is given back
when it is removed, and the pool is then what it was before; the removal of
anything but a candidate gives nothing back and changes nothing. -/
theorem remove_serveAll (requests : List Request) (tx : Transaction) :
    let m := serveAll requests
    (∀ m', m.offer tx = (.accepted, m') → m'.remove tx.txid = (some tx, m)) ∧
    ∀ txid, m.contains txid = false → m.remove txid = (none, m) := by
  intro m
  have h : m.Consistent := consistent_serveAll requests
  refine ⟨fun m' ho => ?_, fun txid hn => ?_⟩
  · obtain ⟨ha, rfl⟩ := offer_eq_accepted_iff.1 ho
    rw [remove, h.erase_insert ha, get?_insert, if_pos rfl]
  · have hg : m.get? txid = none := by
      rw [contains_eq] at hn
      simpa using hn
    rw [remove, erase_eq_self hg, hg]

/-- Spends one output twice, and names that of `signalingSpend 0` as a coinbase
input would. -/
def overlappingSpend : Transaction where
  version := 2
  locktime := 2
  inputs := [.make ⟨FixedBytes.zero 32, 1⟩ none [] [] 0, .make ⟨FixedBytes.zero 32, 1⟩ none [] [] 0,
    { Input.make ⟨FixedBytes.zero 32, 0⟩ none [] [] 0 with isCoinbase := true }]
  outputs := []

set_option maxRecDepth 100000 in
theorem remove_serveAll_overlappingSpend :
    let a := signalingSpend 0 0
    let m := serveAll [.offer a]
    (∃ m', m.offer overlappingSpend = (.accepted, m') ∧
      m'.remove overlappingSpend.txid = (some overlappingSpend, m)) ∧
    m.contains overlappingSpend.txid = false ∧ m.remove overlappingSpend.txid = (none, m) := by
  intro a m
  -- the first bytes tell the identifiers apart
  have ia : a.txid.val.head? = some 60 := head?_txid_signalingSpend.1
  have io : overlappingSpend.txid.val.head? = some 124 := by
    rw [Transaction.txid, doubleSha256, sha256_eq, sha256_eq]
    decide +kernel
  have hne : a.txid ≠ overlappingSpend.txid := fun h => by rw [h, io] at ia; cases ia
  have hm : m = empty.insert a := congrArg Prod.snd (admits_empty a).offer_eq
  have ha : m.Admits overlappingSpend := by
    rw [hm]
    exact (admits_empty overlappingSpend).insert hne (by decide)
  have hn : m.contains overlappingSpend.txid = false := by
    rw [contains_eq, ha.get?_eq_none]
    rfl
  obtain ⟨haccepted, hother⟩ := remove_serveAll [.offer a] overlappingSpend
  exact ⟨⟨_, ha.offer_eq, haccepted _ ha.offer_eq⟩, hn, hother _ hn⟩

end Bitcoin.Mempool

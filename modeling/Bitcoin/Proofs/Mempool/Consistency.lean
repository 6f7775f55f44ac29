import Bitcoin.Mempool
import Bitcoin.Proofs.Hash.Schedule

/-!
# The pool stays consistent

A pool is looked at through the candidate with an identifier (`get?`), the
spender of an outpoint (`spender?`) and the order of arrival. One equation for
each operation and view says what the operation does; `offer_eq` says what
becomes of a transaction that is offered.

The three parts of a pool tell the same (`Consistent`): the order of arrival
lists the candidates, each once, and the spender of an outpoint is the
candidate that claims it. A removal keeps this, since a candidate gives up what
it claims (`Consistent.erase`). An insertion keeps it where what is claimed is
free (`Consistent.insert`), which the removal of all conflicts sees to
(`spender?_foldl_conflicts`). So every pool that requests lead to is consistent
(`consistent_serveAll`), and no two of its candidates claim the same outpoint.
-/

namespace Bitcoin.Mempool

/-! ## Claims on outpoints -/

/-- Claiming outpoints for a candidate, one after the other. -/
theorem getElem?_foldl_claim (os : List OutPoint) (spent : Std.ExtHashMap OutPoint Hash256) (txid : Hash256)
    (o : OutPoint) : (os.foldl (fun spent o => spent.insert o txid) spent)[o]? =
      if o ∈ os then some txid else spent[o]? := by
  induction os generalizing spent with
  | nil => simp
  | cons p os ih =>
    rw [List.foldl_cons, ih, Std.ExtHashMap.getElem?_insert]
    by_cases hm : o ∈ os
    · simp [hm]
    · by_cases hp : p = o <;> simp [hm, hp, eq_comm (a := o)]

/-- Giving outpoints up, those that a candidate holds. -/
theorem getElem?_foldl_release (os : List OutPoint) (spent : Std.ExtHashMap OutPoint Hash256) (txid : Hash256)
    (o : OutPoint) :
    (os.foldl (fun spent o => if spent[o]? = some txid then spent.erase o else spent) spent)[o]? =
      if o ∈ os ∧ spent[o]? = some txid then none else spent[o]? := by
  induction os generalizing spent with
  | nil => simp
  | cons p os ih =>
    rw [List.foldl_cons, ih]
    by_cases hp : p = o
    · subst hp
      by_cases hs : spent[p]? = some txid <;> simp [hs]
    · have hs : (if spent[p]? = some txid then spent.erase p else spent)[o]? = spent[o]? := by
        split
        · rw [Std.ExtHashMap.getElem?_erase, if_neg (by simpa using hp)]
        · rfl
      simp [hs, Ne.symm hp]

variable (m : Mempool) (tx : Transaction) (txid : Hash256) (o : OutPoint)

theorem contains_eq : m.contains txid = (m.get? txid).isSome := Std.ExtHashMap.contains_eq_isSome_getElem?

@[simp] theorem get?_empty : empty.get? txid = none := Std.ExtHashMap.getElem?_empty

@[simp] theorem spender?_empty : empty.spender? o = none := Std.ExtHashMap.getElem?_empty

@[simp] theorem arrival_empty : empty.arrival = [] := rfl

/-! ## What an insertion does -/

theorem get?_insert : (m.insert tx).get? txid = if tx.txid = txid then some tx else m.get? txid := by
  simp only [get?, insert, Std.ExtHashMap.getElem?_insert, beq_iff_eq]

theorem spender?_insert : (m.insert tx).spender? o = if o ∈ tx.claims then some tx.txid else m.spender? o :=
  getElem?_foldl_claim tx.claims m.spent tx.txid o

@[simp] theorem arrival_insert : (m.insert tx).arrival = m.arrival ++ [tx.txid] := rfl

/-! ## What a removal does -/

variable {m tx txid}

theorem erase_eq_self (h : m.get? txid = none) : m.erase txid = m := by
  rw [erase, h]

theorem get?_erase (id : Hash256) : (m.erase txid).get? id = if txid = id then none else m.get? id := by
  unfold erase
  split
  · rename_i h
    split
    · rename_i he
      rw [← he, h]
    · rfl
  · simp only [get?, Std.ExtHashMap.getElem?_erase, beq_iff_eq]

theorem spender?_erase (h : m.get? txid = some tx) : (m.erase txid).spender? o =
    if o ∈ tx.inputs.map Input.outpoint ∧ m.spender? o = some txid then none else m.spender? o := by
  rw [erase, h]
  exact getElem?_foldl_release (tx.inputs.map Input.outpoint) m.spent txid o

theorem arrival_erase (h : m.get? txid = some tx) : (m.erase txid).arrival = m.arrival.filter (· != txid) := by
  rw [erase, h]

/-! ## Conflicts -/

/-- The candidates found to conflict, when a further outpoint is looked at. -/
def meet (m : Mempool) (found : List Hash256) (o : OutPoint) : List Hash256 :=
  match m.spender? o with
  | some txid => if found.contains txid then found else found ++ [txid]
  | none => found

theorem conflicts_eq : m.conflicts tx = tx.claims.foldl m.meet [] := rfl

theorem mem_meet {found : List Hash256} : txid ∈ m.meet found o ↔ txid ∈ found ∨ m.spender? o = some txid := by
  unfold meet
  cases ho : m.spender? o with
  | none => simp
  | some other =>
    by_cases hf : other ∈ found
    · simp only [List.contains_eq_mem, hf, decide_true, ↓reduceIte, Option.some.injEq]
      exact ⟨.inl, fun h => h.elim id fun he => he ▸ hf⟩
    · simp only [List.contains_eq_mem, hf, decide_false, Bool.false_eq_true, ↓reduceIte, List.mem_append,
        List.mem_singleton, Option.some.injEq, eq_comm (a := other)]

theorem mem_foldl_meet (os : List OutPoint) (found : List Hash256) :
    txid ∈ os.foldl m.meet found ↔ txid ∈ found ∨ ∃ o ∈ os, m.spender? o = some txid := by
  induction os generalizing found with
  | nil => simp
  | cons p os ih => simp [ih, mem_meet, or_assoc]

/-- The conflicts of a transaction are the spenders of what it claims. -/
theorem mem_conflicts : txid ∈ m.conflicts tx ↔ ∃ o ∈ tx.claims, m.spender? o = some txid := by
  rw [conflicts_eq, mem_foldl_meet]
  simp

/-! ## What an offer does -/

/-- A transaction is refused if it is a candidate already, or conflicts with one
and does not signal replacement; the pool then stays as it is. Otherwise those
that it conflicts with leave and it comes last. -/
theorem offer_eq (m : Mempool) (tx : Transaction) : m.offer tx =
    if (m.get? tx.txid).isSome then (.rejected (.present tx.txid), m)
    else if m.conflicts tx ≠ [] ∧ tx.signalsReplacement = false then (.rejected (.doubleSpend tx.txid), m)
    else (if m.conflicts tx = [] then .accepted else .replaced (m.conflicts tx),
      ((m.conflicts tx).foldl erase m).insert tx) := by
  unfold offer
  dsimp only
  rw [contains_eq]
  split
  · rfl
  · cases m.conflicts tx with
    | nil => simp
    | cons id ids => by_cases hs : tx.signalsReplacement <;> simp [hs]

/-! ## Consistent pools -/

/-- What a pool may be asked for. -/
inductive Request where
  | offer (tx : Transaction)
  | erase (txid : Hash256)

/-- The pool after a request. -/
def serve (m : Mempool) : Request → Mempool
  | .offer tx => (m.offer tx).2
  | .erase txid => m.erase txid

/-- The pool after some requests, the first of them to the empty pool. -/
def serveAll (requests : List Request) : Mempool := requests.foldl serve .empty

/-- The parts of a pool agree with each other. -/
structure Consistent (m : Mempool) : Prop where
  nodup_arrival : m.arrival.Nodup
  mem_arrival_iff : ∀ txid, txid ∈ m.arrival ↔ m.contains txid
  /-- Candidates stand under their identifiers. -/
  txid_eq : ∀ txid tx, m.get? txid = some tx → tx.txid = txid
  /-- Outpoints are spent by the candidates that claim them. -/
  spender?_eq_some_iff : ∀ o txid, m.spender? o = some txid ↔ ∃ tx, m.get? txid = some tx ∧ o ∈ tx.claims

theorem mem_outpoints_of_mem_claims {tx : Transaction} {o : OutPoint} (h : o ∈ tx.claims) :
    o ∈ tx.inputs.map Input.outpoint := by
  obtain ⟨i, hi, rfl⟩ := List.mem_map.1 h
  exact List.mem_map_of_mem (List.mem_filter.1 hi).1

theorem consistent_empty : empty.Consistent where
  nodup_arrival := List.nodup_nil
  mem_arrival_iff id := by simp [contains_eq]
  txid_eq id tx h := by simp at h
  spender?_eq_some_iff o id := by simp

namespace Consistent

/-! ## Removal -/

/-- A removal frees what the candidate spends and nothing else. -/
theorem spender?_erase (h : m.Consistent) (txid : Hash256) (o : OutPoint) :
    (m.erase txid).spender? o = if m.spender? o = some txid then none else m.spender? o := by
  cases hg : m.get? txid with
  | none =>
    have ho : m.spender? o ≠ some txid := fun ho => by
      obtain ⟨tx, ht, -⟩ := (h.spender?_eq_some_iff o txid).1 ho
      rw [hg] at ht
      cases ht
    rw [erase_eq_self hg, if_neg ho]
  | some tx =>
    have hm : m.spender? o = some txid → o ∈ tx.inputs.map Input.outpoint := fun ho => by
      obtain ⟨tx', ht, hc⟩ := (h.spender?_eq_some_iff o txid).1 ho
      cases hg.symm.trans ht
      exact mem_outpoints_of_mem_claims hc
    simp only [Mempool.spender?_erase o hg, and_iff_right_of_imp hm]

theorem not_mem_arrival (h : m.Consistent) {txid : Hash256} (hn : m.get? txid = none) : txid ∉ m.arrival := by
  rw [h.mem_arrival_iff, contains_eq, hn]
  exact Bool.false_ne_true

theorem filter_arrival_eq_self (h : m.Consistent) {txid : Hash256} (hn : m.get? txid = none) :
    m.arrival.filter (· != txid) = m.arrival := by
  refine List.filter_eq_self.2 fun id hi => bne_iff_ne.2 ?_
  rintro rfl
  exact h.not_mem_arrival hn hi

theorem arrival_erase (h : m.Consistent) (txid : Hash256) :
    (m.erase txid).arrival = m.arrival.filter (· != txid) := by
  cases hg : m.get? txid with
  | none => rw [erase_eq_self hg, h.filter_arrival_eq_self hg]
  | some tx => exact Mempool.arrival_erase hg

theorem erase (h : m.Consistent) (txid : Hash256) : (m.erase txid).Consistent where
  nodup_arrival := by
    rw [h.arrival_erase]
    exact h.nodup_arrival.filter _
  mem_arrival_iff id := by
    rw [h.arrival_erase, List.mem_filter, h.mem_arrival_iff, contains_eq, contains_eq, get?_erase]
    by_cases he : txid = id <;> simp [he, eq_comm (a := id)]
  txid_eq id tx ht := by
    rw [get?_erase] at ht
    split at ht
    · cases ht
    · exact h.txid_eq id tx ht
  spender?_eq_some_iff o id := by
    rw [h.spender?_erase, get?_erase]
    by_cases he : txid = id
    · subst he
      by_cases ho : m.spender? o = some txid <;> simp [ho]
    · rw [if_neg he, ← h.spender?_eq_some_iff]
      by_cases ho : m.spender? o = some txid <;> simp [ho, he]

/-! ## Insertion -/

theorem insert (h : m.Consistent) (hn : m.get? tx.txid = none) (hf : ∀ o ∈ tx.claims, m.spender? o = none) :
    (m.insert tx).Consistent where
  nodup_arrival := by
    rw [arrival_insert]
    exact List.nodup_append.2 ⟨h.nodup_arrival, List.pairwise_singleton _ _,
      fun a ha b hb he => h.not_mem_arrival hn (List.mem_singleton.1 hb ▸ he ▸ ha)⟩
  mem_arrival_iff id := by
    rw [arrival_insert, List.mem_append, List.mem_singleton, h.mem_arrival_iff, contains_eq, contains_eq, get?_insert]
    by_cases he : tx.txid = id <;> simp [he, eq_comm (a := id)]
  txid_eq id t ht := by
    rw [get?_insert] at ht
    split at ht
    · cases ht
      assumption
    · exact h.txid_eq id t ht
  spender?_eq_some_iff o id := by
    rw [spender?_insert, get?_insert]
    by_cases he : tx.txid = id
    · subst he
      have ho : m.spender? o ≠ some tx.txid := fun ho => by
        obtain ⟨t, ht, -⟩ := (h.spender?_eq_some_iff o tx.txid).1 ho
        rw [hn] at ht
        cases ht
      by_cases hc : o ∈ tx.claims <;> simp [hc, ho]
    · rw [if_neg he, ← h.spender?_eq_some_iff]
      by_cases hc : o ∈ tx.claims
      · simp [hc, he, hf o hc]
      · simp [hc]

/-! ## Offers -/

/-- Removals one after the other. -/
theorem foldl_erase (h : m.Consistent) (txids : List Hash256) : (txids.foldl Mempool.erase m).Consistent := by
  induction txids generalizing m with
  | nil => exact h
  | cons id ids ih => exact ih (h.erase id)

end Consistent

theorem get?_foldl_erase (txids : List Hash256) (id : Hash256) :
    (txids.foldl erase m).get? id = if id ∈ txids then none else m.get? id := by
  induction txids generalizing m with
  | nil => simp
  | cons a ids ih =>
    rw [List.foldl_cons, ih, get?_erase]
    by_cases ha : a = id <;> simp [ha, eq_comm (a := id)]

/-- With all its conflicts gone, what a transaction claims is free. -/
theorem spender?_foldl_conflicts (h : m.Consistent) {o : OutPoint} (ho : o ∈ tx.claims) :
    ((m.conflicts tx).foldl erase m).spender? o = none := by
  refine Option.eq_none_iff_forall_ne_some.2 fun id hs => ?_
  obtain ⟨t, ht, hc⟩ := ((h.foldl_erase _).spender?_eq_some_iff o id).1 hs
  rw [get?_foldl_erase] at ht
  split at ht
  · cases ht
  · rename_i hn
    exact hn (mem_conflicts.2 ⟨o, ho, (h.spender?_eq_some_iff o id).2 ⟨t, ht, hc⟩⟩)

/-- The pool that takes a transaction in for those it conflicts with. -/
theorem Consistent.replace (h : m.Consistent) (hn : m.get? tx.txid = none) :
    (((m.conflicts tx).foldl Mempool.erase m).insert tx).Consistent := by
  refine (h.foldl_erase _).insert ?_ fun o ho => spender?_foldl_conflicts h ho
  rw [get?_foldl_erase, hn, ite_self]

theorem Consistent.offer (h : m.Consistent) (tx : Transaction) : (m.offer tx).2.Consistent := by
  rw [offer_eq]
  split
  · exact h
  · rename_i hn
    split
    · exact h
    · exact h.replace (by simpa using hn)

/-- Those that were replaced spend nothing any more. -/
theorem Consistent.spender?_of_replaced (h : m.Consistent) {txids : List Hash256} {m' : Mempool}
    (hr : m.offer tx = (.replaced txids, m')) : ∀ id ∈ txids, ∀ o, m'.spender? o ≠ some id := by
  have hm : m'.Consistent := by
    have ho := h.offer tx
    rwa [hr] at ho
  rw [offer_eq] at hr
  split at hr
  · cases hr
  · rename_i hn
    split at hr
    · cases hr
    · split at hr
      · cases hr
      · cases hr
        intro id hi o hs
        -- a conflict is a candidate, so it is not the newcomer, and it is gone
        obtain ⟨t, ht, -⟩ := (hm.spender?_eq_some_iff o id).1 hs
        obtain ⟨p, -, hp⟩ := mem_conflicts.1 hi
        obtain ⟨u, hu, -⟩ := (h.spender?_eq_some_iff p id).1 hp
        have he : tx.txid ≠ id := fun he => hn (by rw [he, hu]; rfl)
        rw [get?_insert, if_neg he, get?_foldl_erase, if_pos hi] at ht
        cases ht

/-! ## Runs -/

theorem Consistent.serve (h : m.Consistent) (r : Request) : (m.serve r).Consistent := by
  cases r with
  | offer tx => exact h.offer tx
  | erase txid => exact h.erase txid

theorem Consistent.foldl_serve (h : m.Consistent) (requests : List Request) :
    (requests.foldl Mempool.serve m).Consistent := by
  induction requests generalizing m with
  | nil => exact h
  | cons r rs ih => exact ih (h.serve r)

theorem consistent_serveAll (requests : List Request) : (serveAll requests).Consistent :=
  consistent_empty.foldl_serve requests

/-- An outpoint has one spender, so different candidates claim different outpoints. -/
theorem Consistent.disjoint_claims (h : m.Consistent) {a b : Hash256} {s t : Transaction} (hs : m.get? a = some s)
    (ht : m.get? b = some t) (hn : a ≠ b) : ∀ o ∈ s.claims, o ∉ t.claims := by
  intro o ho hp
  have ha := (h.spender?_eq_some_iff o a).2 ⟨s, hs, ho⟩
  have hb := (h.spender?_eq_some_iff o b).2 ⟨t, ht, hp⟩
  exact hn (Option.some.inj (ha.symm.trans hb))

/-- After any requests the parts of the pool agree, no two candidates claim the
same outpoint, and a candidate that is removed or replaced leaves no claim
behind. -/
theorem claims_of_serveAll (requests : List Request) :
    (serveAll requests).Consistent ∧
    (∀ a b s t, (serveAll requests).get? a = some s → (serveAll requests).get? b = some t → a ≠ b →
      ∀ o ∈ s.claims, o ∉ t.claims) ∧
    (∀ txid o, ((serveAll requests).erase txid).spender? o ≠ some txid) ∧
    ∀ tx txids m', (serveAll requests).offer tx = (.replaced txids, m') →
      ∀ txid ∈ txids, ∀ o, m'.spender? o ≠ some txid := by
  have h := consistent_serveAll requests
  refine ⟨h, fun a b s t => h.disjoint_claims, fun txid o => ?_, fun tx txids m' => h.spender?_of_replaced⟩
  rw [h.spender?_erase]
  split
  · exact nofun
  · assumption

/-- Leaves the output with a number to the miner, and may be replaced and replace. -/
def signalingSpend (vout : UInt32) (locktime : UInt32) : Transaction where
  version := 2
  locktime
  inputs := [.make ⟨FixedBytes.zero 32, vout⟩ none [] [] 0]
  outputs := []

set_option maxRecDepth 100000 in
/-- The first bytes tell their identifiers apart. -/
theorem head?_txid_signalingSpend : (signalingSpend 0 0).txid.val.head? = some 60 ∧
    (signalingSpend 1 0).txid.val.head? = some 33 ∧ (signalingSpend 0 1).txid.val.head? = some 45 := by
  refine ⟨?_, ?_, ?_⟩
  all_goals
    rw [Transaction.txid, doubleSha256, sha256_eq, sha256_eq]
    decide +kernel

/-- Of two candidates one is replaced. -/
theorem claims_of_serveAll_signalingSpends :
    let a := signalingSpend 0 0
    let b := signalingSpend 1 0
    let c := signalingSpend 0 1
    let m := serveAll [.offer a, .offer b]
    (m.get? a.txid = some a ∧ m.get? b.txid = some b ∧ ∀ o ∈ a.claims, o ∉ b.claims) ∧
    ∃ m', m.offer c = (.replaced [a.txid], m') ∧ ∀ o, m'.spender? o ≠ some a.txid := by
  intro a b c m
  obtain ⟨ia, ib, ic⟩ := head?_txid_signalingSpend
  have hab : a.txid ≠ b.txid := fun h => by rw [h, ib] at ia; cases ia
  have hac : a.txid ≠ c.txid := fun h => by rw [h, ic] at ia; cases ia
  have hbc : b.txid ≠ c.txid := fun h => by rw [h, ic] at ib; cases ib
  have ha : a.claims = [⟨FixedBytes.zero 32, 0⟩] := by decide
  have hb : b.claims = [⟨FixedBytes.zero 32, 1⟩] := by decide
  have hc : c.claims = [⟨FixedBytes.zero 32, 0⟩] := by decide
  have hs : c.signalsReplacement = true := by decide
  have hm : m = (empty.insert a).insert b := by
    show ((empty.offer a).2.offer b).2 = _
    simp [offer_eq, conflicts_eq, ha, hb, meet, spender?_insert, get?_insert, hab]
  have hma : m.get? a.txid = some a := by simp [hm, get?_insert, hab.symm]
  have hmb : m.get? b.txid = some b := by simp [hm, get?_insert]
  have hcm : m.conflicts c = [a.txid] := by simp [hm, conflicts_eq, ha, hb, hc, meet, spender?_insert]
  have hn : m.get? c.txid = none := by simp [hm, get?_insert, hac, hbc]
  obtain ⟨-, hd, -, hr⟩ := claims_of_serveAll [.offer a, .offer b]
  have ho : m.offer c = (.replaced [a.txid], ([a.txid].foldl erase m).insert c) := by
    simp [offer_eq, hn, hcm, hs]
  exact ⟨⟨hma, hmb, hd _ _ _ _ hma hmb hab⟩, _, ho, hr _ _ _ ho a.txid (List.mem_singleton_self _)⟩

end Bitcoin.Mempool

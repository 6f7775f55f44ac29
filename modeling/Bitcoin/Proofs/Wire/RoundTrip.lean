import Bitcoin.Proofs.Wire.Reading
import Bitcoin.Transaction.Decode

/-!
# The wire forms of transactions

A transaction that can be told by its wire form is what decoding the form
yields: inputs without prevouts, outputs of bare scripts (`Plain`). The form
without witnesses decodes to the transaction with every witness emptied
(`withoutWitnesses`). Inputs, outputs and witnesses are read as they are
written (`takes_input`, `takes_output`, `takes_witnesses`); the marker is told
from a number of inputs because there is an input.
-/

namespace Bitcoin

open Read

/-- The input with its witness emptied. -/
def Input.withoutWitness (i : Input) : Input := { i with witness := [] }

namespace Transaction

/-- The transaction with every witness emptied. -/
def withoutWitnesses (tx : Transaction) : Transaction := { tx with inputs := tx.inputs.map Input.withoutWitness }

/-- The length of each list is a number of 64 bits, as that of any list in memory is. -/
structure Sized (tx : Transaction) : Prop where
  inputs : tx.inputs.length < UInt64.size
  outputs : tx.outputs.length < UInt64.size
  scriptSigs : ∀ i ∈ tx.inputs, i.scriptSig.length < UInt64.size
  witnesses : ∀ i ∈ tx.inputs, i.witness.length < UInt64.size
  items : ∀ i ∈ tx.inputs, ∀ item ∈ i.witness, item.length < UInt64.size
  scripts : ∀ o ∈ tx.outputs, o.script.length < UInt64.size

/-- Only inputs and outputs that are made of what the wire form says. -/
structure Plain (tx : Transaction) : Prop where
  inputs : ∀ i ∈ tx.inputs, ∃ outpoint scriptSig witness sequence,
    i = .make outpoint none scriptSig witness sequence
  outputs : ∀ o ∈ tx.outputs, ∃ value script, o = .ofScript value script

/-! ## Parts -/

theorem takes_input {i : Input} (hi : ∃ outpoint scriptSig witness sequence,
    i = .make outpoint none scriptSig witness sequence) (h : i.scriptSig.length < UInt64.size) :
    Takes readInput i.serialize i.withoutWitness := by
  obtain ⟨⟨txid, vout⟩, scriptSig, witness, sequence, rfl⟩ := hi
  unfold Input.serialize Input.serializeWith OutPoint.serialize
  simp only [List.append_assoc]
  refine (takes_bytes _).bind ((takes_uint32 _).bind ((takes_counted h).bind ?_))
  have hv : Input.withoutWitness (.make ⟨txid, vout⟩ none scriptSig witness sequence) =
      .make ⟨txid.reverse.reverse, vout⟩ none scriptSig [] sequence := by
    rw [FixedBytes.reverse_reverse]
    rfl
  rw [hv]
  exact (takes_uint32 sequence).bind_pure fun sequence => Input.make _ none scriptSig [] sequence

theorem takes_output {o : Output} (ho : ∃ value script, o = .ofScript value script)
    (h : o.script.length < UInt64.size) : Takes readOutput o.serialize o := by
  obtain ⟨value, script, rfl⟩ := ho
  exact (takes_int64 value).bind ((takes_counted h).bind_pure fun script => Output.ofScript value script)

theorem takes_items {items : List Bytes} (hn : items.length < UInt64.size) (h : ∀ item ∈ items, item.length < UInt64.size) :
    Takes (list counted) (CompactSize.encode items.length ++ items.flatMap CompactSize.counted) items := by
  have ht : Takes (list counted) _ (items.map id) := takes_list hn fun item hi => takes_counted (h item hi)
  rw [List.map_id] at ht
  exact ht

/-- Reading the witnesses of inputs without theirs puts them back. -/
theorem takes_witnesses (is : List Input) (hw : ∀ i ∈ is, i.witness.length < UInt64.size)
    (h : ∀ i ∈ is, ∀ item ∈ i.witness, item.length < UInt64.size) (done : List Input) :
    Takes (readWitnesses (is.map Input.withoutWitness) done) (is.flatMap Input.serializeWitness)
      (done.reverse ++ is) := by
  induction is generalizing done with
  | nil =>
    rw [List.append_nil]
    exact Takes.pure done.reverse
  | cons i is ih =>
    have ht := ih (fun j hj => hw j (List.mem_cons_of_mem i hj)) (fun j hj => h j (List.mem_cons_of_mem i hj))
      (i :: done)
    rw [List.reverse_cons, List.append_assoc] at ht
    exact (takes_items (hw i List.mem_cons_self) (h i List.mem_cons_self)).bind ht

theorem takes_marker : Takes readMarker [0x00, 0x01] true := fun _ _ => rfl

/-- Without a marker, reading goes on at the same byte. -/
theorem takes_unmarked {α : Type} {k : Bool → Read α} {bytes : Bytes} {a : α}
    (hb : ∃ b rest, bytes = b :: rest ∧ b ≠ 0) (h : Takes (k false) bytes a) :
    Takes (readMarker >>= k) bytes a := by
  obtain ⟨b, next, rfl, hb⟩ := hb
  intro offset rest
  rw [← h offset rest]
  have hm : readMarker ⟨offset, b :: next ++ rest⟩ = .ok false ⟨offset, b :: next ++ rest⟩ := by
    unfold readMarker
    show EStateM.bind peek _ _ = _
    rw [EStateM.bind, peek]
    simp [hb]
    rfl
  show EStateM.bind readMarker k _ = _
  rw [EStateM.bind, hm]

variable {tx : Transaction}

/-- What follows the marker, or stands in its place. -/
theorem takes_inputs (hp : tx.Plain) (hs : tx.Sized) :
    Takes (list readInput) tx.inputsBytes tx.withoutWitnesses.inputs :=
  takes_list hs.inputs fun i hi => takes_input (hp.inputs i hi) (hs.scriptSigs i hi)

theorem takes_outputs (hp : tx.Plain) (hs : tx.Sized) : Takes (list readOutput) tx.outputsBytes tx.outputs := by
  have ht : Takes (list readOutput) _ (tx.outputs.map id) :=
    takes_list hs.outputs fun o ho => takes_output (hp.outputs o ho) (hs.scripts o ho)
  rw [List.map_id] at ht
  exact ht

theorem takes_serializeSegwit (hp : tx.Plain) (hs : tx.Sized) : Takes readFront tx.serializeSegwit tx := by
  unfold serializeSegwit
  simp only [List.append_assoc]
  exact (takes_int32 _).bind (takes_marker.bind ((takes_inputs hp hs).bind ((takes_outputs hp hs).bind
    ((takes_witnesses tx.inputs hs.witnesses hs.items []).bind
      ((takes_uint32 _).bind_pure fun locktime => Transaction.mk _ locktime _ _)))))

theorem takes_serializeLegacy (hn : tx.inputs ≠ []) (hp : tx.Plain) (hs : tx.Sized) :
    Takes readFront tx.serializeLegacy tx.withoutWitnesses := by
  obtain ⟨b, rest, hb, hz⟩ := encode_eq_cons (List.length_pos_iff.2 hn)
  have hm : ∃ b rest, tx.inputsBytes ++ (tx.outputsBytes ++ tx.locktimeBytes) = b :: rest ∧ b ≠ 0 := by
    rw [inputsBytes, hb]
    exact ⟨b, _, rfl, hz⟩
  unfold serializeLegacy
  simp only [List.append_assoc]
  exact (takes_int32 _).bind (takes_unmarked hm ((takes_inputs hp hs).bind ((takes_outputs hp hs).bind
    ((takes_uint32 _).bind_pure fun locktime => Transaction.mk _ locktime _ _))))

/-! ## Decoding -/

/-- Bytes that are taken as a transaction decode to it if its amounts are in
bounds. -/
theorem decode_of_takes {bytes : Bytes} (h : Takes readFront bytes tx) : decode bytes = tx.checkAmounts := by
  have hr : read (.start bytes) = .ok tx ⟨0 + bytes.length, []⟩ := by
    have ht := h.bind_eq (fun tx => do
      let c ← cursor
      if c.rest.isEmpty then return tx else throw (.decode (.trailingBytes c.rest.length))) 0 []
    rw [List.append_nil] at ht
    exact ht
  rw [decode, Read.run, EStateM.run, hr]
  rfl

theorem checkAmounts_eq_ok {tx' : Transaction} : tx.checkAmounts = .ok tx' ↔ tx' = tx ∧ ∃ a b fee,
    Amount.checkedSum? tx.inputValues = some a ∧ Amount.checkedSum? tx.outputValues = some b ∧
      Amount.ofInt? (a.toInt - b.toInt) = some fee := by
  unfold checkAmounts
  constructor
  · intro h
    split at h
    · rename_i a b ha hb
      split at h
      · rename_i fee hf
        cases h
        exact ⟨rfl, a, b, fee, ha, hb, hf⟩
      · cases h
    · cases h
  · intro ⟨ht, a, b, fee, ha, hb, hf⟩
    rw [ha, hb, ht]
    dsimp only
    rw [hf]

theorem inputValues_withoutWitnesses (tx : Transaction) : tx.withoutWitnesses.inputValues = tx.inputValues :=
  List.filterMap_map

theorem checkAmounts_withoutWitnesses (h : tx.checkAmounts = .ok tx) :
    tx.withoutWitnesses.checkAmounts = .ok tx.withoutWitnesses := by
  obtain ⟨-, ha⟩ := checkAmounts_eq_ok.1 h
  rw [checkAmounts_eq_ok, inputValues_withoutWitnesses]
  exact ⟨rfl, ha⟩

theorem withoutWitnesses_eq_self (h : tx.isSegwit = false) : tx.withoutWitnesses = tx := by
  have hm : tx.inputs.map Input.withoutWitness = tx.inputs.map id := by
    refine List.map_congr_left fun i hi => ?_
    have hw := List.any_eq_false.1 h i hi
    simp only [Input.hasWitness, Bool.not_eq_true, Bool.not_eq_false', List.isEmpty_iff] at hw
    rw [Input.withoutWitness, ← hw, id]
  rw [withoutWitnesses, hm, List.map_id]

/-- A transaction made of what the wire form says is what its wire form decodes
to, and without its witnesses what the form without them decodes to. -/
theorem decode_serialize {draft tx : Transaction} (hn : draft.inputs ≠ []) (hp : draft.Plain) (hs : draft.Sized)
    (hc : draft.checkAmounts = .ok tx) :
    decode tx.serialize = .ok tx ∧ decode tx.serializeLegacy = .ok tx.withoutWitnesses := by
  obtain ⟨rfl, -⟩ := checkAmounts_eq_ok.1 hc
  have hl : decode tx.serializeLegacy = .ok tx.withoutWitnesses := by
    rw [decode_of_takes (takes_serializeLegacy hn hp hs), checkAmounts_withoutWitnesses hc]
  refine ⟨?_, hl⟩
  unfold serialize
  split
  · rw [decode_of_takes (takes_serializeSegwit hp hs), hc]
  · rename_i hw
    rw [hl, withoutWitnesses_eq_self (Bool.eq_false_iff.2 hw)]

/-- Spends two outputs, one with a witness of an empty item and one of two bytes. -/
def mixedSpend : Transaction where
  version := -1
  locktime := 7
  inputs := [.make ⟨FixedBytes.zero 32, 1⟩ none [0x51] [[], [0x02, 0x03]] 0xffffffff,
    .make ⟨FixedBytes.zero 32, 2⟩ none [] [] 5]
  outputs := [.ofScript 40000 [0x51], .ofScript (-1) []]

theorem decode_serialize_mixedSpend : decode mixedSpend.serialize = .ok mixedSpend ∧
    decode mixedSpend.serializeLegacy = .ok mixedSpend.withoutWitnesses := by
  have plain : mixedSpend.Plain :=
    { inputs := List.forall_mem_cons.2 ⟨⟨_, _, _, _, rfl⟩, List.forall_mem_singleton.2 ⟨_, _, _, _, rfl⟩⟩
      outputs := List.forall_mem_cons.2 ⟨⟨_, _, rfl⟩, List.forall_mem_singleton.2 ⟨_, _, rfl⟩⟩ }
  have sized : mixedSpend.Sized := by constructor <;> decide
  exact decode_serialize (List.cons_ne_nil _ _) plain sized rfl

end Transaction

end Bitcoin

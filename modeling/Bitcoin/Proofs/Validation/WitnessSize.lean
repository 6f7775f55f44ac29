import Bitcoin.Proofs.Validation.Derived
import Bitcoin.Proofs.Validation.Unsigned
import Bitcoin.Proofs.Wire.Identifiers

/-!
# How many items the witness of a key hash has

Nobody signs witnesses, so whoever passes a transaction on may put more items
behind one (`appendWitness`). That keeps the identifier and makes the form with
witnesses longer (`weight_lt_weight_appendWitness`). The other inputs of a valid
transaction pass as before (`exists_passes_appendWitness`). For the input itself
it depends on how it spends: the items of a bare key hash are counted by the
metadata check, which rejects the transaction (`validate_appendWitness_keyHash`);
those of a wrapped one are not counted, and the transaction stays valid
(`validate_appendWitness_wrapped`).
-/

namespace Bitcoin

namespace Input

/-- The input with more items behind its witness. -/
def appendWitness (more : List Bytes) (i : Input) : Input := { i with witness := i.witness ++ more }

theorem hasWitness_appendWitness {i : Input} (h : i.hasWitness = true) (more : List Bytes) :
    (i.appendWitness more).hasWitness = true := by
  simp_all [hasWitness, appendWitness]

theorem getElem?_witness_appendWitness {i : Input} {place : Nat} {item : Bytes} (h : i.witness[place]? = some item)
    (more : List Bytes) : (i.appendWitness more).witness[place]? = some item := by
  obtain ⟨hl, -⟩ := List.getElem?_eq_some_iff.1 h
  rw [appendWitness, List.getElem?_append_left hl, h]

end Input

namespace Transaction

/-- The transaction with more items behind the witness of an input. -/
def appendWitness (tx : Transaction) (index : Nat) (more : List Bytes) : Transaction :=
  { tx with inputs := tx.inputs.modify index (Input.appendWitness more) }

variable {tx : Transaction} {index : Nat} {i : Input}

theorem getElem?_appendWitness (hi : tx.inputs[index]? = some i) (more : List Bytes) :
    (tx.appendWitness index more).inputs[index]? = some (i.appendWitness more) := by
  rw [appendWitness, List.getElem?_modify_eq, hi]
  rfl

theorem getElem?_appendWitness_other {k : Nat} (h : index ≠ k) (more : List Bytes) :
    (tx.appendWitness index more).inputs[k]? = tx.inputs[k]? := List.getElem?_modify_ne _ _ h

theorem withoutWitnesses_appendWitness (tx : Transaction) (index : Nat) (more : List Bytes) :
    (tx.appendWitness index more).withoutWitnesses = tx.withoutWitnesses := by
  have hm : (tx.appendWitness index more).inputs.map Input.withoutWitness = tx.inputs.map Input.withoutWitness := by
    refine List.ext_getElem? fun k => ?_
    rw [List.getElem?_map, List.getElem?_map, appendWitness, List.getElem?_modify]
    cases tx.inputs[k]? with
    | none => rfl
    | some i =>
      show some (Input.withoutWitness (if index = k then i.appendWitness more else i)) = _
      split <;> rfl
  rw [withoutWitnesses, hm]
  rfl

/-! ## Identifier and weight -/

theorem serializeLegacy_appendWitness (tx : Transaction) (index : Nat) (more : List Bytes) :
    (tx.appendWitness index more).serializeLegacy = tx.serializeLegacy := by
  rw [← (sameFields_withoutWitnesses (tx.appendWitness index more)).serializeLegacy_eq, withoutWitnesses_appendWitness,
    (sameFields_withoutWitnesses tx).serializeLegacy_eq]

end Transaction

theorem CompactSize.one_le_width (n : Nat) : 1 ≤ width n := by
  unfold width
  split_ifs <;> omega

theorem CompactSize.width_le_width {m n : Nat} (h : m ≤ n) : width m ≤ width n := by
  unfold width
  split_ifs <;> omega

theorem Input.witnessSize_lt_witnessSize_appendWitness (i : Input) {more : List Bytes} (h : more ≠ []) :
    i.witnessSize < (i.appendWitness more).witnessSize := by
  obtain ⟨item, rest, rfl⟩ := List.exists_cons_of_ne_nil h
  have hn : CompactSize.width i.witness.length ≤ CompactSize.width (i.witness ++ item :: rest).length :=
    CompactSize.width_le_width (by rw [List.length_append]; omega)
  have hi := CompactSize.one_le_width item.length
  simp only [witnessSize, appendWitness, List.map_append, List.sum_append, List.map_cons, List.sum_cons]
  omega

namespace Transaction

variable {tx : Transaction} {index : Nat} {more : List Bytes} {i : Input}

theorem isSegwit_appendWitness (hi : tx.inputs[index]? = some i) (h : more ≠ []) :
    (tx.appendWitness index more).isSegwit :=
  isSegwit_iff.2 ⟨_, List.mem_of_getElem? (getElem?_appendWitness hi more), List.append_ne_nil_of_right_ne_nil _ h⟩

theorem length_serialize_lt_appendWitness (hi : tx.inputs[index]? = some i) (h : more ≠ []) :
    tx.serialize.length < (tx.appendWitness index more).serialize.length := by
  obtain ⟨hl, -⟩ := List.getElem?_eq_some_iff.1 hi
  obtain ⟨front, j, rest, hx, -, hm⟩ := List.exists_of_modify (Input.appendWitness more) hl
  have hs : (tx.inputs.map Input.witnessSize).sum < ((tx.appendWitness index more).inputs.map Input.witnessSize).sum := by
    have hj := j.witnessSize_lt_witnessSize_appendWitness h
    rw [appendWitness, hm, hx]
    simp only [List.map_append, List.map_cons, List.sum_append, List.sum_cons]
    omega
  have ht : tx.serialize.length ≤ tx.serializeSegwit.length := by
    by_cases hw : tx.isSegwit
    · exact Nat.le_of_eq (congrArg List.length (serialize_of_isSegwit hw))
    · rw [serialize_of_not_isSegwit hw, length_serializeSegwit]
      omega
  rw [serialize_of_isSegwit (isSegwit_appendWitness hi h), length_serializeSegwit, serializeLegacy_appendWitness]
  rw [length_serializeSegwit] at ht
  omega

theorem weight_lt_weight_appendWitness (hi : tx.inputs[index]? = some i) (h : more ≠ []) :
    tx.weight < (tx.appendWitness index more).weight := by
  have hs := length_serialize_lt_appendWitness hi h
  rw [weight_eq, weight_eq, serializeLegacy_appendWitness]
  omega

theorem txid_appendWitness (tx : Transaction) (index : Nat) (more : List Bytes) :
    (tx.appendWitness index more).txid = tx.txid := by
  rw [txid, serializeLegacy_appendWitness, txid]

theorem fee_appendWitness (tx : Transaction) (index : Nat) (more : List Bytes) :
    (tx.appendWitness index more).fee = tx.fee := by
  rw [← fee_withoutWitnesses, withoutWitnesses_appendWitness, fee_withoutWitnesses]

end Transaction

namespace Validation

open Transaction Script Check

variable {tx : Transaction} {index : Nat} {more : List Bytes} {i : Input} {o : Output} {v : Verifier}

/-! ## How inputs with more items spend -/

theorem spendType_eq_keyHash_iff (hi : tx.inputs[index]? = some i) (ho : i.prevout = some o) :
    tx.spendType index = .ok .p2wpkh ↔ o.type = .p2wpkh := by
  constructor
  · intro ht
    exact (of_spendType hi ho ht).1.symm
  · intro hp
    rw [spendType_eq hi ho, hp]

theorem spendType_eq_wrappedKeyHash_iff (hi : tx.inputs[index]? = some i) (ho : i.prevout = some o) :
    tx.spendType index = .ok .p2shP2wpkh ↔ o.type = .p2sh ∧ i.hasWitness = true ∧ i.scriptSig.length = 23 := by
  constructor
  · intro ht
    have hp : o.type = .p2sh := (of_spendType hi ho ht).1.symm
    rw [spendType_eq hi ho, hp] at ht
    dsimp only at ht
    split at ht
    · cases ht
    rename_i hw
    split at ht
    · rename_i hl
      exact ⟨hp, by simpa using hw, hl⟩
    split at ht <;> cases ht
  · intro ⟨hp, hw, hl⟩
    rw [spendType_eq hi ho, hp]
    dsimp only
    rw [if_neg (by simpa using hw), if_pos hl]

/-- The other inputs of a valid transaction pass as before. -/
theorem exists_passes_appendWitness (hv : tx.validate v = .valid) {k : Nat} (hk : index ≠ k)
    (hi : (tx.appendWitness index more).inputs[k]? = some i) (hc : i.isCoinbase = false) :
    ∃ o, i.prevout = some o ∧ Passes (tx.appendWitness index more) v k i o := by
  have hi' : tx.inputs[k]? = some i := (getElem?_appendWitness_other hk more).symm.trans hi
  obtain ⟨o, ho, hp⟩ := exists_passes_of_validate_eq_valid hv hi' hc
  exact ⟨o, ho, passes_congr (withoutWitnesses_appendWitness tx index more) hi' hi ho hp⟩

/-- A wrapped key hash is spent by the first two items of the witness, whatever
stands behind them. -/
theorem passes_appendWitness_wrapped (hi : tx.inputs[index]? = some i) (ho : i.prevout = some o)
    (ht : tx.spendType index = .ok .p2shP2wpkh) (h : Passes tx v index i o) :
    Passes (tx.appendWitness index more) v index (i.appendWitness more) o := by
  have hi' := getElem?_appendWitness hi more
  have he := withoutWitnesses_appendWitness tx index more
  obtain ⟨hp, hw, hl⟩ := (spendType_eq_wrappedKeyHash_iff hi ho).1 ht
  have ht' := (spendType_eq_wrappedKeyHash_iff hi' ho).2 ⟨hp, Input.hasWitness_appendWitness hw more, hl⟩
  obtain ⟨hd, hh, hr, hg⟩ := (passes_iff_of_spendType hi ho ht v).1 h
  obtain ⟨redeem, key, hpush, hkey, hredeem, hlock⟩ := hh
  obtain ⟨left, hopen, redeem', sig, key', hpush', hlength, hsig, hkey', ha⟩ := (runs_congr he).2 hr
  obtain ⟨sig', key'', hsig', hkey'', hs⟩ := (signed_congr he).2 hg
  refine (passes_iff_of_spendType hi' ho ht' v).2 ⟨⟨hd.length, ?_, hd.address⟩, ?_, ?_, ?_⟩
  · intro hn
    cases hp.symm.trans hn
  · exact ⟨redeem, key, hpush, Input.getElem?_witness_appendWitness hkey more, hredeem, hlock⟩
  · exact ⟨left, hopen, redeem', sig, key', hpush', hlength, Input.getElem?_witness_appendWitness hsig more,
      Input.getElem?_witness_appendWitness hkey' more, ha⟩
  · exact ⟨sig', key'', Input.getElem?_witness_appendWitness hsig' more,
      Input.getElem?_witness_appendWitness hkey'' more, hs⟩

/-! ## The verdict -/

/-- A check comes to what there is against the only input to which its judge objects. -/
theorem outcome_firstObjection_of_only {judge : Nat → Input → Output → Check (Option Objection)}
    (hj : ∀ index i o, (judge index i o).LogFree) (hi : tx.inputs[index]? = some i) (hc : i.isCoinbase = false)
    (ho : i.prevout = some o) (hn : (judge index i o).outcome ≠ .ok none)
    (others : ∀ k j, index ≠ k → tx.inputs[k]? = some j → j.isCoinbase = false →
      ∃ o, j.prevout = some o ∧ (judge k j o).outcome = .ok none) :
    (firstObjection judge (spendingInputs tx)).outcome = (judge index i o).outcome := by
  have only (k : Nat) (j : Input) (hs : tx.inputs[k]? = some j) (hc : j.isCoinbase = false)
      (hx : ∀ o, j.prevout = some o → (judge k j o).outcome ≠ .ok none) : index = k := by
    by_contra hk
    obtain ⟨o, ho, hp⟩ := others k j hk hs hc
    exact hx o ho hp
  obtain h | ⟨⟨j, k⟩, hp, ⟨hnone, -⟩ | ⟨o', ho', hn', he⟩⟩ := outcome_firstObjection_cases hj (spendingInputs tx)
  · obtain ⟨o', ho', hp⟩ := (outcome_firstObjection_spendingInputs hj tx).1 h index i hi hc
    cases ho.symm.trans ho'
    exact absurd hp hn
  · obtain ⟨hs, hc'⟩ := mem_spendingInputs_iff.1 hp
    obtain rfl := only k j hs hc' fun o ho => by cases hnone.symm.trans ho
    cases hi.symm.trans hs
    cases ho.symm.trans hnone
  · obtain ⟨hs, hc'⟩ := mem_spendingInputs_iff.1 hp
    obtain rfl := only k j hs hc' fun o ho => by
      cases ho'.symm.trans ho
      exact hn'
    cases hi.symm.trans hs
    cases ho.symm.trans ho'
    exact he

theorem validate_eq_of_metadata {objection : Objection} (hs : (checkScripts tx v).outcome = .ok none)
    (hm : (checkMetadata tx).outcome = .ok (some objection)) :
    tx.validate v = .invalid .metadata (.objection objection) := by
  have scripts : Finding.ofCheck (checkScripts tx v) = .valid := (ofCheck_eq_valid_iff _).2 hs
  have metadata : Finding.ofCheck (checkMetadata tx) = .objection objection := by
    rw [Finding.ofCheck, fst_run, hm]
  simp [validate, check, scripts, metadata]

theorem length_witness_of_validate_eq_valid (hv : tx.validate v = .valid) (hi : tx.inputs[index]? = some i)
    (hc : i.isCoinbase = false) (ht : tx.spendType index = .ok .p2wpkh) : i.witness.length = 2 := by
  obtain ⟨o, ho, hp⟩ := exists_passes_of_validate_eq_valid hv hi hc
  exact ((outcome_judgeMetadata index i o).1 hp.metadata).items ((spendType_eq_keyHash_iff hi ho).1 ht)

/-- The metadata check counts the items of a bare key hash. -/
theorem outcome_judgeMetadata_appendWitness (hd : Declared i o) (hp : o.type = .p2wpkh) (hm : more ≠ []) :
    (judgeMetadata index (i.appendWitness more) o).outcome = .ok (some (.witnessItems index (2 + more.length))) := by
  obtain ⟨a, ha, hs⟩ := hd.address
  have hl : (i.appendWitness more).witness.length = 2 + more.length := by
    rw [Input.appendWitness, List.length_append, hd.items hp]
  have hn : 2 + more.length ≠ 2 := by
    have := List.length_pos_iff.2 hm
    omega
  rw [judgeMetadata_eq index hd.length ha hs, hl, if_pos ⟨hp, hn⟩]
  rfl

/-- More items behind the witness of a bare key hash: the scripts hold as before,
the metadata check stops at the input, at their number. -/
theorem validate_appendWitness_keyHash (hv : tx.validate v = .valid) (hi : tx.inputs[index]? = some i)
    (hc : i.isCoinbase = false) (ht : tx.spendType index = .ok .p2wpkh) (hm : more ≠ []) :
    (tx.appendWitness index more).validate v =
      .invalid .metadata (.objection (.witnessItems index (2 + more.length))) := by
  obtain ⟨o, ho, hp⟩ := exists_passes_of_validate_eq_valid hv hi hc
  have hi' := getElem?_appendWitness hi more
  have htype := (spendType_eq_keyHash_iff hi ho).1 ht
  apply validate_eq_of_metadata
  · refine (outcome_firstObjection_spendingInputs (logFree_judgeScripts _ v) _).2 fun k j hj hc => ?_
    by_cases hk : index = k
    · subst hk
      cases hi'.symm.trans hj
      exact ⟨o, ho, (outcome_judgeScripts ((spendType_eq_keyHash_iff hi' ho).2 htype) v _ o).2 trivial⟩
    · obtain ⟨o, ho, hp⟩ := exists_passes_appendWitness hv hk hj hc
      exact ⟨o, ho, hp.scripts⟩
  · have hj : (judgeMetadata index (i.appendWitness more) o).outcome = _ :=
      outcome_judgeMetadata_appendWitness ((outcome_judgeMetadata index i o).1 hp.metadata) htype hm
    have hx := outcome_firstObjection_of_only logFree_judgeMetadata hi' hc ho (by rw [hj]; exact nofun)
      fun k j hk hj hc => by
        obtain ⟨o, ho, hp⟩ := exists_passes_appendWitness hv hk hj hc
        exact ⟨o, ho, hp.metadata⟩
    rw [outcome_checkMetadata_eq, hx, hj]

/-- More items behind the witness of a wrapped key hash leave a valid transaction
valid. -/
theorem validate_appendWitness_wrapped (hv : tx.validate v = .valid) (hi : tx.inputs[index]? = some i)
    (ht : tx.spendType index = .ok .p2shP2wpkh) (more : List Bytes) :
    (tx.appendWitness index more).validate v = .valid := by
  obtain ⟨hf, h⟩ := (validate_eq_valid_iff tx v).1 hv
  rw [validate_eq_valid_iff, fee_appendWitness]
  refine ⟨hf, fun k j hj hc => ?_⟩
  by_cases hk : index = k
  · subst hk
    cases (getElem?_appendWitness hi more).symm.trans hj
    obtain ⟨o, ho, hp⟩ := h index i hi hc
    exact ⟨o, ho, passes_appendWitness_wrapped hi ho ht hp⟩
  · exact exists_passes_appendWitness hv hk hj hc

theorem two_le_length_witness_of_validate_eq_valid (hv : tx.validate v = .valid) (hi : tx.inputs[index]? = some i)
    (hc : i.isCoinbase = false) (ht : tx.spendType index = .ok .p2shP2wpkh) : 2 ≤ i.witness.length := by
  obtain ⟨o, ho, hp⟩ := exists_passes_of_validate_eq_valid hv hi hc
  obtain ⟨-, -, -, _, key, -, hk, -⟩ := (passes_iff_of_spendType hi ho ht v).1 hp
  obtain ⟨hl, -⟩ := List.getElem?_eq_some_iff.1 hk
  exact hl

end Validation

namespace Transaction

open Validation

/-- In a valid transaction, the witness of a bare key hash has two items, and the
metadata check rejects it with any more, for their number. That of a wrapped one
has two items at least, and with any more the transaction is valid as before. More
items make another form with witnesses, a longer one, under the same identifier. -/
theorem keyHashWitness_of_validate_eq_valid {tx : Transaction} {v : Verifier} (hv : tx.validate v = .valid)
    {index : Nat} {i : Input} (hi : tx.inputs[index]? = some i) (hc : i.isCoinbase = false) :
    (tx.spendType index = .ok .p2wpkh → i.witness.length = 2 ∧ ∀ more, more ≠ [] →
      (tx.appendWitness index more).validate v =
        .invalid .metadata (.objection (.witnessItems index (2 + more.length)))) ∧
    (tx.spendType index = .ok .p2shP2wpkh → 2 ≤ i.witness.length ∧ ∀ more,
      (tx.appendWitness index more).validate v = .valid) ∧
    ∀ more, more ≠ [] → (tx.appendWitness index more).txid = tx.txid ∧
      (tx.appendWitness index more).serialize ≠ tx.serialize ∧ tx.weight < (tx.appendWitness index more).weight := by
  refine ⟨fun ht => ⟨length_witness_of_validate_eq_valid hv hi hc ht, fun more hm => ?_⟩, fun ht => ⟨?_, ?_⟩,
    fun more hm => ⟨txid_appendWitness tx index more, ?_, weight_lt_weight_appendWitness hi hm⟩⟩
  · exact validate_appendWitness_keyHash hv hi hc ht hm
  · exact two_le_length_witness_of_validate_eq_valid hv hi hc ht
  · exact validate_appendWitness_wrapped hv hi ht
  · intro he
    have hl := length_serialize_lt_appendWitness hi hm
    rw [he] at hl
    exact Nat.lt_irrefl _ hl

/-- Spends the hash of a key twice, bare and wrapped. -/
def keyHashSpends : Transaction where
  version := 2
  locktime := 0
  inputs := .make ⟨FixedBytes.zero 32, 0⟩ (some (.ofScript 50000 (programV0 sevensHash.val))) [] signatureAndKey
    0xffffffff :: wrappedKeySpend.inputs
  outputs := [.ofScript 40000 [0x51]]

set_option maxRecDepth 100000 in
theorem validate_keyHashSpends : keyHashSpends.validate takesEcdsa = .valid := by decide +kernel

theorem keyHashWitness_keyHashSpends : keyHashSpends.validate takesEcdsa = .valid ∧
    keyHashSpends.spendType 0 = .ok .p2wpkh ∧ keyHashSpends.spendType 1 = .ok .p2shP2wpkh ∧
    (keyHashSpends.appendWitness 0 [[0x2a]]).validate takesEcdsa = .invalid .metadata (.objection (.witnessItems 0 3)) ∧
    (keyHashSpends.appendWitness 1 [[0x2a]]).validate takesEcdsa = .valid ∧
    keyHashSpends.weight < (keyHashSpends.appendWitness 1 [[0x2a]]).weight := by
  have hv := validate_keyHashSpends
  have native : keyHashSpends.spendType 0 = .ok .p2wpkh := by decide +kernel
  have wrapped : keyHashSpends.spendType 1 = .ok .p2shP2wpkh := by decide +kernel
  have first : keyHashSpends.inputs[0]? = some _ := rfl
  have second : keyHashSpends.inputs[1]? = some _ := rfl
  obtain ⟨counted, -, -⟩ := keyHashWitness_of_validate_eq_valid hv first rfl
  obtain ⟨-, ignored, heavier⟩ := keyHashWitness_of_validate_eq_valid hv second rfl
  exact ⟨hv, native, wrapped, (counted native).2 [[0x2a]] (by decide), (ignored wrapped).2 [[0x2a]],
    (heavier [[0x2a]] (by decide)).2.2⟩

/-- The witness of a wrapped key hash may have three items. -/
theorem not_two_items_keyHashSpends : ¬∀ (tx : Transaction) (v : Verifier), tx.validate v = .valid →
    ∀ index i, tx.inputs[index]? = some i → i.isCoinbase = false →
      tx.spendType index = .ok .p2wpkh ∨ tx.spendType index = .ok .p2shP2wpkh → i.witness.length = 2 := by
  intro h
  have wrapped : keyHashSpends.spendType 1 = .ok .p2shP2wpkh := by decide +kernel
  have hv : (keyHashSpends.appendWitness 1 [[0x2a]]).validate takesEcdsa = .valid :=
    validate_appendWitness_wrapped validate_keyHashSpends rfl wrapped [[0x2a]]
  have three := h _ _ hv 1 _ rfl rfl (.inr (by decide +kernel))
  exact absurd three (by decide)

end Transaction

end Bitcoin

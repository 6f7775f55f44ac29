import Bitcoin.Sighash

/-!
# Legacy digests and the transaction as it is signed

What a legacy signature is for is defined by editing a copy of the transaction
(`blanked`): scripts are put into its inputs, then sequence numbers, inputs and
outputs are dropped as the hash type says. The digest is written out without
the copy, part by part; the parts are those of the copy's wire form
(`inputsBytes_eq`, `outputsBytes_eq`), so the digest is the hash of that form
and of the hash type (`digest_eq_hash_blanked`).
-/

namespace Bitcoin.Sighash.Legacy

/-! ## The transaction as it is signed -/

/-- The inputs with a script in the signed one and none in the others. -/
def withScript (index : Nat) (script : Bytes) (is : List Input) : List Input :=
  is.mapIdx fun k i => { i with scriptSig := if k = index then script else [] }

/-- The inputs with sequence numbers of zero, but for the signed one. -/
def withoutSequences (index : Nat) (is : List Input) : List Input :=
  is.mapIdx fun k i => if k = index then i else { i with sequence := 0 }

/-- The inputs of the transaction as it is signed. -/
def signedInputs (tx : Transaction) (index : Nat) (script : Bytes) (t : SighashType) : List Input :=
  let scripted := withScript index script tx.inputs
  let is := if t.coverage = .all then scripted else withoutSequences index scripted
  if t.anyoneCanPay then is[index]?.toList else is

/-- The outputs of the transaction as it is signed; a single one stands behind
outputs of the amount -1 without a script. -/
def signedOutputs (tx : Transaction) (index : Nat) (t : SighashType) : List Output :=
  match t.coverage with
  | .all => tx.outputs
  | .none => []
  | .single => (tx.outputs.take (index + 1)).mapIdx fun k o => if k < index then .ofScript (-1) [] else o

/-- The transaction as it is signed. -/
def blanked (tx : Transaction) (index : Nat) (script : Bytes) (t : SighashType) : Transaction :=
  { tx with inputs := signedInputs tx index script t, outputs := signedOutputs tx index t }

/-! ## Its parts -/

variable {tx : Transaction} {index : Nat} {i : Input}

theorem getElem?_withScript (h : tx.inputs[index]? = some i) (script : Bytes) :
    (withScript index script tx.inputs)[index]? = some { i with scriptSig := script } := by
  simp [withScript, h]

theorem getElem?_withoutSequences {is : List Input} : (withoutSequences index is)[index]? = is[index]? := by
  simp [withoutSequences]

/-- Of the inputs that others may add to, the signed one is left. -/
theorem signedInputs_anyoneCanPay (h : tx.inputs[index]? = some i) (script : Bytes) {t : SighashType}
    (ht : t.anyoneCanPay) : signedInputs tx index script t = [{ i with scriptSig := script }] := by
  simp only [signedInputs, ht, ↓reduceIte]
  split
  · rw [getElem?_withScript h, Option.toList_some]
  · rw [getElem?_withoutSequences, getElem?_withScript h, Option.toList_some]

/-- If inputs are fixed, each is edited in its place. -/
theorem signedInputs_fixed (tx : Transaction) (index : Nat) (script : Bytes) {t : SighashType}
    (ht : ¬ t.anyoneCanPay) : signedInputs tx index script t = tx.inputs.mapIdx fun k i =>
      if k = index then { i with scriptSig := script }
      else { i with scriptSig := [], sequence := if t.coverage = .all then i.sequence else 0 } := by
  have hs : signedInputs tx index script t = if t.coverage = .all then withScript index script tx.inputs
      else withoutSequences index (withScript index script tx.inputs) := if_neg ht
  rw [hs]
  split
  · refine List.mapIdx_eq_mapIdx_iff.2 fun k hk => ?_
    split <;> rfl
  · rw [withoutSequences, withScript, List.mapIdx_mapIdx]
    refine List.mapIdx_eq_mapIdx_iff.2 fun k hk => ?_
    dsimp only [Function.comp_apply]
    split <;> rfl

theorem inputsBytes_eq (h : tx.inputs[index]? = some i) (script : Bytes) (t : SighashType) :
    inputsBytes tx index script t = (blanked tx index script t).inputsBytes := by
  unfold inputsBytes Transaction.inputsBytes
  by_cases ht : t.anyoneCanPay
  · have hs : (blanked tx index script t).inputs = _ := signedInputs_anyoneCanPay h script ht
    rw [if_pos ht, hs, h]
    rfl
  · have hs : (blanked tx index script t).inputs = _ := signedInputs_fixed tx index script ht
    rw [if_neg ht, hs, List.length_mapIdx, List.mapIdx_eq_zipIdx_map, List.flatMap_map]
    congr 2
    funext ⟨i, k⟩
    dsimp only
    split <;> rfl

theorem serialize_blank : (Output.ofScript (-1) []).serialize = blankOutput := rfl

/-- A single output stands behind blank ones, one for each place before it. -/
theorem signedOutputs_single {t : SighashType} (ht : t.coverage = .single) (h : index < tx.outputs.length) :
    signedOutputs tx index t = List.replicate index (.ofScript (-1) []) ++ tx.outputs[index]?.toList := by
  have hl : (tx.outputs.take index).length = index := List.length_take_of_le (Nat.le_of_lt h)
  have hb : (tx.outputs.take index).mapIdx (fun k o => if k < index then Output.ofScript (-1) [] else o) =
      List.replicate index (.ofScript (-1) []) := by
    refine List.eq_replicate_iff.2 ⟨by rw [List.length_mapIdx, hl], fun o ho => ?_⟩
    obtain ⟨k, hk, rfl⟩ := List.mem_mapIdx.1 ho
    exact if_pos (hl ▸ hk)
  rw [signedOutputs, ht, List.getElem?_eq_getElem h, Option.toList_some, ← hb]
  dsimp only
  rw [List.take_succ_eq_append_getElem h, List.mapIdx_concat, hl, if_neg (Nat.lt_irrefl index)]

theorem outputsBytes_eq (script : Bytes) {t : SighashType}
    (h : ¬ (t.coverage = .single ∧ tx.outputs.length ≤ index)) :
    outputsBytes tx index t = (blanked tx index script t).outputsBytes := by
  have ho : (blanked tx index script t).outputs = signedOutputs tx index t := rfl
  unfold outputsBytes Transaction.outputsBytes
  rw [ho]
  split
  · rename_i ht
    simp only [signedOutputs, ht]
  · rename_i ht
    simp only [signedOutputs, ht]
    rfl
  · rename_i ht
    have hlt : index < tx.outputs.length := by
      rw [← Nat.not_le]
      exact fun hle => h ⟨ht, hle⟩
    rw [signedOutputs_single ht hlt, List.flatMap_append, List.flatMap_replicate, serialize_blank,
      List.length_append, List.length_replicate, List.getElem?_eq_getElem hlt, List.append_assoc]
    rfl

/-! ## The digest -/

theorem preimage_eq (h : tx.inputs[index]? = some i) (script : Bytes) {t : SighashType}
    (hs : ¬ (t.coverage = .single ∧ tx.outputs.length ≤ index)) : preimage tx index script t =
      (blanked tx index script t).serializeLegacy ++ Bytes.littleEndian 4 t.byte.toNat := by
  rw [preimage, inputsBytes_eq h, outputsBytes_eq script hs]
  rfl

/-- The digest is the hash of the transaction as it is signed and of the hash
type. It is the number one if the type covers a single output that does not
exist, and there is none for an input that does not exist. -/
theorem digest_eq_hash_blanked (tx : Transaction) (index : Nat) (script : Bytes) (t : SighashType) :
    digest tx index script t =
      if index < tx.inputs.length then
        if t.coverage = .single ∧ tx.outputs.length ≤ index then .ok ⟨0x01 :: List.replicate 31 0, rfl⟩
        else .ok (doubleSha256 ((blanked tx index script t).serializeLegacy ++
          Bytes.littleEndian 4 t.byte.toNat))
      else .error (.input (.inputIndex index)) := by
  unfold digest Transaction.input
  by_cases h : index < tx.inputs.length
  · rw [if_pos h, List.getElem?_eq_getElem h]
    show (if _ then _ else _) = _
    split
    · rfl
    · rename_i hs
      rw [preimage_eq (List.getElem?_eq_getElem h) script hs]
      rfl
  · rw [if_neg h, List.getElem?_eq_none (Nat.le_of_not_lt h)]
    rfl

end Bitcoin.Sighash.Legacy

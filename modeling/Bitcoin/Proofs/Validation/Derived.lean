import Bitcoin.Proofs.Address
import Bitcoin.Proofs.Validation.Conditions

/-!
# Derived addresses

An output of a bare script has an address exactly if its type has one
(`address_ne_none_iff`), and the address decodes to the script (`decode_address`).
All that the metadata check can have against such an output is a number of witness
items (`judgeMetadata_ofScript`), and where it stops at one, it says so
(`of_stopsAt_ofScript`). So a transaction that spends such outputs only is rejected
there for that or for its fee, if it is (`outcome_checkMetadata_of_derived`).
-/

namespace Bitcoin

open OutputType (classify addressed)

theorem OutputType.scriptLength?_of_fits {type : OutputType} {script : Bytes} (h : type.Fits script) :
    type.scriptLength? = some script.length := by
  cases type with
  | p2pkh | p2sh =>
    obtain ⟨hash, hl, rfl⟩ := h
    simp [scriptLength?, Script.payToKeyHash, Script.payToScriptHash, hl]
  | p2wpkh | p2wsh | p2tr =>
    obtain ⟨program, hl, rfl⟩ := h
    simp [scriptLength?, Script.payToProgram, hl]
  | opReturn | other => exact h.elim

namespace Validation

open Check

section FirstObjection

variable {judge : Nat → Input → Output → Check (Option Objection)}
  (hj : ∀ index i o, (judge index i o).LogFree)
include hj

/-- A check that does not pass stops at one of the inputs, by induction on them. -/
theorem outcome_firstObjection_cases : ∀ inputs : List (Input × Nat),
    (firstObjection judge inputs).outcome = .ok none ∨ ∃ p ∈ inputs,
      (p.1.prevout = none ∧ (firstObjection judge inputs).outcome = .error (.missingPrevout p.2)) ∨
      ∃ o, p.1.prevout = some o ∧ (judge p.2 p.1 o).outcome ≠ .ok none ∧
        (firstObjection judge inputs).outcome = (judge p.2 p.1 o).outcome
  | [] => .inl rfl
  | (i, index) :: rest => by
    cases ho : i.prevout with
    | none =>
      refine .inr ⟨(i, index), List.mem_cons_self, .inl ⟨ho, ?_⟩⟩
      rw [firstObjection, ho]
      rfl
    | some o =>
      rw [outcome_firstObjection_cons_eq hj ho]
      by_cases hc : (judge index i o).outcome = .ok none
      · rw [hc]
        obtain h | ⟨p, hp, h⟩ := outcome_firstObjection_cases rest
        · exact .inl h
        · exact .inr ⟨p, List.mem_cons_of_mem _ hp, h⟩
      · refine .inr ⟨(i, index), List.mem_cons_self, .inr ⟨o, ho, hc, ?_⟩⟩
        split
        · rename_i hn
          exact absurd hn hc
        · rfl

end FirstObjection

/-- The metadata check stops at an input and comes to what there is against its
prevout. -/
structure StopsAt (tx : Transaction) (index : Nat) (i : Input) (o : Output) : Prop where
  input : tx.inputs[index]? = some i
  spends : i.isCoinbase = false
  prevout : i.prevout = some o
  against : (judgeMetadata index i o).outcome ≠ .ok none
  outcome : (checkMetadata tx).outcome = (judgeMetadata index i o).outcome

/-- The metadata check passes, has the fee against the transaction, misses a
prevout or stops at one. -/
theorem outcome_checkMetadata_cases (tx : Transaction) :
    (checkMetadata tx).outcome = .ok none ∨ (checkMetadata tx).outcome = .ok (some (.negativeFee tx.fee)) ∨
      (∃ (index : Nat) (i : Input), tx.inputs[index]? = some i ∧ i.isCoinbase = false ∧ i.prevout = none ∧
        (checkMetadata tx).outcome = .error (.missingPrevout index)) ∨
      ∃ index i o, StopsAt tx index i o := by
  have hx := outcome_checkMetadata_eq tx
  obtain h | ⟨⟨i, index⟩, hp, hn | ⟨o, ho, hc, h⟩⟩ :=
    outcome_firstObjection_cases logFree_judgeMetadata (spendingInputs tx)
  · rw [h] at hx
    by_cases hf : tx.fee < 0
    · exact .inr (.inl (by rw [hx, if_pos hf]))
    · exact .inl (by rw [hx, if_neg hf])
  · obtain ⟨hi, hs⟩ := mem_spendingInputs_iff.1 hp
    exact .inr (.inr (.inl ⟨index, i, hi, hs, hn.1, by rw [hx, hn.2]⟩))
  · obtain ⟨hi, hs⟩ := mem_spendingInputs_iff.1 hp
    refine .inr (.inr (.inr ⟨index, i, o, hi, hs, ho, hc, ?_⟩))
    rw [hx, h]
    split
    · rename_i hn
      exact absurd hn hc
    · rfl

end Validation

namespace Output

open Validation

variable {value : Amount} {script : Bytes}

theorem exists_address_of_mem (value : Amount) (h : classify script ∈ addressed) :
    ∃ a, (ofScript value script).address = some a ∧ Address.decode a = .ok script := by
  obtain ⟨a, ha, hd⟩ := Address.exists_decode_of_fits (OutputType.fits_of_classify rfl h)
  exact ⟨a, toOption_eq_some_iff.2 ha, hd⟩

theorem address_ne_none_iff : (ofScript value script).address ≠ none ↔ classify script ∈ addressed := by
  constructor
  · intro h
    false_or_by_contra
    rename_i hn
    exact h (Address.toOption_encode_of_not_mem hn script)
  · intro h
    obtain ⟨a, ha, -⟩ := exists_address_of_mem value h
    exact ha ▸ Option.some_ne_none a

/-- An address that is derived from a script decodes to it. -/
theorem decode_address {a : String} (h : (ofScript value script).address = some a) :
    Address.decode a = .ok script := by
  obtain ⟨b, hb, hd⟩ := exists_address_of_mem value (address_ne_none_iff.1 (h ▸ Option.some_ne_none a))
  rw [h, Option.some.injEq] at hb
  exact hb ▸ hd

/-- All that the metadata check can have against a derived prevout is the number
of witness items of a key hash. -/
theorem judgeMetadata_ofScript (value : Amount) (h : classify script ∈ addressed) (index : Nat) (i : Input) :
    judgeMetadata index i (ofScript value script) = pure
      (if classify script = .p2wpkh ∧ i.witness.length ≠ 2 then some (.witnessItems index i.witness.length)
        else none) := by
  obtain ⟨a, ha, hd⟩ := exists_address_of_mem value h
  exact judgeMetadata_eq index (OutputType.scriptLength?_of_fits (OutputType.fits_of_classify rfl h)) ha hd

theorem of_stopsAt_ofScript {tx : Transaction} {index : Nat} {i : Input} (h : classify script ∈ addressed)
    (hs : StopsAt tx index i (ofScript value script)) : classify script = .p2wpkh ∧ i.witness.length ≠ 2 ∧
      (checkMetadata tx).outcome = .ok (some (.witnessItems index i.witness.length)) := by
  have hj := judgeMetadata_ofScript value h index i
  have ha := hs.against
  rw [hs.outcome]
  rw [hj] at ha ⊢
  split at ha
  · rename_i hw
    rw [if_pos hw]
    exact ⟨hw.1, hw.2, rfl⟩
  · exact absurd rfl ha

/-- A transaction that spends derived prevouts is rejected for its fee or for a
number of witness items, if it is. -/
theorem outcome_checkMetadata_of_derived {tx : Transaction}
    (h : ∀ i ∈ tx.inputs, i.isCoinbase = false →
      ∃ value script, classify script ∈ addressed ∧ i.prevout = some (ofScript value script)) :
    (checkMetadata tx).outcome = .ok none ∨ (checkMetadata tx).outcome = .ok (some (.negativeFee tx.fee)) ∨
      ∃ index count, (checkMetadata tx).outcome = .ok (some (.witnessItems index count)) := by
  obtain hx | hx | ⟨index, i, hi, hs, hn, -⟩ | ⟨index, i, o, hx⟩ := outcome_checkMetadata_cases tx
  · exact .inl hx
  · exact .inr (.inl hx)
  · obtain ⟨value, script, -, ho⟩ := h i (List.mem_of_getElem? hi) hs
    rw [hn] at ho
    cases ho
  · obtain ⟨value, script, hc, ho⟩ := h i (List.mem_of_getElem? hx.input) hx.spends
    rw [hx.prevout, Option.some.injEq] at ho
    subst ho
    exact .inr (.inr ⟨_, _, (of_stopsAt_ofScript hc hx).2.2⟩)

/-- An output of a bare script has an address exactly if it has one of the types
with addresses; the address decodes to the script, so no two scripts share one;
and the metadata check has nothing against such a prevout, and never stops at it,
but for the number of witness items of a key hash. -/
theorem derived_address_stands_for_script (value : Amount) (script : Bytes) :
    ((ofScript value script).address ≠ none ↔ classify script ∈ addressed) ∧
      (∀ a, (ofScript value script).address = some a → Address.decode a = .ok script) ∧
      (classify script ∈ addressed → ∀ value' script',
        (ofScript value' script').address = (ofScript value script).address → script' = script) ∧
      (classify script ∈ addressed → ∀ index i, judgeMetadata index i (ofScript value script) = pure
        (if classify script = .p2wpkh ∧ i.witness.length ≠ 2 then some (.witnessItems index i.witness.length)
          else none)) ∧
      (classify script ∈ addressed → ∀ tx index i, StopsAt tx index i (ofScript value script) →
        classify script = .p2wpkh ∧ i.witness.length ≠ 2 ∧
          (checkMetadata tx).outcome = .ok (some (.witnessItems index i.witness.length))) := by
  refine ⟨address_ne_none_iff, fun a => decode_address, ?_, judgeMetadata_ofScript value,
    fun h tx index i => of_stopsAt_ofScript h⟩
  intro h value' script' he
  obtain ⟨a, ha, hd⟩ := exists_address_of_mem value h
  have hd' := decode_address (he.trans ha)
  rw [hd, Except.ok.injEq] at hd'
  exact hd'.symm

/-- The script that pays to a key hash of zeros as a witness program. -/
def zeroKeyHash : Bytes := Script.payToProgram 0 (List.replicate 20 0)

/-- An input that spends it without a witness. -/
def bareInput : Input := .make ⟨FixedBytes.zero 32, 0⟩ (some (ofScript 1000 zeroKeyHash)) [] [] 0

theorem derived_address_zeroKeyHash :
    (ofScript 1000 zeroKeyHash).address = some "bc1qqqqqqqqqqqqqqqqqqqqqqqqqqqqqqqqq9e75rs" ∧
      Address.decode "bc1qqqqqqqqqqqqqqqqqqqqqqqqqqqqqqqqq9e75rs" = .ok zeroKeyHash ∧
      (∀ value script, (ofScript value script).address = some "bc1qqqqqqqqqqqqqqqqqqqqqqqqqqqqqqqqq9e75rs" →
        script = zeroKeyHash) ∧
      judgeMetadata 0 bareInput (ofScript 1000 zeroKeyHash) = pure (some (.witnessItems 0 0)) ∧
      (checkMetadata ⟨2, 0, [bareInput], []⟩).outcome = .ok (some (.witnessItems 0 0)) := by
  have ha : (ofScript 1000 zeroKeyHash).address = some "bc1qqqqqqqqqqqqqqqqqqqqqqqqqqqqqqqqq9e75rs" := by
    decide +kernel
  have hc : classify zeroKeyHash ∈ addressed := by decide
  obtain ⟨-, decodes, injective, judged, stops⟩ := derived_address_stands_for_script 1000 zeroKeyHash
  have hj : judgeMetadata 0 bareInput (ofScript 1000 zeroKeyHash) = pure (some (.witnessItems 0 0)) :=
    judged hc 0 bareInput
  have hs : StopsAt ⟨2, 0, [bareInput], []⟩ 0 bareInput (ofScript 1000 zeroKeyHash) := by
    have hf : (firstObjection judgeMetadata [(bareInput, 0)]).outcome = .ok (some (.witnessItems 0 0)) := by
      rw [outcome_firstObjection_cons_eq logFree_judgeMetadata rfl, hj]
      rfl
    refine ⟨rfl, rfl, rfl, by rw [hj]; exact nofun, ?_⟩
    have hi : spendingInputs ⟨2, 0, [bareInput], []⟩ = [(bareInput, 0)] := rfl
    rw [outcome_checkMetadata_eq, hi, hf, hj]
    rfl
  exact ⟨ha, decodes _ ha, fun value script h => injective hc value script (h.trans ha.symm), hj,
    (stops hc _ 0 bareInput hs).2.2⟩

end Output

end Bitcoin

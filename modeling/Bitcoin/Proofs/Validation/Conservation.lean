import Mathlib.Data.List.Pairwise
import Bitcoin.Proofs.Amount
import Bitcoin.Proofs.Validation.Native

/-!
# What the outputs of valid transactions hold

Validation compares amounts by the sign of the fee alone, which is that of sums
that stop at their bounds (`fee_nonneg_iff`). So the outputs of a valid
transaction hold no more than its inputs spend as far as such sums tell
(`Covers`), hence as numbers where they do not stop. Nothing more is checked: an
output may be negative, an outpoint counts as often as it is spent, and a sum may
stop (`not_conserves_openSpend`).
-/

namespace Bitcoin

open Amount

namespace Amount

/-- The sum of some amounts stops at the upper bound only, or nowhere. -/
def StopsAbove (xs : List Amount) : Prop := (∀ x ∈ xs, 0 ≤ x) ∨ (checkedSum? xs).isSome

theorem StopsAbove.toInt_saturatingSum_le {xs : List Amount} (h : StopsAbove xs) :
    (saturatingSum xs).toInt ≤ exactSum xs := by
  obtain h | h := h
  · rw [toInt_saturatingSum h]
    exact Int.min_le_left _ _
  · exact Int.le_of_eq (toInt_saturatingSum_of_checkedSum? h)

/-- Some amounts cover others as far as their saturating sums tell: exactly if the
sum of the others passes no bound, and up to the upper bound if none of them is
negative. -/
structure Covers (spent made : List Amount) : Prop where
  saturating : (saturatingSum made).toInt ≤ (saturatingSum spent).toInt
  exact : StopsAbove spent → (checkedSum? made).isSome → exactSum made ≤ exactSum spent
  bounded : StopsAbove spent → (∀ x ∈ made, 0 ≤ x) → min (exactSum made) Int64.maxValue.toInt ≤ exactSum spent

theorem covers_of_saturatingSum_le {spent made : List Amount}
    (h : (saturatingSum made).toInt ≤ (saturatingSum spent).toInt) : Covers spent made where
  saturating := h
  exact hs hm := by
    rw [← toInt_saturatingSum_of_checkedSum? hm]
    exact Int.le_trans h hs.toInt_saturatingSum_le
  bounded hs hm := by
    rw [← toInt_saturatingSum hm]
    exact Int.le_trans h hs.toInt_saturatingSum_le

end Amount

namespace Transaction

open Validation Script

/-- One input for each outpoint that is spent. -/
def distinctInputs (tx : Transaction) : List Input := tx.inputs.pwFilter fun i j => i.outpoint ≠ j.outpoint

/-- The amounts of the known prevouts, of which each outpoint's counts once. -/
def distinctInputValues (tx : Transaction) : List Amount :=
  tx.distinctInputs.filterMap fun i => i.prevout.map Output.value

theorem distinctInputValues_eq {tx : Transaction} (h : (tx.inputs.map Input.outpoint).Nodup) :
    tx.distinctInputValues = tx.inputValues := by
  rw [distinctInputValues, distinctInputs, List.pwFilter_eq_self.2 (List.pairwise_map.1 h), inputValues]

theorem fee_nonneg_iff {tx : Transaction} :
    0 ≤ tx.fee ↔ (saturatingSum tx.outputValues).toInt ≤ (saturatingSum tx.inputValues).toInt := by
  rw [fee, saturate_nonneg_iff]
  exact Int.sub_nonneg

/-- What the outputs of a valid transaction hold is covered by what its inputs
spend, each outpoint counted once if none is spent twice. -/
theorem covers_of_validate_eq_valid {tx : Transaction} {v : Verifier} (hv : tx.validate v = .valid) :
    Covers tx.inputValues tx.outputValues ∧
      ((tx.inputs.map Input.outpoint).Nodup → Covers tx.distinctInputValues tx.outputValues) := by
  have hc : Covers tx.inputValues tx.outputValues :=
    covers_of_saturatingSum_le (fee_nonneg_iff.1 ((validate_eq_valid_iff tx v).1 hv).1)
  refine ⟨hc, fun hd => ?_⟩
  rw [distinctInputValues_eq hd]
  exact hc

/-! ## What is not checked -/

/-- The program for the hash of a script that pushes one. -/
def openProgram : Bytes := programV0 (sha256 [0x51]).val

set_option maxRecDepth 100000 in
theorem openProgram_address : ∃ a, (Address.encode .p2wsh openProgram).toOption = some a ∧
    Address.decode a = .ok openProgram := by
  have h : ((Address.encode .p2wsh openProgram).toOption.bind fun a => (Address.decode a).toOption) =
      some openProgram := by decide +kernel
  obtain ⟨a, ha, hd⟩ := Option.bind_eq_some_iff.1 h
  exact ⟨a, ha, toOption_eq_some_iff.1 hd⟩

theorem accepts_pushOne (c : Context) : Accepts c [] [0x51] := by
  have hd : Script.decode [0x51] = ⟨[.op 0x51], none⟩ := by decide +kernel
  unfold Accepts executeBool execute
  rw [hd]
  rfl

/-- An input that spends an amount held by the program. -/
def openInput (value : Amount) : Input :=
  .make ⟨FixedBytes.zero 32, 1⟩ (some (.ofScript value openProgram)) [] [[0x51]] 0xffffffff

/-- Spends some amounts, which all are said to be those of one outpoint, and makes
others. -/
def openSpend (spent made : List Amount) : Transaction where
  version := 2
  locktime := 0
  inputs := spent.map openInput
  outputs := made.map fun value => .ofScript value [0x51]

/-- Such inputs pass whatever the amounts. -/
theorem validate_openSpend_iff (spent made : List Amount) (v : Verifier) :
    (openSpend spent made).validate v = .valid ↔ 0 ≤ (openSpend spent made).fee := by
  rw [validate_eq_valid_iff]
  refine and_iff_left fun index i hi _ => ?_
  obtain ⟨value, -, rfl⟩ := List.mem_map.1 (List.mem_of_getElem? hi)
  have ht : OutputType.classify openProgram = .p2wsh := by decide +kernel
  have hw : SpendsScriptHash (openSpend spent made) v index (openInput value) (.ofScript value openProgram) :=
    ⟨[], [0x51], rfl, programV0_eq _, accepts_pushOne _⟩
  obtain ⟨a, ha, hd⟩ := openProgram_address
  refine ⟨_, rfl, (passes_iff_of_program hi rfl v ?_).2 ⟨⟨a, ?_, hd⟩, ?_⟩⟩
  · simp [Output.ofScript, ht]
  · simpa only [Output.ofScript, ht] using ha
  · simpa only [SpendsProgram, Output.ofScript, ht] using hw

/-- Valid transactions with a negative output, with an outpoint that is spent twice
for more than it holds, and with outputs whose sum stops at the upper bound. -/
theorem not_conserves_openSpend :
    ((openSpend [50000] [70000, -30000]).validate .rejecting = .valid ∧
      ¬ ∀ o ∈ (openSpend [50000] [70000, -30000]).outputs, 0 ≤ o.value) ∧
    ((openSpend [50000, 50000] [90000]).validate .rejecting = .valid ∧
      ¬ exactSum (openSpend [50000, 50000] [90000]).outputValues ≤
        exactSum (openSpend [50000, 50000] [90000]).distinctInputValues) ∧
    ((openSpend [.maxValue] [.maxValue, .maxValue]).validate .rejecting = .valid ∧
      ¬ exactSum (openSpend [.maxValue] [.maxValue, .maxValue]).outputValues ≤
        exactSum (openSpend [.maxValue] [.maxValue, .maxValue]).distinctInputValues) := by
  refine ⟨⟨?_, by decide +kernel⟩, ⟨?_, by decide +kernel⟩, ⟨?_, by decide +kernel⟩⟩
  all_goals
    rw [validate_openSpend_iff]
    decide +kernel

theorem covers_openSpend : (openSpend [50000] [70000, -30000]).validate .rejecting = .valid ∧
    Covers (openSpend [50000] [70000, -30000]).inputValues (openSpend [50000] [70000, -30000]).outputValues ∧
      (((openSpend [50000] [70000, -30000]).inputs.map Input.outpoint).Nodup →
        Covers (openSpend [50000] [70000, -30000]).distinctInputValues
          (openSpend [50000] [70000, -30000]).outputValues) := by
  have hv : (openSpend [50000] [70000, -30000]).validate .rejecting = .valid :=
    (validate_openSpend_iff _ _ _).2 (by decide +kernel)
  exact ⟨hv, covers_of_validate_eq_valid hv⟩

end Transaction

end Bitcoin

import Bitcoin.Proofs.Script.Log
import Bitcoin.Proofs.Wire.Fields
import Bitcoin.Validation

/-!
# Valid transactions

What the judges of the four checks do only adds to the log, so a check passes
exactly if its judge has nothing against any of the inputs that spend outputs
(`outcome_firstObjection`). A transaction is valid exactly if its fee is not
negative and each of these inputs passes all four judges
(`validate_eq_valid_iff`): none slips between the checks.
-/

namespace Bitcoin

namespace Taproot

open Check

theorem logFree_verifyScriptPath (key : FixedBytes 32) (script control : Bytes) (v : Verifier) :
    (verifyScriptPath key script control v).LogFree := by
  refine .bind (.ofExcept _) fun c => ?_
  dsimp only
  split
  · exact .pure _
  · exact .bind (.tweak _ _ _) fun _ => .pure _

theorem logFree_verifyKeyPath (tx : Transaction) (index : Nat) (v : Verifier) :
    (verifyKeyPath tx index v).LogFree := by
  refine .bind (.ofExcept _) fun i => .bind (.ofExcept _) fun o => ?_
  split
  · exact .throw _
  · split
    · exact .bind (.ofExcept _) fun _ => .bind (.ofExcept _) fun _ => .schnorr _ _ _ _
    · exact .throw _

end Taproot

namespace Validation

open Check Script

/-! ## The judges and the log -/

theorem logFree_forM_push : ∀ items : List Bytes, (items.forM Run.push).LogFree
  | [] => .pure _
  | item :: items => .bind (.push item) fun _ => logFree_forM_push items

theorem logFree_runOn (context : Context) (items : List Bytes) (script : Bytes) :
    (runOn context items script).LogFree :=
  .bind (fun _ _ => rfl) fun _ => .bind (logFree_forM_push items) fun _ => logFree_executeBool _ _

theorem logFree_runTop (context : Context) : ∀ unlocking, (runTop context unlocking).LogFree
  | redeem :: items => logFree_runOn context items.reverse redeem
  | [] => .throw _

theorem logFree_runRedeemed (context : Context) (i : Input) (o : Output) (type : SpendType)
    (unlocking : List Bytes) : (runRedeemed context i o type unlocking).LogFree := by
  unfold runRedeemed
  dsimp only
  split
  · exact .bind (.ofExcept _) fun _ => .bind (.ofExcept _) fun _ => .bind (.ofExcept _) fun _ =>
      .bind (.ofExcept _) fun _ => logFree_runOn _ _ _
  · exact .bind (.ofExcept _) fun _ => logFree_runOn _ _ _
  · exact logFree_runTop _ _

theorem logFree_runInput (tx : Transaction) (v : Verifier) (index : Nat) (i : Input) (o : Output)
    (type : SpendType) : (runInput tx v index i o type).LogFree := by
  have run : ∀ type unlocking, (do
      if ← executeBool (some ⟨tx, index, v, .base⟩) o.script then
        runRedeemed ⟨tx, index, v, .base⟩ i o type unlocking
      else return false : Run Bool).LogFree := fun type unlocking => by
    refine .bind (logFree_executeBool _ _) fun holds => ?_
    split
    · exact logFree_runRedeemed _ _ _ _ _
    · exact .pure _
  unfold runInput
  dsimp only
  split
  · exact .pure _
  · exact .pure _
  · exact .pure _
  · exact .bind (.ofExcept _) fun _ => logFree_runOn _ _ _
  all_goals exact .bind (logFree_execute _ _) fun _ => .get_bind (fun _ _ => rfl) fun m => run _ m.stack

theorem logFree_judgeScripts (tx : Transaction) (v : Verifier) (index : Nat) (i : Input) (o : Output) :
    (judgeScripts tx v index i o).LogFree :=
  .bind (.ofExcept _) fun _ => .bind (Run.logFree_toCheck (logFree_runInput _ _ _ _ _ _)) fun _ => .pure _

theorem logFree_judgeMetadata (index : Nat) (i : Input) (o : Output) : (judgeMetadata index i o).LogFree := by
  unfold judgeMetadata
  split
  · exact .pure _
  · split
    · exact .pure _
    · split
      · exact .pure _
      · split
        · exact .pure _
        · split
          · exact .pure _
          · exact .bind (.ofExcept _) fun _ => .pure _

theorem logFree_judgeHashes (tx : Transaction) (index : Nat) (i : Input) (o : Output) :
    (judgeHashes tx index i o).LogFree := by
  refine .bind (.ofExcept _) fun type => .bind (.ofExcept _) fun unlocked => ?_
  split <;> exact .pure _

theorem logFree_verifyDer (v : Verifier) (sig key : Bytes) (digest : SighashType → Except Error Hash256) :
    (verifyDer v sig key digest).LogFree :=
  .bind (.ofExcept _) fun _ => .bind (.ofExcept _) fun _ => .bind (.ofExcept _) fun _ => .ecdsa _ _ _ _

theorem logFree_verifyKeyWitness (tx : Transaction) (v : Verifier) (index : Nat) (i : Input) (o : Output) :
    (verifyKeyWitness tx v index i o).LogFree :=
  .bind (.ofExcept _) fun _ => .bind (.ofExcept _) fun _ => logFree_verifyDer _ _ _ _

theorem logFree_judgeSignature (tx : Transaction) (v : Verifier) (index : Nat) (i : Input) (o : Output) :
    (judgeSignature tx v index i o).LogFree := by
  refine .bind (.ofExcept _) fun type => ?_
  split
  · refine .bind (.ofExcept _) fun items => ?_
    split
    · exact .bind (logFree_verifyDer _ _ _ _) fun _ => .pure _
    · exact .pure _
  · exact .bind (logFree_verifyKeyWitness _ _ _ _ _) fun _ => .pure _
  · exact .bind (logFree_verifyKeyWitness _ _ _ _ _) fun _ => .pure _
  · split
    · exact .bind (Taproot.logFree_verifyKeyPath _ _ _) fun _ => .pure _
    · split
      · exact .throw _
      · split
        · exact .pure _
        · exact .bind (Taproot.logFree_verifyScriptPath _ _ _ _) fun _ => .pure _
  all_goals exact .pure _

/-! ## The verdict -/

theorem mem_spendingInputs_iff {tx : Transaction} {i : Input} {index : Nat} :
    (i, index) ∈ spendingInputs tx ↔ tx.inputs[index]? = some i ∧ i.isCoinbase = false := by
  simp [spendingInputs, List.mem_zipIdx_iff_getElem?]

section FirstObjection

variable {judge : Nat → Input → Output → Check (Option Objection)}
  (hj : ∀ index i o, (judge index i o).LogFree)
include hj

theorem logFree_firstObjection : ∀ inputs, (firstObjection judge inputs).LogFree
  | [] => .pure _
  | (i, index) :: rest => by
    rw [firstObjection]
    split
    · exact .throw _
    · refine .bind (hj _ _ _) fun objection => ?_
      split
      · exact .pure _
      · exact logFree_firstObjection rest

theorem outcome_firstObjection_cons_eq {i : Input} {o : Output} (ho : i.prevout = some o) (index : Nat)
    (rest : List (Input × Nat)) : (firstObjection judge ((i, index) :: rest)).outcome =
      match (judge index i o).outcome with
      | .ok none => (firstObjection judge rest).outcome
      | found => found := by
  rw [firstObjection, ho]
  dsimp only
  rw [outcome_bind]
  · rcases (judge index i o).outcome with e | _ | objection <;> rfl
  · intro found
    split
    · exact .pure _
    · exact logFree_firstObjection hj rest

theorem outcome_firstObjection_cons {i : Input} {o : Output} (ho : i.prevout = some o) (index : Nat)
    (rest : List (Input × Nat)) : (firstObjection judge ((i, index) :: rest)).outcome = .ok none ↔
      (judge index i o).outcome = .ok none ∧ (firstObjection judge rest).outcome = .ok none := by
  rw [outcome_firstObjection_cons_eq hj ho]
  rcases (judge index i o).outcome with e | _ | objection <;> simp

/-- A check objects to nothing exactly if its judge does not to any input, by
induction on the inputs. -/
theorem outcome_firstObjection : ∀ inputs, (firstObjection judge inputs).outcome = .ok none ↔
    ∀ p ∈ inputs, ∃ o, p.1.prevout = some o ∧ (judge p.2 p.1 o).outcome = .ok none
  | [] => by simp [firstObjection]
  | (i, index) :: rest => by
    rw [List.forall_mem_cons, ← outcome_firstObjection rest]
    cases ho : i.prevout with
    | none => simp [firstObjection, ho]
    | some o => simp [outcome_firstObjection_cons hj ho]

theorem outcome_firstObjection_spendingInputs (tx : Transaction) :
    (firstObjection judge (spendingInputs tx)).outcome = .ok none ↔
      ∀ index i, tx.inputs[index]? = some i → i.isCoinbase = false →
        ∃ o, i.prevout = some o ∧ (judge index i o).outcome = .ok none := by
  rw [outcome_firstObjection hj]
  constructor
  · exact fun h index i hi hc => h (i, index) (mem_spendingInputs_iff.2 ⟨hi, hc⟩)
  · intro h ⟨i, index⟩ hp
    obtain ⟨hi, hc⟩ := mem_spendingInputs_iff.1 hp
    exact h index i hi hc

end FirstObjection

/-- What it takes for an input to pass: none of the judges has anything
against it. -/
structure Passes (tx : Transaction) (v : Verifier) (index : Nat) (i : Input) (o : Output) : Prop where
  scripts : (judgeScripts tx v index i o).outcome = .ok none
  metadata : (judgeMetadata index i o).outcome = .ok none
  hashes : (judgeHashes tx index i o).outcome = .ok none
  signature : (judgeSignature tx v index i o).outcome = .ok none

theorem ofCheck_eq_valid_iff (c : Check (Option Objection)) : Finding.ofCheck c = .valid ↔ c.outcome = .ok none := by
  rw [Finding.ofCheck, fst_run]
  rcases c.outcome with e | _ | objection <;> simp

theorem outcome_checkMetadata_eq (tx : Transaction) : (checkMetadata tx).outcome =
    match (firstObjection judgeMetadata (spendingInputs tx)).outcome with
    | .ok none => .ok (if tx.fee < 0 then some (.negativeFee tx.fee) else none)
    | found => found := by
  rw [checkMetadata, outcome_bind]
  · rcases (firstObjection judgeMetadata (spendingInputs tx)).outcome with e | _ | objection <;> rfl
  · intro found
    split <;> exact .pure _

theorem outcome_checkMetadata (tx : Transaction) : (checkMetadata tx).outcome = .ok none ↔
    0 ≤ tx.fee ∧ (firstObjection judgeMetadata (spendingInputs tx)).outcome = .ok none := by
  rw [outcome_checkMetadata_eq]
  rcases (firstObjection judgeMetadata (spendingInputs tx)).outcome with e | _ | objection <;> simp

end Validation

open Validation

/-- A transaction is valid if all four checks come to nothing against it. -/
theorem Transaction.validate_eq_valid_iff_checks (tx : Transaction) (v : Verifier) :
    tx.validate v = .valid ↔ ∀ k, (check tx v k).outcome = .ok none := by
  have hf : tx.validate v = .valid ↔
      ([.script, .metadata, .hash, .signature].map fun k => (k, Finding.ofCheck (check tx v k))).find?
        (fun p => p.2 ≠ .valid) = none := by
    unfold validate
    dsimp only
    split
    · rename_i h
      rw [h]
      exact ⟨nofun, nofun⟩
    · rename_i h
      exact iff_of_true rfl h
  rw [hf, List.find?_eq_none]
  simp only [← ofCheck_eq_valid_iff]
  constructor
  · intro h k
    cases k <;> simp_all
  · intro h
    simp_all

/-- The verdict is `valid` exactly if the fee is not negative and every input
but coinbase inputs has a prevout and passes. -/
theorem Transaction.validate_eq_valid_iff (tx : Transaction) (v : Verifier) : tx.validate v = .valid ↔
    0 ≤ tx.fee ∧ ∀ index i, tx.inputs[index]? = some i → i.isCoinbase = false →
      ∃ o, i.prevout = some o ∧ Passes tx v index i o := by
  rw [validate_eq_valid_iff_checks]
  have scripts := outcome_firstObjection_spendingInputs (logFree_judgeScripts tx v) tx
  have metadata := outcome_firstObjection_spendingInputs logFree_judgeMetadata tx
  have hashes := outcome_firstObjection_spendingInputs (logFree_judgeHashes tx) tx
  have signature := outcome_firstObjection_spendingInputs (logFree_judgeSignature tx v) tx
  constructor
  · intro h
    obtain ⟨hf, hm⟩ := (outcome_checkMetadata tx).1 (h .metadata)
    refine ⟨hf, fun index i hi hc => ?_⟩
    obtain ⟨o, ho, hs⟩ := scripts.1 (h .script) index i hi hc
    obtain ⟨o₁, ho₁, hm⟩ := metadata.1 hm index i hi hc
    obtain ⟨o₂, ho₂, hh⟩ := hashes.1 (h .hash) index i hi hc
    obtain ⟨o₃, ho₃, hg⟩ := signature.1 (h .signature) index i hi hc
    cases ho.symm.trans ho₁
    cases ho.symm.trans ho₂
    cases ho.symm.trans ho₃
    exact ⟨o, ho, hs, hm, hh, hg⟩
  · intro ⟨hf, h⟩ k
    have all {judge : Nat → Input → Output → Check (Option Objection)}
        (hp : ∀ index i o, Passes tx v index i o → (judge index i o).outcome = .ok none) (index : Nat)
        (i : Input) (hi : tx.inputs[index]? = some i) (hc : i.isCoinbase = false) :
        ∃ o, i.prevout = some o ∧ (judge index i o).outcome = .ok none := by
      obtain ⟨o, ho, p⟩ := h index i hi hc
      exact ⟨o, ho, hp index i o p⟩
    cases k with
    | script => exact scripts.2 (all fun _ _ _ p => p.scripts)
    | metadata => exact (outcome_checkMetadata tx).2 ⟨hf, metadata.2 (all fun _ _ _ p => p.metadata)⟩
    | hash => exact hashes.2 (all fun _ _ _ p => p.hashes)
    | signature => exact signature.2 (all fun _ _ _ p => p.signature)

namespace Transaction

variable {tx : Transaction} {v : Verifier} {index : Nat} {i : Input} {o : Output}

theorem exists_passes_of_validate_eq_valid (hv : tx.validate v = .valid) (hi : tx.inputs[index]? = some i)
    (hc : i.isCoinbase = false) : ∃ o, i.prevout = some o ∧ Passes tx v index i o :=
  ((validate_eq_valid_iff tx v).1 hv).2 index i hi hc

/-- In a valid transaction, an input with a known prevout passes. -/
theorem passes_of_validate_eq_valid (hv : tx.validate v = .valid) (hi : tx.inputs[index]? = some i)
    (hc : i.isCoinbase = false) (ho : i.prevout = some o) : Passes tx v index i o := by
  obtain ⟨o', ho', h⟩ := exists_passes_of_validate_eq_valid hv hi hc
  cases ho.symm.trans ho'
  exact h

end Transaction

end Bitcoin

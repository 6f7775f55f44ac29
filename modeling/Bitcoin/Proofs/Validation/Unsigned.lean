import Bitcoin.Proofs.Validation.KeyHash
import Bitcoin.Proofs.Wire.RoundTrip

/-!
# What is not signed

No digest tells of witnesses, but for the annex of the signed input, which is an
argument of its own. So a transaction and the one with its witnesses emptied have
the same digests (`Legacy.digest_withoutWitnesses` and its like), and, taproot
apart, the same scripts run in the same way in both (`execute_withoutWitnesses`).
An input that passes in one transaction passes in any other that differs from it
in the witnesses of other inputs only (`passes_congr`).
-/

namespace Bitcoin

namespace Transaction

theorem input_withoutWitnesses (tx : Transaction) (index : Nat) :
    tx.withoutWitnesses.input index = Input.withoutWitness <$> tx.input index := by
  unfold input
  rw [withoutWitnesses, List.getElem?_map]
  cases tx.inputs[index]? <;> rfl

theorem prevout_withoutWitnesses (tx : Transaction) (index : Nat) :
    tx.withoutWitnesses.prevout index = tx.prevout index := by
  unfold prevout
  rw [input_withoutWitnesses]
  cases tx.input index <;> rfl

theorem fee_withoutWitnesses (tx : Transaction) : tx.withoutWitnesses.fee = tx.fee := by
  rw [fee, inputValues_withoutWitnesses]
  rfl

end Transaction

open Transaction

/-! ## Digests -/

namespace Sighash

theorem Legacy.inputsBytes_withoutWitnesses (tx : Transaction) (index : Nat) (script : Bytes)
    (t : SighashType) : inputsBytes tx.withoutWitnesses index script t = inputsBytes tx index script t := by
  unfold inputsBytes
  rw [withoutWitnesses, List.getElem?_map, List.zipIdx_map, List.flatMap_map, List.length_map]
  cases tx.inputs[index]? <;> rfl

theorem Legacy.digest_withoutWitnesses (tx : Transaction) (index : Nat) (script : Bytes) :
    digest tx.withoutWitnesses index script = digest tx index script := by
  funext t
  have hp : preimage tx.withoutWitnesses index script t = preimage tx index script t := by
    rw [preimage, inputsBytes_withoutWitnesses]
    rfl
  unfold digest
  rw [hp, input_withoutWitnesses]
  cases tx.input index <;> rfl

theorem WitnessV0.digest_withoutWitnesses (tx : Transaction) (index : Nat) (code : Bytes) (amount : Amount) :
    digest tx.withoutWitnesses index code amount = digest tx index code amount := by
  funext t
  have hp : hashPrevouts tx.withoutWitnesses t = hashPrevouts tx t := by
    rw [hashPrevouts, withoutWitnesses, List.flatMap_map]
    rfl
  have hs : hashSequences tx.withoutWitnesses t = hashSequences tx t := by
    rw [hashSequences, withoutWitnesses, List.flatMap_map]
    rfl
  unfold digest preimage
  rw [hp, hs, input_withoutWitnesses]
  cases tx.input index <;> rfl

theorem Taproot.digest_withoutWitnesses (tx : Transaction) (index : Nat) :
    digest tx.withoutWitnesses index = digest tx index := by
  funext t annex leaf
  have hp : prevouts tx.withoutWitnesses = prevouts tx := by
    unfold prevouts
    rw [withoutWitnesses, List.findIdx?_map, List.filterMap_map]
    rfl
  have hi (spent : List Output) : inputHashes tx.withoutWitnesses spent = inputHashes tx spent := by
    rw [inputHashes, withoutWitnesses, List.flatMap_map, List.flatMap_map]
    rfl
  have hc : commonInputs tx.withoutWitnesses t = commonInputs tx t := by
    unfold commonInputs
    simp only [hp, hi]
  unfold digest message ownInput
  rw [hc, input_withoutWitnesses, prevout_withoutWitnesses]
  cases tx.input index <;> rfl

end Sighash

/-! ## Scripts -/

namespace Script

open Validation (checkSignature_base checkSignature_witnessV0)

/-- The context with every witness of the transaction emptied. -/
def Context.withoutWitnesses (c : Context) : Context := { c with tx := c.tx.withoutWitnesses }

section WithoutWitnesses

variable {c : Context} (h : inTapscript (some c) = false)
include h

theorem checkSignature_withoutWitnesses :
    checkSignature (some c.withoutWitnesses) = checkSignature (some c) := by
  obtain ⟨tx, index, v, version⟩ := c
  funext sig key script
  cases version with
  | base =>
    show checkSignature (some ⟨tx.withoutWitnesses, index, v, .base⟩) sig key script = _
    rw [checkSignature_base, checkSignature_base, Sighash.Legacy.digest_withoutWitnesses]
  | witnessV0 amount =>
    show checkSignature (some ⟨tx.withoutWitnesses, index, v, .witnessV0 amount⟩) sig key script = _
    rw [checkSignature_witnessV0, checkSignature_witnessV0, Sighash.WitnessV0.digest_withoutWitnesses]
  | tapscript leaf => cases h

theorem runOpcode_withoutWitnesses (script : Bytes) :
    runOpcode (some c.withoutWitnesses) script = runOpcode (some c) script := by
  funext op
  cases op with
  | checkSig | checkSigVerify =>
    unfold runOpcode popAndCheck
    rw [checkSignature_withoutWitnesses h]
  | checkMultisig =>
    unfold runOpcode checkMultisig
    rw [checkSignature_withoutWitnesses h]
    rfl
  | checkSequence =>
    show (Run.ofExcept (c.tx.withoutWitnesses.input c.index) >>= fun i => checkTime .checkSequence i.sequence) =
      Run.ofExcept (c.tx.input c.index) >>= fun i => checkTime .checkSequence i.sequence
    rw [input_withoutWitnesses]
    cases c.tx.input c.index <;> rfl
  | _ => rfl

theorem execute_withoutWitnesses (script : Bytes) :
    execute (some c.withoutWitnesses) script = execute (some c) script := by
  have hs : step (some c.withoutWitnesses) script = step (some c) script := by
    funext i
    unfold step
    rw [runOpcode_withoutWitnesses h]
  unfold execute
  rw [hs]

end WithoutWitnesses

section Congr

variable {c c' : Context} (h : c'.withoutWitnesses = c.withoutWitnesses) (hn : inTapscript (some c) = false)
include h hn

theorem execute_congr : execute (some c') = execute (some c) := by
  have hn' : inTapscript (some c') = false := (congrArg (fun c => inTapscript (some c)) h).trans hn
  funext script
  rw [← execute_withoutWitnesses hn', h, execute_withoutWitnesses hn]

theorem accepts_congr {items : List Bytes} {script : Bytes} : Accepts c' items script ↔ Accepts c items script := by
  rw [Accepts, executeBool, execute_congr h hn]
  rfl

end Congr

end Script

/-! ## Inputs -/

namespace Validation

open Script

section Congr

variable {tx tx' : Transaction} (h : tx'.withoutWitnesses = tx.withoutWitnesses) {v : Verifier} {index : Nat}
  {i : Input} {o : Output}
include h

theorem context_congr (version : SigVersion) :
    Context.withoutWitnesses ⟨tx', index, v, version⟩ = Context.withoutWitnesses ⟨tx, index, v, version⟩ :=
  congrArg (fun tx => Context.mk tx index v version) h

theorem opens_congr {scriptSig lock : Bytes} {left : List Bytes} :
    Opens ⟨tx', index, v, .base⟩ scriptSig lock left ↔ Opens ⟨tx, index, v, .base⟩ scriptSig lock left := by
  unfold Opens executeBool
  rw [execute_congr (context_congr h .base) rfl]

theorem accepts_base_congr {items : List Bytes} {script : Bytes} :
    Accepts ⟨tx', index, v, .base⟩ items script ↔ Accepts ⟨tx, index, v, .base⟩ items script :=
  accepts_congr (context_congr h .base) rfl

theorem accepts_witnessV0_congr {amount : Amount} {items : List Bytes} {script : Bytes} :
    Accepts ⟨tx', index, v, .witnessV0 amount⟩ items script ↔ Accepts ⟨tx, index, v, .witnessV0 amount⟩ items script :=
  accepts_congr (context_congr h (.witnessV0 amount)) rfl

theorem redeems_congr {type : SpendType} {unlocking : List Bytes} :
    Redeems tx' v index i o type unlocking ↔ Redeems tx v index i o type unlocking := by
  cases type <;> simp only [Redeems, accepts_base_congr h, accepts_witnessV0_congr h]

theorem runs_congr {type : SpendType} : Runs tx' v index i o type ↔ Runs tx v index i o type := by
  cases type <;> simp only [Runs, accepts_witnessV0_congr h, opens_congr h, redeems_congr h]

theorem signed_congr {type : SpendType} : Signed tx' v index i o type ↔ Signed tx v index i o type := by
  have hl (script : Bytes) : Sighash.Legacy.digest tx' index script = Sighash.Legacy.digest tx index script := by
    rw [← Sighash.Legacy.digest_withoutWitnesses, h, Sighash.Legacy.digest_withoutWitnesses]
  have hw (code : Bytes) (amount : Amount) :
      Sighash.WitnessV0.digest tx' index code amount = Sighash.WitnessV0.digest tx index code amount := by
    rw [← Sighash.WitnessV0.digest_withoutWitnesses, h, Sighash.WitnessV0.digest_withoutWitnesses]
  have ht : Sighash.Taproot.digest tx' index = Sighash.Taproot.digest tx index := by
    rw [← Sighash.Taproot.digest_withoutWitnesses, h, Sighash.Taproot.digest_withoutWitnesses]
  cases type <;> simp only [Signed, SpendsTaproot, SignsKeyPath, hl, hw, ht]

/-- What passes in one transaction passes in another that differs in the witnesses
of other inputs only. -/
theorem passes_congr (hi : tx.inputs[index]? = some i) (hi' : tx'.inputs[index]? = some i) (ho : i.prevout = some o)
    (hp : Passes tx v index i o) : Passes tx' v index i o := by
  obtain ⟨type, ht⟩ := spendType_of_passes hp
  have ht' : tx'.spendType index = .ok type := by rw [spendType_eq hi' ho, ← spendType_eq hi ho, ht]
  obtain ⟨hd, hh, hr, hg⟩ := (passes_iff_of_spendType hi ho ht v).1 hp
  exact (passes_iff_of_spendType hi' ho ht' v).2 ⟨hd, hh, (runs_congr h).2 hr, (signed_congr h).2 hg⟩

end Congr

end Validation

end Bitcoin

import Bitcoin.Proofs.Validation.Signatures
import Bitcoin.Proofs.Wire.RoundTrip
import Bitcoin.Record

/-!
# Coinbase inputs of records

A record may declare an input a coinbase input, and the null reference makes it
one besides. Validation passes over such inputs whatever else is known of them
(`validate_passedOverRecord`); every other input of a valid transaction has a
prevout and passes all four checks (`Visited`).
-/

namespace Bitcoin

namespace Record

theorem isCoinbase_of_toInput {r : Input} {i : Bitcoin.Input} (h : r.toInput = .ok i) :
    i.isCoinbase = (decide (i.outpoint = OutPoint.null) || r.isCoinbase) := by
  obtain ⟨prevout, -, h⟩ := bind_eq_ok.1 h
  obtain ⟨witness, -, h⟩ := bind_eq_ok.1 h
  obtain ⟨txid, -, h⟩ := bind_eq_ok.1 h
  obtain ⟨scriptSig, -, h⟩ := bind_eq_ok.1 h
  cases h
  rfl

/-- Each input comes from the record at its place. -/
theorem exists_input_of_toTransaction {t : Transaction} {tx : Bitcoin.Transaction} (h : t.toTransaction = .ok tx)
    {index : Nat} {i : Bitcoin.Input} (hi : tx.inputs[index]? = some i) :
    ∃ r, t.inputs[index]? = some r ∧ r.toInput = .ok i := by
  obtain ⟨inputs, hm, h⟩ := bind_eq_ok.1 h
  obtain ⟨outputs, -, h⟩ := bind_eq_ok.1 h
  obtain ⟨rfl, -⟩ := Bitcoin.Transaction.checkAmounts_eq_ok.1 h
  exact exists_getElem?_of_mapM hm hi

end Record

namespace Validation

/-- The output is declared to be of a kind that a key spends, and is spent so. -/
def SpendsByKey (i : Input) (o : Output) : Prop :=
  o.type = .p2pkh ∨ o.type = .p2wpkh ∨ o.type = .p2tr ∧ Taproot.isKeyPath i.witness = true

variable {tx : Transaction} {v : Verifier} {index : Nat} {i : Input} {o : Output}

/-- Where no signature verifies, no key spends an output. -/
theorem not_spendsByKey_of_passes (hi : tx.inputs[index]? = some i) (ho : i.prevout = some o) (hv : v.TakesNone)
    (h : Passes tx v index i o) : ¬SpendsByKey i o := by
  have ht := Transaction.spendType_eq hi ho
  have signed {type : SpendType} (hs : tx.spendType index = .ok type) : Signed tx v index i o type :=
    ((passes_iff_of_spendType hi ho hs v).1 h).2.2.2
  intro hk
  rcases hk with hp | hp | ⟨hp, hw⟩ <;> rw [hp] at ht
  · obtain ⟨_, _, _, _, _, _, _, hg⟩ := signed ht
    exact not_signsDer hv.ecdsa hg
  · obtain ⟨_, _, _, _, hg⟩ := signed ht
    exact not_signsDer hv.ecdsa hg
  · obtain ⟨key, -, hg | hg⟩ := signed ht
    · exact not_signsKeyPath hv.schnorr hg
    · exact not_isKeyPath_of_showsScriptPath hg hw

/-- All four checks look at an input and have nothing against it; if no signature
verifies, no key spends its prevout. -/
structure Visited (tx : Transaction) (v : Verifier) (index : Nat) (i : Input) : Prop where
  visited : (i, index) ∈ spendingInputs tx
  passes : ∃ o, i.prevout = some o ∧ Passes tx v index i o
  signed : v.TakesNone → ∀ o, i.prevout = some o → ¬SpendsByKey i o

theorem visited_of_validate_eq_valid (hv : tx.validate v = .valid) (hi : tx.inputs[index]? = some i)
    (hc : i.isCoinbase = false) : Visited tx v index i := by
  refine ⟨mem_spendingInputs_iff.2 ⟨hi, hc⟩, Transaction.exists_passes_of_validate_eq_valid hv hi hc, ?_⟩
  intro hn o ho
  exact not_spendsByKey_of_passes hi ho hn (Transaction.passes_of_validate_eq_valid hv hi hc ho)

end Validation

namespace Record.Transaction

open Validation

/-- Where a record describes a valid transaction, an input that is not declared a
coinbase input and does not hold the null reference is looked at by all checks
and passes them, whatever the other inputs are declared to be. -/
theorem visited_of_toTransaction {t : Transaction} {tx : Bitcoin.Transaction} (ht : t.toTransaction = .ok tx)
    {v : Verifier} (hv : tx.validate v = .valid) {index : Nat} {i : Bitcoin.Input}
    (hi : tx.inputs[index]? = some i) :
    ∃ r, t.inputs[index]? = some r ∧ r.toInput = .ok i ∧
      (r.isCoinbase = false → i.outpoint ≠ OutPoint.null → Visited tx v index i) := by
  obtain ⟨r, hr, hri⟩ := exists_input_of_toTransaction ht hi
  refine ⟨r, hr, hri, fun hc hn => visited_of_validate_eq_valid hv hi ?_⟩
  rw [isCoinbase_of_toInput hri, hc, Bool.or_false, decide_eq_false hn]

/-- An input record with a reference to some output of the transaction whose hash
is zero, and no unlocking script. -/
def zeroInput (vout : UInt32) (prevout : Option Output) (witness : List String) (declared : Bool) : Input where
  txid := "0000000000000000000000000000000000000000000000000000000000000000"
  vout
  prevout
  scriptSig := ""
  asm := ""
  witness := some witness
  isCoinbase := declared
  sequence := 0xffffffff
  redeemScriptAsm := none
  witnessScriptAsm := none

/-- The record of an output that pays to anyone. -/
def anyoneOutput : Output := ⟨"51", "", .other "unknown", none, 40000⟩

/-- The record of an output that pays to the hash of a script that pushes one. -/
def pushOneOutput : Output where
  script := "00204ae81572f06e1b88fd5ced7a1a000945432e83e1551e6f721ee9c00b8cc33260"
  asm := ""
  type := .p2wsh
  address := some "bc1qft5p2uhsdcdc3l2ua4ap5qqfg4pjaqlp250x7us7a8qqhrxrxfsq2gp3gp"
  value := 50000

/-- Spends that output, and has another input that is declared a coinbase input. -/
def pushOneRecord : Transaction where
  version := 2
  locktime := 0
  inputs := [zeroInput 1 (some pushOneOutput) ["51"] false, zeroInput 2 none [] true]
  outputs := [anyoneOutput]

/-- The result of reading a record, of which a closed statement is decided. -/
theorem exists_of_any_toTransaction {t : Transaction} {p : Bitcoin.Transaction → Bool}
    (h : t.toTransaction.toOption.any p = true) : ∃ tx, t.toTransaction = .ok tx ∧ p tx = true := by
  obtain ⟨tx, ht, hp⟩ := (Option.any_eq_true _ _).1 h
  exact ⟨tx, toOption_eq_some_iff.1 ht, hp⟩

set_option maxRecDepth 100000 in
theorem visited_pushOneRecord : ∃ tx i r, pushOneRecord.toTransaction = .ok tx ∧ tx.validate .rejecting = .valid ∧
    tx.inputs[0]? = some i ∧ pushOneRecord.inputs[0]? = some r ∧ r.isCoinbase = false ∧
    i.outpoint ≠ OutPoint.null ∧ Visited tx .rejecting 0 i := by
  obtain ⟨tx, ht, h⟩ := exists_of_any_toTransaction (t := pushOneRecord)
    (p := fun tx => tx.validate .rejecting = .valid ∧ tx.inputs[0]?.any fun i => i.outpoint ≠ OutPoint.null)
    (by decide +kernel)
  simp only [decide_eq_true_eq] at h
  obtain ⟨hv, hn⟩ := h
  obtain ⟨i, hi, hn⟩ := (Option.any_eq_true _ _).1 hn
  have hn : i.outpoint ≠ OutPoint.null := of_decide_eq_true hn
  obtain ⟨r, hr, -, h⟩ := visited_of_toTransaction ht hv hi
  cases hr
  exact ⟨tx, i, _, ht, hv, hi, rfl, rfl, hn, h rfl hn⟩

/-- The record of an output that pays to a key hash. -/
def keyHashOutput : Output where
  script := "76a914b728e200df4df182a567e2802830a9f4cfb21cca88ac"
  asm := ""
  type := .p2pkh
  address := some "1HhTdhDwkAqTjMPKiQbcaQPW983Nvd6uRw"
  value := 50000

/-- Spends that output by inputs that are declared coinbase inputs, and by one that
holds the null reference. -/
def passedOverRecord : Transaction where
  version := 2
  locktime := 0
  inputs := [zeroInput 1 (some keyHashOutput) [] true, zeroInput 0xffffffff (some keyHashOutput) [] false,
    zeroInput 2 none [] true]
  outputs := [anyoneOutput]

set_option maxRecDepth 100000 in
/-- None of these inputs is looked at: the declared one that has a prevout, the one
with a prevout and the null reference, the declared one without a prevout. -/
theorem validate_passedOverRecord : ∃ tx, passedOverRecord.toTransaction = .ok tx ∧
    tx.validate .rejecting = .valid ∧ spendingInputs tx = [] ∧
    (tx.inputs.map fun i => (decide (i.outpoint = OutPoint.null), i.prevout.map Bitcoin.Output.type)) =
      [(false, some .p2pkh), (true, some .p2pkh), (false, none)] := by
  obtain ⟨tx, ht, h⟩ := exists_of_any_toTransaction (t := passedOverRecord)
    (p := fun tx => tx.validate .rejecting = .valid ∧ spendingInputs tx = [] ∧
      (tx.inputs.map fun i => (decide (i.outpoint = OutPoint.null), i.prevout.map Bitcoin.Output.type)) =
        [(false, some .p2pkh), (true, some .p2pkh), (false, none)]) (by decide +kernel)
  exact ⟨tx, ht, of_decide_eq_true h⟩

/-- A prevout, or a reference other than the null one, does not get an input looked
at, not even one that a key would have to spend. -/
theorem not_visited_of_funded :
    (¬∀ (t : Transaction) (tx : Bitcoin.Transaction) (v : Verifier), t.toTransaction = .ok tx →
      tx.validate v = .valid → ∀ index i, tx.inputs[index]? = some i →
        i.prevout ≠ none ∨ i.outpoint ≠ OutPoint.null → (i, index) ∈ spendingInputs tx) ∧
    ¬∀ (t : Transaction) (tx : Bitcoin.Transaction) (v : Verifier), t.toTransaction = .ok tx →
      tx.validate v = .valid → v.TakesNone → ∀ (index : Nat) i o, tx.inputs[index]? = some i → i.prevout = some o →
        ¬SpendsByKey i o := by
  obtain ⟨tx, ht, hv, hs, hk⟩ := validate_passedOverRecord
  obtain ⟨i, rest, hl, hi, -⟩ := List.map_eq_cons_iff.1 hk
  obtain ⟨-, hp⟩ := Prod.mk.inj hi
  obtain ⟨o, ho, hp⟩ := Option.map_eq_some_iff.1 hp
  have h0 : tx.inputs[0]? = some i := by rw [hl]; rfl
  constructor
  · intro h
    have hm := h _ _ _ ht hv 0 i h0 (.inl (by simp [ho]))
    rw [hs] at hm
    cases hm
  · intro h
    exact h _ _ _ ht hv Verifier.takesNone_rejecting 0 i o h0 ho (.inl hp)

end Record.Transaction

end Bitcoin

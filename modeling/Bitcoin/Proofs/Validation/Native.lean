import Bitcoin.Proofs.Validation.Signatures

/-!
# Native witness spends and declared types

A transaction that spends witness programs only is judged by all four checks
together, each of which covers another part of each way to spend. What they
come to is said here with no check left in it: an input spends a key hash
(`SpendsKeyHash`), a script hash (`SpendsScriptHash`) or a taproot output
(`SpendsTaproot`), as its prevout is declared (`SpendsProgram`).

Validation takes the declared type of a prevout at its word. It can, because
what each type has checked leaves no other template for the locking script:
the hash it is rebuilt from, or for taproot the key that is read from it
(`classify_of_passes`).
-/

namespace Bitcoin.Validation

open Script

/-- The witness is a signature and the key with the hash in the locking script. -/
def SpendsKeyHash (tx : Transaction) (v : Verifier) (index : Nat) (i : Input) (o : Output) : Prop :=
  ∃ sig key, i.witness = [sig, key] ∧ o.script = 0x00 :: 0x14 :: (hash160 key).val ∧
    SignsDer v sig key (Sighash.WitnessV0.digest tx index (Sighash.WitnessV0.keyHashCode key) o.value)

/-- The witness ends in the script with the hash in the locking script, and that
script accepts the items before it. -/
def SpendsScriptHash (tx : Transaction) (v : Verifier) (index : Nat) (i : Input) (o : Output) : Prop :=
  ∃ items script, i.witness = items ++ [script] ∧ o.script = 0x00 :: 0x20 :: (sha256 script).val ∧
    Accepts ⟨tx, index, v, .witnessV0 o.value⟩ items script

/-- The witness spends a prevout declared to be a witness program. -/
def SpendsProgram (tx : Transaction) (v : Verifier) (index : Nat) (i : Input) (o : Output) : Prop :=
  match o.type with
  | .p2wpkh => SpendsKeyHash tx v index i o
  | .p2wsh => SpendsScriptHash tx v index i o
  | .p2tr => SpendsTaproot tx v index o.script i.witness
  | _ => False

theorem programV0_eq {n : Nat} (h : FixedBytes n) : programV0 h.val = 0x00 :: UInt8.ofNat n :: h.val := by
  rw [programV0, payToProgram, if_pos rfl, h.property]

theorem eq_pair_iff {items : List Bytes} {a b : Bytes} :
    items = [a, b] ↔ items.length = 2 ∧ items[0]? = some a ∧ items[1]? = some b := by
  constructor
  · rintro rfl
    exact ⟨rfl, rfl, rfl⟩
  · intro ⟨hl, ha, hb⟩
    match items, hl with
    | [_, _], _ =>
      cases ha
      cases hb
      rfl

variable {tx : Transaction} {index : Nat} {i : Input} {o : Output}

theorem passes_keyHash_iff (hi : tx.inputs[index]? = some i) (ho : i.prevout = some o) (v : Verifier)
    (hp : o.type = .p2wpkh) : Passes tx v index i o ↔
      (∃ a, o.address = some a ∧ Address.decode a = .ok o.script) ∧ SpendsKeyHash tx v index i o := by
  rw [passes_iff_of_spendType hi ho (by rw [Transaction.spendType_eq hi ho, hp])]
  constructor
  · intro ⟨hd, ⟨key, hk, hs⟩, _, sig, key', h0, h1, hg⟩
    cases hk.symm.trans h1
    exact ⟨hd.address, sig, key, eq_pair_iff.2 ⟨hd.items hp, h0, h1⟩, hs.trans (programV0_eq _), hg⟩
  · intro ⟨ha, sig, key, hw, hs, hg⟩
    obtain ⟨hl, h0, h1⟩ := eq_pair_iff.1 hw
    refine ⟨⟨?_, fun _ => hl, ha⟩, ⟨key, h1, hs.trans (programV0_eq _).symm⟩, trivial, sig, key, h0, h1, hg⟩
    rw [hp, hs]
    simp [OutputType.scriptLength?, (hash160 key).property]

theorem passes_scriptHash_iff (hi : tx.inputs[index]? = some i) (ho : i.prevout = some o) (v : Verifier)
    (hp : o.type = .p2wsh) : Passes tx v index i o ↔
      (∃ a, o.address = some a ∧ Address.decode a = .ok o.script) ∧ SpendsScriptHash tx v index i o := by
  rw [passes_iff_of_spendType hi ho (by rw [Transaction.spendType_eq hi ho, hp])]
  constructor
  · intro ⟨hd, ⟨items, script, hw, hs⟩, ⟨items', script', hw', hr⟩, _⟩
    obtain ⟨rfl, rfl⟩ := List.append_singleton_inj.1 (hw.symm.trans hw')
    exact ⟨hd.address, items, script, hw, hs.trans (programV0_eq _), hr⟩
  · intro ⟨ha, items, script, hw, hs, hr⟩
    refine ⟨⟨?_, fun h => ?_, ha⟩, ⟨items, script, hw, hs.trans (programV0_eq _).symm⟩,
      ⟨items, script, hw, hr⟩, trivial⟩
    · rw [hp, hs]
      simp [OutputType.scriptLength?, (sha256 script).property]
    · cases hp.symm.trans h

theorem passes_taproot_iff (hi : tx.inputs[index]? = some i) (ho : i.prevout = some o) (v : Verifier)
    (hp : o.type = .p2tr) : Passes tx v index i o ↔
      (∃ a, o.address = some a ∧ Address.decode a = .ok o.script) ∧
        SpendsTaproot tx v index o.script i.witness := by
  rw [passes_iff_of_spendType hi ho (by rw [Transaction.spendType_eq hi ho, hp])]
  constructor
  · intro ⟨hd, _, _, hg⟩
    exact ⟨hd.address, hg⟩
  · intro ⟨ha, key, hs, hg⟩
    refine ⟨⟨?_, fun h => ?_, ha⟩, trivial, trivial, key, hs, hg⟩
    · rw [hp, hs]
      simp [OutputType.scriptLength?, key.property]
    · cases hp.symm.trans h

/-- An input whose prevout is declared to be a witness program passes exactly if
the address is that of the program and the witness spends it. -/
theorem passes_iff_of_program (hi : tx.inputs[index]? = some i) (ho : i.prevout = some o) (v : Verifier)
    (hp : o.type ∈ [.p2wpkh, .p2wsh, .p2tr]) : Passes tx v index i o ↔
      (∃ a, o.address = some a ∧ Address.decode a = .ok o.script) ∧ SpendsProgram tx v index i o := by
  simp only [List.mem_cons, List.not_mem_nil, or_false] at hp
  unfold SpendsProgram
  obtain hp | hp | hp := hp <;> rw [hp]
  · exact passes_keyHash_iff hi ho v hp
  · exact passes_scriptHash_iff hi ho v hp
  · exact passes_taproot_iff hi ho v hp

end Bitcoin.Validation

namespace Bitcoin.Transaction

open Validation

/-- A transaction that spends prevouts declared to be witness programs only is
valid exactly if its fee is not negative and each address decodes to the
program, which the witness spends. -/
theorem validate_eq_valid_iff_of_programs (tx : Transaction) (v : Verifier)
    (h : ∀ i ∈ tx.inputs, i.isCoinbase = false →
      ∃ o, i.prevout = some o ∧ o.type ∈ [.p2wpkh, .p2wsh, .p2tr]) :
    tx.validate v = .valid ↔ 0 ≤ tx.fee ∧
      ∀ index i o, tx.inputs[index]? = some i → i.isCoinbase = false → i.prevout = some o →
        (∃ a, o.address = some a ∧ Address.decode a = .ok o.script) ∧ SpendsProgram tx v index i o := by
  rw [validate_eq_valid_iff]
  refine and_congr_right fun _ => ⟨fun hv index i o hi hc ho => ?_, fun hv index i hi hc => ?_⟩
  · obtain ⟨o', ho', hp⟩ := h i (List.mem_of_getElem? hi) hc
    cases ho.symm.trans ho'
    obtain ⟨o', ho', hv⟩ := hv index i hi hc
    cases ho.symm.trans ho'
    exact (passes_iff_of_program hi ho v hp).1 hv
  · obtain ⟨o, ho, hp⟩ := h i (List.mem_of_getElem? hi) hc
    exact ⟨o, ho, (passes_iff_of_program hi ho v hp).2 (hv index i o hi hc ho)⟩

/-- Spends the script that pushes one by its hash. -/
def scriptHashSpend : Transaction where
  version := 2
  locktime := 0
  inputs := [.make ⟨FixedBytes.zero 32, 1⟩ (some (.ofScript 50000 (programV0 (sha256 [0x51]).val))) [] [[0x51]]
    0xffffffff]
  outputs := [.ofScript 40000 [0x51]]

set_option maxRecDepth 100000 in
theorem scriptHashSpend_spendsProgram : scriptHashSpend.validate .rejecting = .valid ∧
    ∀ index i o, scriptHashSpend.inputs[index]? = some i → i.isCoinbase = false → i.prevout = some o →
      (∃ a, o.address = some a ∧ Address.decode a = .ok o.script) ∧
        SpendsProgram scriptHashSpend .rejecting index i o := by
  have hv : scriptHashSpend.validate .rejecting = .valid := by decide +kernel
  refine ⟨hv, ((validate_eq_valid_iff_of_programs scriptHashSpend .rejecting ?_).1 hv).2⟩
  intro i hi _
  cases List.mem_singleton.1 hi
  exact ⟨_, rfl, by decide +kernel⟩

end Bitcoin.Transaction

/-! ## Declared types -/

namespace Bitcoin.OutputType

open Script

variable (h : Hash160)

theorem classify_payToKeyHash : classify (payToKeyHash h.val) = .p2pkh := by
  simp [classify, payToKeyHash, h.property]

theorem classify_payToScriptHash : classify (payToScriptHash h.val) = .p2sh := by
  simp [classify, payToScriptHash, h.property]

theorem classify_programV0_hash160 : classify (Validation.programV0 h.val) = .p2wpkh := by
  simp [classify, Validation.programV0_eq, h.property]

theorem classify_programV0_hash256 (h : Hash256) : classify (Validation.programV0 h.val) = .p2wsh := by
  simp [classify, Validation.programV0_eq, h.property]

theorem classify_outputKey (key : FixedBytes 32) : classify (0x51 :: 0x20 :: key.val) = .p2tr := by
  simp [classify, key.property]

end Bitcoin.OutputType

namespace Bitcoin

open Validation Script

variable {tx : Transaction} {v : Verifier} {index : Nat} {i : Input} {o : Output}

/-- What an input is checked for leaves the template of the way it spends. -/
theorem classify_of_hashesTo_of_signed {type : SpendType} (hh : HashesTo i type o.script)
    (hg : Signed tx v index i o type) : OutputType.classify o.script = type.outputType := by
  cases type with
  | p2pkh =>
    obtain ⟨key, -, hl⟩ := hh
    rw [hl, OutputType.classify_payToKeyHash, SpendType.outputType]
  | p2wpkh =>
    obtain ⟨key, -, hl⟩ := hh
    rw [hl, OutputType.classify_programV0_hash160, SpendType.outputType]
  | p2wsh =>
    obtain ⟨items, script, -, hl⟩ := hh
    rw [hl, OutputType.classify_programV0_hash256, SpendType.outputType]
  | p2tr =>
    obtain ⟨key, hl, -⟩ := hg
    rw [hl, OutputType.classify_outputKey, SpendType.outputType]
  | p2sh =>
    obtain ⟨redeem, -, hl⟩ := hh
    rw [hl, OutputType.classify_payToScriptHash, SpendType.outputType]
  | p2shP2wpkh =>
    obtain ⟨redeem, key, -, -, -, hl⟩ := hh
    rw [hl, OutputType.classify_payToScriptHash, SpendType.outputType]
  | p2shP2wsh =>
    obtain ⟨redeem, items, script, -, -, -, hl⟩ := hh
    rw [hl, OutputType.classify_payToScriptHash, SpendType.outputType]

/-- The locking script that a passing input spends fits the template of the
declared type. -/
theorem classify_of_passes (hi : tx.inputs[index]? = some i) (ho : i.prevout = some o)
    (h : Passes tx v index i o) : OutputType.classify o.script = o.type := by
  obtain ⟨type, ht⟩ := spendType_of_passes h
  obtain ⟨-, hh, -, hg⟩ := (passes_iff_of_spendType hi ho ht v).1 h
  rw [classify_of_hashesTo_of_signed hh hg, (Transaction.of_spendType hi ho ht).1]

namespace Transaction

/-- In a valid transaction, each prevout has the type that its locking script
has the template of, and an address that decodes to its locking script. -/
theorem declarations_of_validate_eq_valid {tx : Transaction} {v : Verifier} (hv : tx.validate v = .valid)
    {i : Input} (hi : i ∈ tx.inputs) (hc : i.isCoinbase = false) :
    ∃ o, i.prevout = some o ∧ OutputType.classify o.script = o.type ∧
      ∃ a, o.address = some a ∧ Address.decode a = .ok o.script := by
  obtain ⟨index, hi⟩ := List.getElem?_of_mem hi
  obtain ⟨o, ho, h⟩ := exists_passes_of_validate_eq_valid hv hi hc
  exact ⟨o, ho, classify_of_passes hi ho h, ((outcome_judgeMetadata index i o).1 h.metadata).address⟩

set_option maxRecDepth 100000 in
theorem scriptHashSpend_declarations : scriptHashSpend.validate .rejecting = .valid ∧
    ∀ i ∈ scriptHashSpend.inputs, i.isCoinbase = false → ∃ o, i.prevout = some o ∧
      OutputType.classify o.script = o.type ∧ ∃ a, o.address = some a ∧ Address.decode a = .ok o.script := by
  have hv : scriptHashSpend.validate .rejecting = .valid := by decide +kernel
  exact ⟨hv, fun _ hi hc => declarations_of_validate_eq_valid hv hi hc⟩

end Transaction

end Bitcoin

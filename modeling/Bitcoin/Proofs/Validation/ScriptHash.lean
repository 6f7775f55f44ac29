import Bitcoin.Proofs.Script.Standard
import Bitcoin.Proofs.Validation.Native

/-!
# Script hashes, bare and wrapping witness programs

An output that pays to a script hash and is spent without a witness is looked at
twice: the script check runs the unlocking script, whatever it holds, and takes
the redeem script from the stack that it leaves; the hash check reads the
unlocking script as pushes and hashes the last of them. Together they leave one
way to spend (`passes_bareScriptHash_iff`): the unlocking script is pushes only,
so both see the same redeem script, and that runs on the items pushed before it
(`SpendsBareScriptHash`).

The redeem script may be a witness program. Whether the program is enforced is
decided by whether the input carries a witness at all. If it does, its length
tells the two programs apart, and what the input shows fits the program
(`enforces_of_passes`); if it does not, the program is run as any other script,
and pushing a hash other than zero is all it has to do (`bareProgramSpend`).
-/

/-! ## Bare script hashes -/

namespace Bitcoin.Validation

open Script

variable {c : Context} {scriptSig lock : Bytes} {items : List Bytes}

/-- Pushes open a locking script if it accepts what they push; they leave nothing
else. -/
theorem opens_iff_of_pushedItems (h : pushedItems scriptSig = .ok items) (left : List Bytes) :
    Opens c scriptSig lock left ↔ left = items.reverse ∧ Accepts c items lock := by
  have he := execute_of_pushedItems h (some c) .empty
  simp only [Machine.empty, List.append_nil] at he
  rw [Accepts, valueOf_executeBool]
  constructor
  · intro hx
    obtain ⟨top, m, m', hs, hl, hm⟩ := hx
    cases he.symm.trans hs
    exact ⟨hm, m', hl⟩
  · intro hx
    obtain ⟨hm, m', hl⟩ := hx
    exact ⟨_, _, m', he, hl, hm⟩

theorem accepts_payToScriptHash_iff (items : List Bytes) (item : Bytes) (h : Hash160) :
    Accepts c (items ++ [item]) (payToScriptHash h.val) ↔ hash160 item = h := by
  have hr : executeBool (some c) (payToScriptHash h.val) ⟨item :: items.reverse, [], []⟩ = _ :=
    executeBool_payToScriptHash h item items.reverse
  rw [Accepts, List.reverse_append]
  show valueOf (executeBool _ _ ⟨item :: items.reverse, [], []⟩) = _ ↔ _
  rw [hr, valueOf, Except.ok.injEq, beq_iff_eq, Subtype.ext_iff]

/-- An input pushes some items and a redeem script that has the hash in the
locking script and accepts the items. -/
structure SpendsBareScriptHash (tx : Transaction) (v : Verifier) (index : Nat) (i : Input) (o : Output)
    (items : List Bytes) (redeem : Bytes) : Prop where
  pushOnly : PushOnly i.scriptSig
  /-- The redeem script that is hashed is the last item. -/
  pushed : pushedItems i.scriptSig = .ok (items ++ [redeem])
  hash : o.script = payToScriptHash (hash160 redeem).val
  /-- The redeem script that is run is the same: it is left on top. -/
  left : ∃ top m, execute (some ⟨tx, index, v, .base⟩) i.scriptSig .empty = .ok top m ∧
    m.stack = redeem :: items.reverse
  accepts : Accepts ⟨tx, index, v, .base⟩ items redeem

variable {tx : Transaction} {v : Verifier} {index : Nat} {i : Input} {o : Output}

theorem SpendsBareScriptHash.of_pushed {redeem : Bytes} (hp : pushedItems i.scriptSig = .ok (items ++ [redeem]))
    (hl : o.script = payToScriptHash (hash160 redeem).val) (ha : Accepts ⟨tx, index, v, .base⟩ items redeem) :
    SpendsBareScriptHash tx v index i o items redeem where
  pushOnly := pushOnly_iff.2 ⟨_, hp⟩
  pushed := hp
  hash := hl
  left := ⟨_, _, execute_of_pushedItems hp _ .empty, by simp [Machine.empty]⟩
  accepts := ha

/-- Without a witness, a prevout declared to be a script hash is spent as one. -/
theorem spendType_bare (hi : tx.inputs[index]? = some i) (ho : i.prevout = some o) (hp : o.type = .p2sh)
    (hw : i.witness = []) : tx.spendType index = .ok .p2sh := by
  simp [Transaction.spendType_eq hi ho, hp, Input.hasWitness, hw]

/-- Without a witness, an input whose prevout is declared to be a script hash
passes exactly if the address is that of the hash and the pushed script spends it. -/
theorem passes_bareScriptHash_iff (hi : tx.inputs[index]? = some i) (ho : i.prevout = some o) (v : Verifier)
    (hp : o.type = .p2sh) (hw : i.witness = []) : Passes tx v index i o ↔
      (∃ a, o.address = some a ∧ Address.decode a = .ok o.script) ∧
        ∃ items redeem, SpendsBareScriptHash tx v index i o items redeem := by
  rw [passes_iff_of_spendType hi ho (spendType_bare hi ho hp hw)]
  constructor
  · intro ⟨hd, ⟨redeem, hr, hl⟩, ⟨left, hopen, redeem', items', hleft, ha⟩, _⟩
    obtain ⟨items, hs⟩ := lastPushed_eq_ok.1 hr
    obtain ⟨rfl, -⟩ := (opens_iff_of_pushedItems hs left).1 hopen
    have hrev : (items ++ [redeem]).reverse = redeem :: items.reverse := by rw [List.reverse_append]; rfl
    obtain ⟨rfl, rfl⟩ := List.cons.inj (hrev.symm.trans hleft)
    rw [List.reverse_reverse] at ha
    exact ⟨hd.address, items, redeem, .of_pushed hs hl ha⟩
  · intro ⟨ha, items, redeem, hs⟩
    have hopen : Opens ⟨tx, index, v, .base⟩ i.scriptSig o.script (items ++ [redeem]).reverse := by
      rw [opens_iff_of_pushedItems hs.pushed, hs.hash, accepts_payToScriptHash_iff]
      exact ⟨rfl, rfl⟩
    refine ⟨⟨?_, fun h => ?_, ha⟩, ⟨redeem, lastPushed_eq_ok.2 ⟨items, hs.pushed⟩, hs.hash⟩,
      ⟨_, hopen, redeem, items.reverse, by rw [List.reverse_append]; rfl, ?_⟩, trivial⟩
    · rw [hp, hs.hash]
      simp [OutputType.scriptLength?, payToScriptHash, (hash160 redeem).property]
    · cases hp.symm.trans h
    · rw [List.reverse_reverse]
      exact hs.accepts

end Bitcoin.Validation

namespace Bitcoin.Transaction

open Validation Script

/-- In a valid transaction, an input without a witness whose prevout is declared
to be a script hash pushes the script with that hash and items it accepts, and
its unlocking script does nothing else. -/
theorem spendsBareScriptHash_of_validate_eq_valid {tx : Transaction} {v : Verifier} (hv : tx.validate v = .valid)
    {index : Nat} {i : Input} {o : Output} (hi : tx.inputs[index]? = some i) (hc : i.isCoinbase = false)
    (ho : i.prevout = some o) (hp : o.type = .p2sh) (hw : i.witness = []) :
    ∃ items redeem, SpendsBareScriptHash tx v index i o items redeem := by
  have h := passes_of_validate_eq_valid hv hi hc ho
  exact ((passes_bareScriptHash_iff hi ho v hp hw).1 h).2

/-- Spends the hash of the script that compares two items. -/
def equalItemsSpend : Transaction where
  version := 2
  locktime := 0
  inputs := [.make ⟨FixedBytes.zero 32, 1⟩
    (some ⟨50000, payToScriptHash [0x72, 0x6b, 0xa1, 0xc0, 0x9c, 0x5a, 0x72, 0xa6, 0x4a, 0x64, 0xc4, 0x2a, 0xe2, 0x16,
      0x0d, 0x4c, 0x20, 0x13, 0x98, 0xd8], "", .p2sh, some "3C81tobN4r37fz1YZzwhAsqdHC3RgUC5WV"⟩)
    [0x01, 0x07, 0x01, 0x07, 0x01, 0x87] [] 0xffffffff]
  outputs := [.ofScript 40000 [0x51]]

set_option maxRecDepth 100000 in
theorem equalItemsSpend_spendsBareScriptHash : ∃ i o, equalItemsSpend.validate .rejecting = .valid ∧
    equalItemsSpend.inputs[0]? = some i ∧ i.isCoinbase = false ∧ i.prevout = some o ∧ o.type = .p2sh ∧
    i.witness = [] ∧ ∃ items redeem, SpendsBareScriptHash equalItemsSpend .rejecting 0 i o items redeem := by
  have hv : equalItemsSpend.validate .rejecting = .valid := by decide +kernel
  exact ⟨_, _, hv, rfl, rfl, rfl, rfl, rfl,
    spendsBareScriptHash_of_validate_eq_valid hv rfl rfl rfl rfl rfl⟩

end Bitcoin.Transaction

/-! ## Wrapped witness programs -/

namespace Bitcoin.Validation

open Script

/-- The witness starts with a signature and the key with this hash. -/
def UnwrapsKeyHash (tx : Transaction) (v : Verifier) (index : Nat) (i : Input) (o : Output) (h : Bytes) : Prop :=
  ∃ sig key, i.witness[0]? = some sig ∧ i.witness[1]? = some key ∧ (hash160 key).val = h ∧
    SignsDer v sig key (Sighash.WitnessV0.digest tx index (Sighash.WitnessV0.keyHashCode key) o.value)

/-- The witness ends in the script with this hash, which accepts the items
before it. -/
def UnwrapsScriptHash (tx : Transaction) (v : Verifier) (index : Nat) (i : Input) (o : Output) (h : Bytes) :
    Prop :=
  ∃ items script, i.witness = items ++ [script] ∧ (sha256 script).val = h ∧
    Accepts ⟨tx, index, v, .witnessV0 o.value⟩ items script

/-- A witness program that an input ends in is enforced. -/
structure Enforces (tx : Transaction) (v : Verifier) (index : Nat) (i : Input) (o : Output) : Prop where
  keyHash : ∀ h, lastPushed i.scriptSig = .ok (0x00 :: 0x14 :: h) → UnwrapsKeyHash tx v index i o h
  scriptHash : ∀ h, lastPushed i.scriptSig = .ok (0x00 :: 0x20 :: h) → UnwrapsScriptHash tx v index i o h

variable {tx : Transaction} {v : Verifier} {index : Nat} {i : Input} {o : Output}

/-- A script hash that is spent with a witness wraps a witness program. -/
theorem spendType_wrapped (hi : tx.inputs[index]? = some i) (ho : i.prevout = some o) (hp : o.type = .p2sh)
    (hw : i.hasWitness = true) {type : SpendType} (ht : tx.spendType index = .ok type) :
    type = .p2shP2wpkh ∨ type = .p2shP2wsh := by
  obtain ⟨hs, hb⟩ := Transaction.of_spendType hi ho ht
  rw [hp] at hs
  cases type with
  | p2shP2wpkh => exact .inl rfl
  | p2shP2wsh => exact .inr rfl
  | p2sh => simp [hb rfl] at hw
  | _ => cases hs

theorem enforces_of_keyHash {redeem key : Bytes} (hr : lastPushed i.scriptSig = .ok redeem)
    (hk : redeem = programV0 (hash160 key).val) (h : UnwrapsKeyHash tx v index i o (hash160 key).val) :
    Enforces tx v index i o where
  keyHash program hl := by
    rw [programV0_eq] at hk
    cases hk ▸ hr.symm.trans hl
    exact h
  scriptHash program hl := by
    rw [programV0_eq] at hk
    cases hk ▸ hr.symm.trans hl

theorem enforces_of_scriptHash {redeem script : Bytes} (hr : lastPushed i.scriptSig = .ok redeem)
    (hs : redeem = programV0 (sha256 script).val) (h : UnwrapsScriptHash tx v index i o (sha256 script).val) :
    Enforces tx v index i o where
  keyHash program hl := by
    rw [programV0_eq] at hs
    cases hs ▸ hr.symm.trans hl
  scriptHash program hl := by
    rw [programV0_eq] at hs
    cases hs ▸ hr.symm.trans hl
    exact h

/-- An input that passes with a witness enforces the program that it ends in. -/
theorem enforces_of_passes (hi : tx.inputs[index]? = some i) (ho : i.prevout = some o) (hp : o.type = .p2sh)
    (hw : i.hasWitness = true) (h : Passes tx v index i o) : Enforces tx v index i o := by
  obtain ⟨type, ht⟩ := spendType_of_passes h
  obtain ⟨-, hh, hr, hg⟩ := (passes_iff_of_spendType hi ho ht v).1 h
  obtain rfl | rfl := spendType_wrapped hi ho hp hw ht
  · obtain ⟨redeem, key, hl, hk, he, -⟩ := hh
    obtain ⟨sig, key', h0, h1, hg⟩ := hg
    cases hk.symm.trans h1
    exact enforces_of_keyHash hl he ⟨sig, key, h0, h1, rfl, hg⟩
  · obtain ⟨redeem, items, script, hl, hs, he, -⟩ := hh
    obtain ⟨_, -, items', script', hs', hr⟩ := hr
    obtain ⟨rfl, rfl⟩ := List.append_singleton_inj.1 (hs.symm.trans hs')
    exact enforces_of_scriptHash hl he ⟨items, script, hs, rfl, hr⟩

/-- Under a verifier by which no signature verifies there is none for a key hash. -/
theorem not_unwrapsKeyHash (hv : ∀ key digest sig, v.ecdsa key digest sig = false) (h : Bytes) :
    ¬UnwrapsKeyHash tx v index i o h := by
  intro ⟨_, _, _, _, _, hs⟩
  exact not_signsDer hv hs

end Bitcoin.Validation

namespace Bitcoin.Transaction

open Validation Script

/-- In a valid transaction, an input with a witness whose prevout is declared to
be a script hash enforces the witness program that its unlocking script ends
in; that of a key hash does not without a verifier by which some signature
verifies. -/
theorem enforces_of_validate_eq_valid {tx : Transaction} {v : Verifier} (hv : tx.validate v = .valid)
    {index : Nat} {i : Input} {o : Output} (hi : tx.inputs[index]? = some i) (hc : i.isCoinbase = false)
    (ho : i.prevout = some o) (hp : o.type = .p2sh) (hw : i.hasWitness = true) :
    Enforces tx v index i o ∧ ((∀ key digest sig, v.ecdsa key digest sig = false) →
      ∀ h, lastPushed i.scriptSig ≠ .ok (0x00 :: 0x14 :: h)) := by
  have he := enforces_of_passes hi ho hp hw (passes_of_validate_eq_valid hv hi hc ho)
  exact ⟨he, fun hr h hl => not_unwrapsKeyHash hr h (he.keyHash h hl)⟩

/-- An input that pushes a witness program, the prevout declared to be its
script hash. -/
def wrappingInput (program scriptHash : Bytes) (address : String) (witness : List Bytes) : Input :=
  .make ⟨FixedBytes.zero 32, 1⟩ (some ⟨50000, payToScriptHash scriptHash, "", .p2sh, some address⟩)
    (UInt8.ofNat program.length :: program) witness 0xffffffff

theorem lastPushed_wrappingInput {program scriptHash : Bytes} {address : String} {witness : List Bytes}
    (h : program.length ≤ 75) : lastPushed (wrappingInput program scriptHash address witness).scriptSig = .ok program :=
  lastPushed_direct h

/-- Spends a wrapped key hash with the shortest of signatures. -/
def wrappedKeySpend : Transaction where
  version := 2
  locktime := 0
  inputs := [wrappingInput
    (0x00 :: 0x14 :: [0xb7, 0x28, 0xe2, 0x00, 0xdf, 0x4d, 0xf1, 0x82, 0xa5, 0x67, 0xe2, 0x80, 0x28, 0x30, 0xa9,
      0xf4, 0xcf, 0xb2, 0x1c, 0xca])
    [0xe7, 0x23, 0xcb, 0x1f, 0x16, 0x12, 0x7e, 0xc7, 0xae, 0x7f, 0x6f, 0x1f, 0x37, 0xa3, 0x5d, 0x89, 0x85, 0x04,
      0x86, 0xfe]
    "3NmAtq1geB4haWJ5xniZxiQh6G1iobdwx6"
    [[0x30, 0x06, 0x02, 0x01, 0x01, 0x02, 0x01, 0x01, 0x01], 0x02 :: List.replicate 32 0x07]]
  outputs := [.ofScript 40000 [0x51]]

/-- Spends a wrapped key hash without a witness. -/
def bareProgramSpend : Transaction where
  version := 2
  locktime := 0
  inputs := [wrappingInput (0x00 :: 0x14 :: List.replicate 20 0x11)
    [0x27, 0xef, 0xfe, 0x58, 0xf4, 0x3f, 0x92, 0xc8, 0x59, 0x7b, 0x7c, 0x48, 0x86, 0xf7, 0xcc, 0xaf, 0xb1, 0x1b,
      0x02, 0x3e]
    "35LBn4xGBvwX5YPXbvS1Lw3N52k8hqKhrN" []]
  outputs := [.ofScript 40000 [0x51]]

/-- The verifier that takes all ECDSA signatures. -/
abbrev takesEcdsa : Verifier := { Verifier.rejecting with ecdsa := fun _ _ _ => true }

set_option maxRecDepth 100000 in
theorem wrappedKeySpend_unwraps : ∃ i o h, wrappedKeySpend.inputs[0]? = some i ∧ i.prevout = some o ∧
    lastPushed i.scriptSig = .ok (0x00 :: 0x14 :: h) ∧ UnwrapsKeyHash wrappedKeySpend takesEcdsa 0 i o h := by
  have hv : wrappedKeySpend.validate takesEcdsa = .valid := by decide +kernel
  exact ⟨_, _, _, rfl, rfl, lastPushed_wrappingInput (by decide),
    (enforces_of_validate_eq_valid hv rfl rfl rfl rfl rfl).1.keyHash _
      (lastPushed_wrappingInput (by decide))⟩

set_option maxRecDepth 100000 in
/-- Without a witness the program is not enforced, even if no signature verifies. -/
theorem not_enforces_bareProgramSpend : ¬∀ (tx : Transaction) (v : Verifier), tx.validate v = .valid →
    ∀ index i o, tx.inputs[index]? = some i → i.isCoinbase = false → i.prevout = some o → o.type = .p2sh →
      Enforces tx v index i o := by
  intro h
  have hv : bareProgramSpend.validate .rejecting = .valid := by decide +kernel
  have he := h bareProgramSpend .rejecting hv 0 _ _ rfl rfl rfl rfl
  exact not_unwrapsKeyHash (fun _ _ _ => rfl) _ (he.keyHash _ (lastPushed_wrappingInput (by decide)))

end Bitcoin.Transaction

import Bitcoin.Proofs.Validation.ScriptHash

/-!
# Key hashes

That a key with some hash has signed can be found out in two ways: by running
the locking script of the hash, or by looking at the signature and the key
directly. For wrapped key hashes both are done, and they agree whatever the
witness is (`ChecksAgree`). For bare ones the locking script is never run. The
direct look takes the first pushed item for the signature
(`passesDirectly_iff`), the script the one below the key (`exists_opens_iff`);
where these are the same item (`FirstBelowTop`) the two agree, and else they may
differ either way.
-/

namespace Bitcoin.Validation

open Check Script

variable {tx : Transaction} {v : Verifier} {index : Nat} {i : Input} {o : Output} {c : Context}
  {sig key : Bytes} {items : List Bytes}

/-! ## Signatures in scripts -/

theorem checkSignature_base (sig key script : Bytes) :
    checkSignature (some ⟨tx, index, v, .base⟩) sig key script =
      if sig.isEmpty then pure false else verifyDer v sig key (Sighash.Legacy.digest tx index script) := rfl

theorem checkSignature_witnessV0 (amount : Amount) (sig key script : Bytes) :
    checkSignature (some ⟨tx, index, v, .witnessV0 amount⟩) sig key script =
      if sig.isEmpty then pure false
      else verifyDer v sig key (Sighash.WitnessV0.digest tx index (Sighash.WitnessV0.scriptCode script) amount) := rfl

/-- Two checks hold on the same terms and make the same calls of the verifier. -/
structure SameVerification (a b : Check Bool) : Prop where
  holds : a.outcome = .ok true ↔ b.outcome = .ok true
  calls : a.run.2 = b.run.2

/-- An empty signature does not verify in a script, and is an error if it is
looked at directly; it does not get to the verifier in either way. -/
theorem sameVerification_unlessEmpty (v : Verifier) (sig key : Bytes) (digest : SighashType → Except Error Hash256) :
    SameVerification (if sig.isEmpty then pure false else verifyDer v sig key digest)
      (verifyDer v sig key digest) := by
  cases sig with
  | nil => exact ⟨⟨nofun, nofun⟩, rfl⟩
  | cons b sig => exact ⟨.rfl, rfl⟩

theorem outcome_checkSignature_base (sig key script : Bytes) :
    (checkSignature (some ⟨tx, index, v, .base⟩) sig key script).outcome = .ok true ↔
      SignsDer v sig key (Sighash.Legacy.digest tx index script) := by
  rw [checkSignature_base, (sameVerification_unlessEmpty ..).holds, outcome_verifyDer]

/-! ## The locking script of a key hash -/

/-- Run on nothing but a signature and a key of the hash, the script is the check
of that signature, down to the calls. -/
theorem toCheck_runOn_payToKeyHash {h : Hash160} (hk : hash160 key = h) (c : Context) (sig : Bytes) :
    (runOn c [sig, key] (payToKeyHash h.val)).toCheck = checkSignature (some c) sig key (payToKeyHash h.val) := by
  rw [← toCheck_leaveVerified (checkSignature (some c) sig key (payToKeyHash h.val))]
  funext calls
  have hr : runOn c [sig, key] (payToKeyHash h.val) ⟨[], [], calls⟩ = _ :=
    executeBool_payToKeyHash hk sig []
  rw [Run.toCheck, Run.toCheck, Machine.empty, hr]
  rfl

/-- The locking script of a key hash accepts items by the two on top. -/
theorem accepts_payToKeyHash_iff (h : Hash160) : Accepts c items (payToKeyHash h.val) ↔
    ∃ front sig key, items = front ++ [sig, key] ∧ hash160 key = h ∧
      (checkSignature (some c) sig key (payToKeyHash h.val)).outcome = .ok true := by
  have run {sig key : Bytes} {rest : List Bytes} (hk : hash160 key = h) :
      valueOf (executeBool (some c) (payToKeyHash h.val) ⟨key :: sig :: rest, [], []⟩) =
        (checkSignature (some c) sig key (payToKeyHash h.val)).outcome := by
    rw [executeBool_payToKeyHash hk, valueOf_leaveVerified (logFree_checkSignature _ _ _ _)]
  constructor
  · intro ha
    obtain ⟨m', he⟩ := valueOf_executeBool.1 ha
    obtain ⟨key, sig, rest, hs, hk⟩ := exists_of_executeBool_payToKeyHash he
    have hi : items = rest.reverse ++ [sig, key] := by
      rw [← List.reverse_reverse items, show items.reverse = _ from hs]
      simp
    refine ⟨rest.reverse, sig, key, hi, hk, ?_⟩
    rw [← run hk, ← ha, ← hs]
    rfl
  · intro ⟨front, sig, key, hi, hk, hs⟩
    rw [Accepts, hi, List.reverse_append]
    exact (run hk).trans hs

/-! ## Wrapped key hashes -/

/-- For a wrapped key hash, what the script check and the signature check come
down to are the same verification. -/
structure ChecksAgree (tx : Transaction) (v : Verifier) (index : Nat) (i : Input) (o : Output)
    (template direct : Check Bool) : Prop where
  /-- What the unlocking script left does not count. -/
  script : ∀ left, (runRedeemed ⟨tx, index, v, .base⟩ i o .p2shP2wpkh left).toCheck = template
  signature : judgeSignature tx v index i o = do return unlessVerified index (← direct)
  same : SameVerification template direct

theorem runRedeemed_keyHash {h : Hash160} (hr : lastPushed i.scriptSig = .ok (0x00 :: 0x14 :: h.val))
    (h0 : i.witness[0]? = some sig) (h1 : i.witness[1]? = some key) (left : List Bytes) :
    runRedeemed ⟨tx, index, v, .base⟩ i o .p2shP2wpkh left =
      runOn ⟨tx, index, v, .witnessV0 o.value⟩ [sig, key] (payToKeyHash h.val) := by
  have hp : keyHashProgram (0x00 :: 0x14 :: h.val) = .ok h.val :=
    keyHashProgram_eq_ok.2 ⟨by simp [h.property], rfl⟩
  rw [runRedeemed, hr, witnessItem_eq_ok.2 h0, witnessItem_eq_ok.2 h1]
  show (Run.ofExcept (keyHashProgram (0x00 :: 0x14 :: h.val)) >>= fun program =>
    runOn ⟨tx, index, v, .witnessV0 o.value⟩ [sig, key] (payToKeyHash program)) = _
  rw [hp]
  rfl

theorem verifyKeyWitness_eq (h0 : i.witness[0]? = some sig) (h1 : i.witness[1]? = some key) :
    verifyKeyWitness tx v index i o =
      verifyDer v sig key (Sighash.WitnessV0.digest tx index (Sighash.WitnessV0.keyHashCode key) o.value) := by
  rw [verifyKeyWitness, witnessItem_eq_ok.2 h0, witnessItem_eq_ok.2 h1]
  rfl

/-- If an input pushes the program of its key, running the template of that key hash
on signature and key and looking at them directly come to the same. -/
theorem checksAgree_of_wrappedKeyHash (ht : tx.spendType index = .ok .p2shP2wpkh)
    (hr : lastPushed i.scriptSig = .ok (0x00 :: 0x14 :: (hash160 key).val)) (h1 : i.witness[1]? = some key)
    (v : Verifier) (o : Output) : ∃ sig, i.witness[0]? = some sig ∧
      ChecksAgree tx v index i o
        (runOn ⟨tx, index, v, .witnessV0 o.value⟩ [sig, key] (payToKeyHash (hash160 key).val)).toCheck
        (verifyKeyWitness tx v index i o) := by
  obtain ⟨sig, h0⟩ : ∃ sig, i.witness[0]? = some sig := by
    obtain ⟨hl, -⟩ := List.getElem?_eq_some_iff.1 h1
    exact ⟨i.witness[0], List.getElem?_eq_getElem (by omega)⟩
  refine ⟨sig, h0, fun left => ?_, ?_, ?_⟩
  · rw [runRedeemed_keyHash hr h0 h1]
  · rw [judgeSignature, ht]
    rfl
  · rw [toCheck_runOn_payToKeyHash rfl, checkSignature_witnessV0, verifyKeyWitness_eq h0 h1]
    exact sameVerification_unlessEmpty ..

end Bitcoin.Validation

namespace Bitcoin.Transaction

open Validation Script

/-- A key. -/
def sevensKey : Bytes := 0x02 :: List.replicate 32 0x07

/-- The hash of that key. -/
def sevensHash : Hash160 :=
  ⟨[0xb7, 0x28, 0xe2, 0x00, 0xdf, 0x4d, 0xf1, 0x82, 0xa5, 0x67, 0xe2, 0x80, 0x28, 0x30, 0xa9, 0xf4, 0xcf, 0xb2, 0x1c,
    0xca], rfl⟩

theorem hash160_sevensKey : hash160 sevensKey = sevensHash := by decide +kernel

theorem wrappedKeySpend_checksAgree : ∃ i sig o, wrappedKeySpend.inputs[0]? = some i ∧ i.prevout = some o ∧
    wrappedKeySpend.spendType 0 = .ok .p2shP2wpkh ∧
    lastPushed i.scriptSig = .ok (0x00 :: 0x14 :: (hash160 sevensKey).val) ∧ i.witness[1]? = some sevensKey ∧
    i.witness[0]? = some sig ∧ ChecksAgree wrappedKeySpend takesEcdsa 0 i o
      (runOn ⟨wrappedKeySpend, 0, takesEcdsa, .witnessV0 o.value⟩ [sig, sevensKey]
        (payToKeyHash (hash160 sevensKey).val)).toCheck
      (verifyKeyWitness wrappedKeySpend takesEcdsa 0 i o) := by
  have ht : wrappedKeySpend.spendType 0 = .ok .p2shP2wpkh := rfl
  have hr : lastPushed (wrappedKeySpend.inputs.get ⟨0, by decide⟩).scriptSig =
      .ok (0x00 :: 0x14 :: (hash160 sevensKey).val) := by
    rw [hash160_sevensKey]
    exact lastPushed_wrappingInput (by decide)
  obtain ⟨sig, h0, h⟩ := checksAgree_of_wrappedKeyHash ht hr rfl takesEcdsa _
  exact ⟨_, sig, _, rfl, rfl, ht, hr, rfl, h0, h⟩

end Bitcoin.Transaction

namespace Bitcoin.Validation

open Check Script

variable {tx : Transaction} {v : Verifier} {index : Nat} {i : Input} {o : Output} {key : Bytes} {items : List Bytes}

/-! ## Bare key hashes -/

/-- An input pushes some items and nothing else to spend an output that is
declared to be a key hash and is one. -/
structure PushesToKeyHash (tx : Transaction) (index : Nat) (i : Input) (o : Output) (h : Hash160)
    (items : List Bytes) : Prop where
  input : tx.inputs[index]? = some i
  prevout : i.prevout = some o
  type : o.type = .p2pkh
  lock : o.script = payToKeyHash h.val
  pushed : pushedItems i.scriptSig = .ok items

/-- Neither the hash check nor the signature check has anything against an input. -/
structure PassesDirectly (tx : Transaction) (v : Verifier) (index : Nat) (i : Input) (o : Output) : Prop where
  hashes : (judgeHashes tx index i o).outcome = .ok none
  signature : (judgeSignature tx v index i o).outcome = .ok none

/-- The item below the top one is the first. -/
def FirstBelowTop (items : List Bytes) : Prop :=
  ∀ front sig key, items = front ++ [sig, key] → items.head? = some sig

theorem append_pair_inj {front front' : List Bytes} {a b a' b' : Bytes} (h : front ++ [a, b] = front' ++ [a', b']) :
    front = front' ∧ a = a' ∧ b = b' := by
  obtain ⟨hf, hp⟩ := List.append_inj' h rfl
  cases hp
  exact ⟨hf, rfl, rfl⟩

theorem firstBelowTop_pair (sig key : Bytes) : FirstBelowTop [sig, key] := by
  intro front sig' key' h
  have h : [] ++ [sig, key] = front ++ [sig', key'] := h
  obtain ⟨rfl, rfl, rfl⟩ := append_pair_inj h
  rfl

theorem payToKeyHash_inj {a b : Hash160} : payToKeyHash a.val = payToKeyHash b.val ↔ a = b := by
  simp [payToKeyHash, Subtype.ext_iff]

section Bare

variable {h : Hash160} (hs : PushesToKeyHash tx index i o h items)
include hs

/-- The direct look is at the first item and the last. -/
theorem passesDirectly_iff (v : Verifier) : PassesDirectly tx v index i o ↔
    2 ≤ items.length ∧ ∃ sig key, items.head? = some sig ∧ items.getLast? = some key ∧ hash160 key = h ∧
      SignsDer v sig key (Sighash.Legacy.digest tx index o.script) := by
  have ht : tx.spendType index = .ok .p2pkh := by rw [Transaction.spendType_eq hs.input hs.prevout, hs.type]
  have hh : (judgeHashes tx index i o).outcome = .ok none ↔ ∃ key, items.getLast? = some key ∧ h = hash160 key := by
    rw [outcome_judgeHashes ht, HashesTo, hs.lock]
    simp only [lastPushed_eq_ok, hs.pushed, Except.ok.injEq, payToKeyHash_inj, List.getLast?_eq_some_iff]
  have hg := outcome_judgeKeyHash ht v i o
  constructor
  · intro hp
    obtain ⟨key, hk, hh⟩ := hh.1 hp.hashes
    obtain ⟨items', sig, key', hs', hn, h0, hk', hg⟩ := hg.1 hp.signature
    cases hs.pushed.symm.trans hs'
    cases hk.symm.trans hk'
    exact ⟨hn, sig, key, h0, hk, hh.symm, hg⟩
  · intro hx
    obtain ⟨hn, sig, key, h0, hk, hh', hg'⟩ := hx
    exact ⟨hh.2 ⟨key, hk, hh'.symm⟩, hg.2 ⟨items, sig, key, hs.pushed, hn, h0, hk, hg'⟩⟩

/-- The scripts look at the two items on top. -/
theorem exists_opens_iff (v : Verifier) : (∃ left, Opens ⟨tx, index, v, .base⟩ i.scriptSig o.script left) ↔
    ∃ front sig key, items = front ++ [sig, key] ∧ hash160 key = h ∧
      SignsDer v sig key (Sighash.Legacy.digest tx index o.script) := by
  simp only [opens_iff_of_pushedItems hs.pushed, exists_eq_left]
  rw [hs.lock, accepts_payToKeyHash_iff]
  simp only [outcome_checkSignature_base]

/-- Where the item below the key is the first, the hash check and the signature
check come to what the scripts come to. -/
theorem passesDirectly_iff_opens (hf : FirstBelowTop items) (v : Verifier) :
    PassesDirectly tx v index i o ↔ ∃ left, Opens ⟨tx, index, v, .base⟩ i.scriptSig o.script left := by
  rw [passesDirectly_iff hs, exists_opens_iff hs]
  constructor
  · intro ⟨hn, sig, key, h0, hk, hh, hg⟩
    obtain ⟨front, rfl⟩ := List.getLast?_eq_some_iff.1 hk
    rcases List.eq_nil_or_concat front with rfl | ⟨front, sig', rfl⟩
    · simp at hn
    have hi : front.concat sig' ++ [key] = front ++ [sig', key] := by simp
    cases h0.symm.trans (hf front sig' key hi)
    exact ⟨front, sig, key, hi, hh, hg⟩
  · intro ⟨front, sig, key, hi, hh, hg⟩
    exact ⟨by simp [hi], sig, key, hf front sig key hi, by simp [hi], hh, hg⟩

end Bare

end Bitcoin.Validation

namespace Bitcoin.Transaction

open Validation Script

/-- The shortest of signatures. -/
def shortSignature : Bytes := [0x30, 0x06, 0x02, 0x01, 0x01, 0x02, 0x01, 0x01, 0x01]

/-- An output that pays to the hash of the key. -/
def keyHashOutput : Output :=
  ⟨50000, payToKeyHash sevensHash.val, "", .p2pkh, some "1HhTdhDwkAqTjMPKiQbcaQPW983Nvd6uRw"⟩

/-- An input that pushes some items to spend that output. -/
def keyHashInput (items : List Bytes) : Input :=
  .make ⟨FixedBytes.zero 32, 1⟩ (some keyHashOutput) (directPushes items) [] 0xffffffff

/-- Spends that output by pushing some items. -/
def keyHashSpend (items : List Bytes) : Transaction where
  version := 2
  locktime := 0
  inputs := [keyHashInput items]
  outputs := [.ofScript 40000 [0x51]]

theorem pushesToKeyHash_keyHashSpend (items : List Bytes) (h : ∀ item ∈ items, item.length ≤ 75) :
    PushesToKeyHash (keyHashSpend items) 0 (keyHashInput items) keyHashOutput sevensHash items :=
  ⟨rfl, rfl, rfl, rfl, pushedItems_directPushes h⟩

theorem signsDer_shortSignature {digest : SighashType → Except Error Hash256} {d : Hash256}
    (hd : digest ⟨0x01⟩ = .ok d) : SignsDer takesEcdsa shortSignature sevensKey digest :=
  ⟨[0x30, 0x06, 0x02, 0x01, 0x01, 0x02, 0x01, 0x01], 0x01, _, _, d, rfl, rfl, hd, rfl⟩

/-- The items that such an output asks for. -/
def signatureAndKey : List Bytes := [shortSignature, sevensKey]

theorem keyHashSpend_passesDirectly_iff_opens :
    PushesToKeyHash (keyHashSpend signatureAndKey) 0 (keyHashInput signatureAndKey) keyHashOutput sevensHash
      signatureAndKey ∧ FirstBelowTop signatureAndKey ∧
    PassesDirectly (keyHashSpend signatureAndKey) takesEcdsa 0 (keyHashInput signatureAndKey) keyHashOutput ∧
    ∃ left, Opens ⟨keyHashSpend signatureAndKey, 0, takesEcdsa, .base⟩ (keyHashInput signatureAndKey).scriptSig
      keyHashOutput.script left := by
  have hs := pushesToKeyHash_keyHashSpend signatureAndKey (by decide)
  have hf : FirstBelowTop signatureAndKey := firstBelowTop_pair shortSignature sevensKey
  have hp : PassesDirectly _ takesEcdsa _ _ _ := (passesDirectly_iff hs _).2
    ⟨by decide, shortSignature, sevensKey, rfl, rfl, hash160_sevensKey, signsDer_shortSignature rfl⟩
  exact ⟨hs, hf, hp, (passesDirectly_iff_opens hs hf takesEcdsa).1 hp⟩

/-- With an empty item above the signature an input passes directly though its
scripts fail, with one below it the scripts run to true though it does not pass. -/
theorem not_passesDirectly_iff_opens :
    (¬∀ tx v index i o h items, PushesToKeyHash tx index i o h items → PassesDirectly tx v index i o →
      ∃ left, Opens ⟨tx, index, v, .base⟩ i.scriptSig o.script left) ∧
    ¬∀ tx v index i o h items, PushesToKeyHash tx index i o h items →
      (∃ left, Opens ⟨tx, index, v, .base⟩ i.scriptSig o.script left) → PassesDirectly tx v index i o := by
  constructor
  · intro h
    have hs := pushesToKeyHash_keyHashSpend [shortSignature, [], sevensKey] (by decide)
    have hp : PassesDirectly _ takesEcdsa _ _ _ := (passesDirectly_iff hs _).2
      ⟨by decide, shortSignature, sevensKey, rfl, rfl, hash160_sevensKey, signsDer_shortSignature rfl⟩
    obtain ⟨front, sig, key, hi, -, hg⟩ := (exists_opens_iff hs _).1 (h _ _ _ _ _ _ _ hs hp)
    have hi : [shortSignature] ++ [[], sevensKey] = front ++ [sig, key] := hi
    obtain ⟨-, rfl, -⟩ := append_pair_inj hi
    exact not_signsDer_nil hg
  · intro h
    have hs := pushesToKeyHash_keyHashSpend [[], shortSignature, sevensKey] (by decide)
    have ho : ∃ left, Opens ⟨_, _, takesEcdsa, .base⟩ _ _ left := (exists_opens_iff hs _).2
      ⟨[[]], shortSignature, sevensKey, rfl, hash160_sevensKey, signsDer_shortSignature rfl⟩
    obtain ⟨-, sig, key, h0, -, -, hg⟩ := (passesDirectly_iff hs _).1 (h _ _ _ _ _ _ _ hs ho)
    cases h0
    exact not_signsDer_nil hg

end Bitcoin.Transaction

import Bitcoin.Proofs.Bytes
import Bitcoin.Proofs.Validation.Conditions

/-!
# Signatures, and what it takes to pass

The judge of signatures, said without running it: signatures verify
(`SignsDer`, `SignsKeyPath`) or a script is shown to be committed to
(`ShowsScriptPath`), by the way the input spends (`Signed`). With the other
three judges this is all it takes for an input to pass
(`passes_iff_of_spendType`).
-/

namespace Bitcoin

/-- The curve, but no signature verifies. -/
def Verifier.rejecting : Verifier :=
  { Verifier.secp256k1 with ecdsa := fun _ _ _ => false, schnorr := fun _ _ _ => false }

/-- No signature verifies. -/
structure Verifier.TakesNone (v : Verifier) : Prop where
  ecdsa : ∀ key digest sig, v.ecdsa key digest sig = false
  schnorr : ∀ key digest sig, v.schnorr key digest sig = false

theorem Verifier.takesNone_rejecting : rejecting.TakesNone where
  ecdsa _ _ _ := rfl
  schnorr _ _ _ := rfl

namespace Validation

open Check Script

/-- A script signature verifies under a key: its last byte is the hash type,
the rest is DER. -/
def SignsDer (v : Verifier) (sig key : Bytes) (digest : SighashType → Except Error Hash256) : Prop :=
  ∃ der type r s d, sig = der ++ [type] ∧ Signature.decodeDer der = .ok (r, s) ∧ digest ⟨type⟩ = .ok d ∧
    v.ecdsa key d (r.append s) = true

theorem not_signsDer {v : Verifier} (hv : ∀ key digest sig, v.ecdsa key digest sig = false) {sig key : Bytes}
    {digest : SighashType → Except Error Hash256} : ¬SignsDer v sig key digest := by
  intro ⟨_, _, _, _, _, _, _, _, he⟩
  rw [hv] at he
  cases he

theorem not_signsDer_nil {v : Verifier} {key : Bytes} {digest : SighashType → Except Error Hash256} :
    ¬SignsDer v [] key digest := by
  intro ⟨der, type, _, _, _, h, _⟩
  simp at h

theorem splitHashType_eq_ok {sig der : Bytes} {type : UInt8} :
    Signature.splitHashType sig = .ok (der, type) ↔ sig = der ++ [type] := by
  unfold Signature.splitHashType
  rcases List.eq_nil_or_concat sig with h | ⟨front, last, h⟩ <;> simp [h]

theorem compact_eq_ok {der : Bytes} {pair : FixedBytes 64} :
    Signature.compact der = .ok pair ↔ ∃ r s, Signature.decodeDer der = .ok (r, s) ∧ r.append s = pair := by
  simp only [Signature.compact, bind_eq_ok, Prod.exists, pure, Except.pure, Except.ok.injEq]

theorem outcome_verifyDer (v : Verifier) (sig key : Bytes) (digest : SighashType → Except Error Hash256) :
    (verifyDer v sig key digest).outcome = .ok true ↔ SignsDer v sig key digest := by
  simp only [verifyDer, outcome_ofExcept_bind, bind_eq_ok, Prod.exists, outcome_ecdsa, splitHashType_eq_ok,
    compact_eq_ok, Except.ok.injEq]
  constructor
  · intro hx
    obtain ⟨der, type, hs, _, ⟨r, s, hd, rfl⟩, d, hg, h⟩ := hx
    exact ⟨der, type, r, s, d, hs, hd, hg, h⟩
  · intro ⟨der, type, r, s, d, hs, hd, hg, h⟩
    exact ⟨der, type, hs, _, ⟨r, s, hd, rfl⟩, d, hg, h⟩

theorem outcome_verifyKeyWitness (tx : Transaction) (v : Verifier) (index : Nat) (i : Input) (o : Output) :
    (verifyKeyWitness tx v index i o).outcome = .ok true ↔
      ∃ sig key, i.witness[0]? = some sig ∧ i.witness[1]? = some key ∧
        SignsDer v sig key (Sighash.WitnessV0.digest tx index (Sighash.WitnessV0.keyHashCode key) o.value) := by
  simp only [verifyKeyWitness, outcome_ofExcept_bind, bind_eq_ok, witnessItem_eq_ok, outcome_verifyDer,
    exists_and_left]

theorem outputKey?_eq_some {lock : Bytes} {key : FixedBytes 32} :
    Taproot.outputKey? lock = some key ↔ lock = 0x51 :: 0x20 :: key.val := by
  unfold Taproot.outputKey?
  split
  · simp [FixedBytes.ofBytes?_eq_some]
  · rename_i h
    exact ⟨nofun, fun hl => (h _ hl).elim⟩

theorem scriptAndControl?_eq_some {items : List Bytes} {script control : Bytes} :
    Taproot.scriptAndControl? items = some (script, control) ↔ ∃ front, items = front ++ [script, control] := by
  unfold Taproot.scriptAndControl?
  constructor
  · intro h
    split at h <;> cases h
    rename_i rest hr
    exact ⟨rest.reverse, by rw [← List.reverse_reverse items, hr]; simp⟩
  · intro hx
    obtain ⟨front, rfl⟩ := hx
    simp

/-- A witness, less its annex, is one Schnorr signature under an output key. -/
def SignsKeyPath (tx : Transaction) (v : Verifier) (index : Nat) (key : FixedBytes 32)
    (witness : List Bytes) : Prop :=
  ∃ sig annex body type d, Taproot.splitAnnex witness = ([sig], annex) ∧
    Signature.splitSchnorr sig = .ok (body, type) ∧
    Sighash.Taproot.digest tx index ⟨type⟩ annex none = .ok d ∧ v.schnorr key d body = true

theorem not_signsKeyPath {tx : Transaction} {v : Verifier} {index : Nat} {key : FixedBytes 32}
    {witness : List Bytes} (hv : ∀ key digest sig, v.schnorr key digest sig = false) :
    ¬SignsKeyPath tx v index key witness := by
  intro ⟨_, _, _, _, _, _, _, _, he⟩
  rw [hv] at he
  cases he

/-- A witness, less its annex, ends in a script and a control block that shows
an output key to commit to it. -/
def ShowsScriptPath (v : Verifier) (key : FixedBytes 32) (witness : List Bytes) : Prop :=
  ∃ front script control, (Taproot.splitAnnex witness).1 = front ++ [script, control] ∧
    (Taproot.verifyScriptPath key script control v).outcome = .ok true

/-- A locking script holds an output key that a witness spends. -/
def SpendsTaproot (tx : Transaction) (v : Verifier) (index : Nat) (lock : Bytes) (witness : List Bytes) :
    Prop :=
  ∃ key : FixedBytes 32, lock = 0x51 :: 0x20 :: key.val ∧
    (SignsKeyPath tx v index key witness ∨ ShowsScriptPath v key witness)

/-- The signatures of an input verify; those within scripts are left to them. -/
def Signed (tx : Transaction) (v : Verifier) (index : Nat) (i : Input) (o : Output) (type : SpendType) : Prop :=
  match type with
  | .p2pkh => ∃ items sig key, pushedItems i.scriptSig = .ok items ∧ 2 ≤ items.length ∧
      items.head? = some sig ∧ items.getLast? = some key ∧
      SignsDer v sig key (Sighash.Legacy.digest tx index o.script)
  | .p2wpkh | .p2shP2wpkh => ∃ sig key, i.witness[0]? = some sig ∧ i.witness[1]? = some key ∧
      SignsDer v sig key (Sighash.WitnessV0.digest tx index (Sighash.WitnessV0.keyHashCode key) o.value)
  | .p2tr => SpendsTaproot tx v index o.script i.witness
  | .p2sh | .p2wsh | .p2shP2wsh => True

/-- The key of a locking script settles which key a statement about it is about. -/
theorem exists_key_iff {lock : Bytes} {key : FixedBytes 32} (h : Taproot.outputKey? lock = some key)
    {p : FixedBytes 32 → Prop} : (∃ key : FixedBytes 32, lock = 0x51 :: 0x20 :: key.val ∧ p key) ↔ p key := by
  simp only [← outputKey?_eq_some, h, Option.some.injEq, exists_eq_left']

theorem not_exists_key {lock : Bytes} (h : Taproot.outputKey? lock = none) {p : FixedBytes 32 → Prop} :
    ¬∃ key : FixedBytes 32, lock = 0x51 :: 0x20 :: key.val ∧ p key := by
  simp [← outputKey?_eq_some, h]

theorem outcome_verifyKeyPath {tx : Transaction} {index : Nat} {i : Input} {o : Output}
    (hi : tx.inputs[index]? = some i) (ho : i.prevout = some o) (v : Verifier) :
    (Taproot.verifyKeyPath tx index v).outcome = .ok true ↔
      ∃ key : FixedBytes 32, o.script = 0x51 :: 0x20 :: key.val ∧ SignsKeyPath tx v index key i.witness := by
  simp only [Taproot.verifyKeyPath, outcome_ofExcept_bind, Transaction.input_eq_ok.2 hi,
    (Transaction.prevout_eq_ok hi).2 ho, ok_bind]
  cases hk : Taproot.outputKey? o.script with
  | none => exact ⟨nofun, fun h => (not_exists_key hk h).elim⟩
  | some key =>
    rw [exists_key_iff hk]
    dsimp only
    split
    · rename_i sig annex hs
      simp only [outcome_ofExcept_bind, bind_eq_ok, Prod.exists, outcome_schnorr, Except.ok.injEq]
      constructor
      · intro ⟨body, type, hb, d, hd, h⟩
        exact ⟨sig, annex, body, type, d, hs, hb, hd, h⟩
      · intro ⟨_, _, body, type, d, hs', hb, hd, h⟩
        cases hs.symm.trans hs'
        exact ⟨body, type, hb, d, hd, h⟩
    · rename_i hn he
      refine ⟨nofun, ?_⟩
      intro ⟨sig, annex, _, _, _, hs, _⟩
      cases he.symm.trans hs
      exact (hn sig rfl).elim

theorem isKeyPath_of_signsKeyPath {tx : Transaction} {v : Verifier} {index : Nat} {key : FixedBytes 32}
    {witness : List Bytes} (h : SignsKeyPath tx v index key witness) : Taproot.isKeyPath witness = true := by
  obtain ⟨sig, annex, _, _, _, hs, _⟩ := h
  simp [Taproot.isKeyPath, hs]

theorem not_isKeyPath_of_showsScriptPath {v : Verifier} {key : FixedBytes 32} {witness : List Bytes}
    (h : ShowsScriptPath v key witness) : ¬Taproot.isKeyPath witness = true := by
  obtain ⟨front, script, control, hs, _⟩ := h
  simp [Taproot.isKeyPath, hs]

theorem unlessVerified_eq {c : Check Bool} {index : Nat} :
    (c >>= fun verified => pure (unlessVerified index verified)).outcome = .ok none ↔ c.outcome = .ok true := by
  rw [outcome_bind_pure, bind_eq_ok]
  constructor
  · intro hx
    rcases hx with ⟨_ | _, h, hv⟩
    · simp [unlessVerified] at hv
    · exact h
  · exact fun h => ⟨true, h, rfl⟩

theorem outcome_judgeTaproot {tx : Transaction} {index : Nat} {i : Input} {o : Output}
    (hi : tx.inputs[index]? = some i) (ho : i.prevout = some o) (ht : tx.spendType index = .ok .p2tr)
    (v : Verifier) :
    (judgeSignature tx v index i o).outcome = .ok none ↔ SpendsTaproot tx v index o.script i.witness := by
  rw [judgeSignature, outcome_ofExcept_bind, ht, ok_bind]
  dsimp only
  by_cases hp : Taproot.isKeyPath i.witness = true
  · rw [if_pos hp, unlessVerified_eq, outcome_verifyKeyPath hi ho]
    constructor
    · exact fun ⟨key, hl, h⟩ => ⟨key, hl, .inl h⟩
    · intro hx
      rcases hx with ⟨key, hl, h | h⟩
      · exact ⟨key, hl, h⟩
      · exact (not_isKeyPath_of_showsScriptPath h hp).elim
  · rw [if_neg hp]
    cases hk : Taproot.outputKey? o.script with
    | none => exact ⟨nofun, fun h => (not_exists_key hk h).elim⟩
    | some key =>
      rw [SpendsTaproot, exists_key_iff hk]
      dsimp only
      cases hs : Taproot.scriptAndControl? (Taproot.splitAnnex i.witness).1 with
      | none =>
        refine ⟨nofun, ?_⟩
        intro hx
        rcases hx with h | ⟨front, script, control, hf, _⟩
        · exact (hp (isKeyPath_of_signsKeyPath h)).elim
        · simp [scriptAndControl?_eq_some.2 ⟨front, hf⟩] at hs
      | some p =>
        obtain ⟨script, control⟩ := p
        dsimp only
        rw [unlessVerified_eq]
        constructor
        · intro h
          obtain ⟨front, hf⟩ := scriptAndControl?_eq_some.1 hs
          exact .inr ⟨front, script, control, hf, h⟩
        · intro hx
          rcases hx with h | ⟨front, script', control', hf, h⟩
          · exact (hp (isKeyPath_of_signsKeyPath h)).elim
          · cases hs.symm.trans (scriptAndControl?_eq_some.2 ⟨front, hf⟩)
            exact h

theorem outcome_judgeKeyHash {tx : Transaction} {index : Nat} (ht : tx.spendType index = .ok .p2pkh)
    (v : Verifier) (i : Input) (o : Output) :
    (judgeSignature tx v index i o).outcome = .ok none ↔ Signed tx v index i o .p2pkh := by
  rw [judgeSignature, outcome_ofExcept_bind, ht, ok_bind]
  dsimp only
  rw [outcome_ofExcept_bind, bind_eq_ok]
  constructor
  · intro ⟨items, hp, h⟩
    split at h
    · rename_i sig key rest
      rw [unlessVerified_eq, outcome_verifyDer] at h
      exact ⟨_, sig, _, hp, by simp, rfl, by simp [List.getLast?_cons], h⟩
    · simp at h
  · intro ⟨items, sig, key, hp, hl, hs, hk, h⟩
    refine ⟨items, hp, ?_⟩
    match items, hl with
    | a :: b :: rest, _ =>
      cases hs
      have hl : (b :: rest).getLastD b = key := by
        simpa [List.getLast?_cons] using hk
      rw [unlessVerified_eq, outcome_verifyDer, hl]
      exact h

theorem outcome_judgeSignature {tx : Transaction} {index : Nat} {i : Input} {o : Output} {type : SpendType}
    (hi : tx.inputs[index]? = some i) (ho : i.prevout = some o) (ht : tx.spendType index = .ok type)
    (v : Verifier) : (judgeSignature tx v index i o).outcome = .ok none ↔ Signed tx v index i o type := by
  cases type with
  | p2pkh => exact outcome_judgeKeyHash ht v i o
  | p2tr => exact outcome_judgeTaproot hi ho ht v
  | p2wpkh | p2shP2wpkh =>
    rw [judgeSignature, outcome_ofExcept_bind, ht]
    exact unlessVerified_eq.trans (outcome_verifyKeyWitness _ _ _ _ _)
  | p2sh | p2wsh | p2shP2wsh =>
    rw [judgeSignature, outcome_ofExcept_bind, ht]
    exact iff_of_true rfl trivial

/-- An input that spends in a known way passes exactly if its declarations fit,
and what unlocks it hashes to its script, runs to true and is signed, each in
that way. -/
theorem passes_iff_of_spendType {tx : Transaction} {index : Nat} {i : Input} {o : Output} {type : SpendType}
    (hi : tx.inputs[index]? = some i) (ho : i.prevout = some o) (ht : tx.spendType index = .ok type)
    (v : Verifier) : Passes tx v index i o ↔ Declared i o ∧ HashesTo i type o.script ∧
      Runs tx v index i o type ∧ Signed tx v index i o type := by
  rw [← outcome_judgeMetadata index, ← outcome_judgeHashes ht, ← outcome_judgeScripts ht,
    ← outcome_judgeSignature hi ho ht]
  exact ⟨fun ⟨hs, hm, hh, hg⟩ => ⟨hm, hh, hs, hg⟩, fun ⟨hm, hh, hs, hg⟩ => ⟨hs, hm, hh, hg⟩⟩

/-- An input that passes spends in one of the known ways. -/
theorem spendType_of_passes {tx : Transaction} {v : Verifier} {index : Nat} {i : Input} {o : Output}
    (h : Passes tx v index i o) : ∃ type, tx.spendType index = .ok type := by
  have hh := h.hashes
  rw [judgeHashes, outcome_ofExcept_bind, bind_eq_ok] at hh
  obtain ⟨type, ht, -⟩ := hh
  exact ⟨type, ht⟩

end Validation

end Bitcoin

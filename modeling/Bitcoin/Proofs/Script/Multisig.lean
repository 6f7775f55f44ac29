import Mathlib.Data.List.Forall2
import Mathlib.Data.List.NodupEquivFin
import Bitcoin.Proofs.Validation.KeyHash

/-!
# Multisignatures

Signatures are matched with keys greedily: keys are tried in order, and the
first that fits a signature is its key. If the signatures can be given keys in
their order at all, the first one can be given the first key that fits it, since
whatever key it had, the others have keys behind that (`sublistForall₂_cons_iff`).
So on a stack that holds signatures and keys with their numbers
(`HoldsMultisig`), a multisignature check leaves whether there is a strictly
increasing assignment of keys, each of which its signature verifies under
(`runOpcode_checkMultisig`).
-/

namespace Bitcoin.Script

open Check List

/-! ## Matching in order -/

section Matching

variable {α β : Type} {R : α → β → Prop} {a : α} {b : β} {as : List α} {bs : List β}

/-- Without the first, the others still have theirs. -/
theorem sublistForall₂_of_cons (h : SublistForall₂ R (a :: as) bs) : SublistForall₂ R as bs := by
  obtain ⟨chosen, hf, hs⟩ := sublistForall₂_iff.1 h
  cases hf with
  | cons _ hf => exact sublistForall₂_iff.2 ⟨_, hf, (sublist_cons_self _ _).trans hs⟩

/-- The first that fits may be taken: whatever the first had instead, the others
have theirs behind it. -/
theorem sublistForall₂_cons_iff (h : R a b) : SublistForall₂ R (a :: as) (b :: bs) ↔ SublistForall₂ R as bs := by
  constructor
  · intro hs
    cases hs with
    | cons _ hs => exact hs
    | cons_right hs => exact sublistForall₂_of_cons hs
  · exact .cons h

/-- One that does not fit may be passed over. -/
theorem sublistForall₂_cons_iff_of_not (h : ¬R a b) :
    SublistForall₂ R (a :: as) (b :: bs) ↔ SublistForall₂ R (a :: as) bs := by
  constructor
  · intro hs
    cases hs with
    | cons hr _ => exact absurd hr h
    | cons_right hs => exact hs
  · exact .cons_right

/-- What is matched in order has increasing places. -/
theorem sublistForall₂_iff_exists_strictMono : SublistForall₂ R as bs ↔
    ∃ place : Fin as.length → Fin bs.length, StrictMono place ∧ ∀ i, R as[i] bs[place i] := by
  rw [sublistForall₂_iff]
  constructor
  · rintro ⟨chosen, hf, hs⟩
    obtain ⟨place, hp⟩ := sublist_iff_exists_fin_orderEmbedding_get_eq.1 hs
    have hl := hf.length_eq
    refine ⟨fun i => place (i.cast hl), fun i j hij => place.strictMono hij, fun i => ?_⟩
    have hr := hf.get i.isLt (hl ▸ i.isLt)
    rwa [hp] at hr
  · rintro ⟨place, hm, hr⟩
    have hl : (ofFn fun i => bs[place i]).length = as.length := length_ofFn
    refine ⟨ofFn fun i => bs[place i], ?_, ?_⟩
    · refine forall₂_iff_get.2 ⟨hl.symm, fun i hi hi' => ?_⟩
      simpa using hr ⟨i, hi⟩
    · refine sublist_iff_exists_fin_orderEmbedding_get_eq.2
        ⟨OrderEmbedding.ofStrictMono (fun i => place (i.cast hl)) fun i j hij => hm hij, fun i => ?_⟩
      exact get_ofFn _ i

end Matching

/-- A check finds that a signature verifies under a key. -/
def Fits (check : Bytes → Bytes → Check Bool) (sig key : Bytes) : Prop := (check sig key).outcome = .ok true

/-- Tried in order, keys are found for all signatures exactly if there are some in
order: by induction on the keys. -/
theorem exists_outcome_matchKeys {check : Bytes → Bytes → Check Bool} (hf : ∀ sig key, (check sig key).LogFree)
    {sigs : List Bytes} (hd : ∀ sig ∈ sigs, ∀ key, ∃ verified, (check sig key).outcome = .ok verified)
    (keys : List Bytes) : ∃ verified, (matchKeys check sigs keys).outcome = .ok verified ∧
      (verified = true ↔ SublistForall₂ (Fits check) sigs keys) := by
  induction keys generalizing sigs with
  | nil =>
    cases sigs with
    | nil => exact ⟨true, rfl, fun _ => .nil, fun _ => rfl⟩
    | cons sig sigs => exact ⟨false, rfl, nofun, nofun⟩
  | cons key keys ih =>
    cases sigs with
    | nil => exact ⟨true, rfl, fun _ => .nil, fun _ => rfl⟩
    | cons sig sigs =>
      obtain ⟨verified, hv⟩ := hd sig mem_cons_self key
      have ho : (matchKeys check (sig :: sigs) (key :: keys)).outcome =
          (if verified then matchKeys check sigs keys else matchKeys check (sig :: sigs) keys).outcome := by
        rw [matchKeys, outcome_bind, hv]
        · rfl
        · intro verified
          split
          · exact logFree_matchKeys hf sigs keys
          · exact logFree_matchKeys hf (sig :: sigs) keys
      cases verified with
      | true =>
        obtain ⟨found, hm, hi⟩ := ih fun s hs => hd s (mem_cons_of_mem sig hs)
        have hfit : Fits check sig key := hv
        exact ⟨found, ho.trans hm, hi.trans (sublistForall₂_cons_iff hfit).symm⟩
      | false =>
        obtain ⟨found, hm, hi⟩ := ih hd
        have hfit : ¬Fits check sig key := by simp [Fits, hv]
        exact ⟨found, ho.trans hm, hi.trans (sublistForall₂_cons_iff_of_not hfit).symm⟩

/-! ## Signatures of one input -/

/-- The digest that a signature within a script is for. -/
def Context.digest (c : Context) (script : Bytes) (t : SighashType) : Except Error Hash256 :=
  match c.version with
  | .base => Sighash.Legacy.digest c.tx c.index script t
  | .witnessV0 amount => Sighash.WitnessV0.digest c.tx c.index (Sighash.WitnessV0.scriptCode script) amount t
  | .tapscript leaf => do
    let i ← c.tx.input c.index
    Sighash.Taproot.digest c.tx c.index t (Taproot.splitAnnex i.witness).2 (some leaf)

/-- A signature is empty, or DER behind which the hash type stands. -/
def Legible (sig : Bytes) : Prop :=
  sig = [] ∨ ∃ der type r s, sig = der ++ [type] ∧ Signature.decodeDer der = .ok (r, s)

section Signing

variable {c : Context} {script : Bytes}

open Validation

theorem checkSignature_eq (hv : inTapscript (some c) = false) (sig key : Bytes) :
    checkSignature (some c) sig key script =
      if sig.isEmpty then pure false else verifyDer c.verifier sig key (c.digest script) := by
  obtain ⟨tx, index, v, _ | amount | leaf⟩ := c
  · exact checkSignature_base sig key script
  · exact checkSignature_witnessV0 amount sig key script
  · cases hv

theorem outcome_checkSignature_iff (hv : inTapscript (some c) = false) (sig key : Bytes) :
    (checkSignature (some c) sig key script).outcome = .ok true ↔
      SignsDer c.verifier sig key (c.digest script) := by
  rw [checkSignature_eq hv, (sameVerification_unlessEmpty ..).holds, outcome_verifyDer]

theorem exists_legacyDigest {tx : Transaction} {index : Nat} {i : Input} (h : tx.input index = .ok i) (script : Bytes)
    (t : SighashType) : ∃ d, Sighash.Legacy.digest tx index script t = .ok d := by
  unfold Sighash.Legacy.digest
  rw [h, ok_bind]
  split
  · exact ⟨_, rfl⟩
  · exact ⟨_, rfl⟩

theorem exists_witnessV0Digest {tx : Transaction} {index : Nat} {i : Input} (h : tx.input index = .ok i) (code : Bytes)
    (amount : Amount) (t : SighashType) : ∃ d, Sighash.WitnessV0.digest tx index code amount t = .ok d := by
  unfold Sighash.WitnessV0.digest Sighash.WitnessV0.preimage
  rw [h]
  exact ⟨_, rfl⟩

/-- Inputs in range have a digest for every hash type. -/
theorem exists_digest (hv : inTapscript (some c) = false) (hi : c.index < c.tx.inputs.length) (script : Bytes)
    (t : SighashType) : ∃ d, c.digest script t = .ok d := by
  have hin : c.tx.input c.index = .ok c.tx.inputs[c.index] := Transaction.input_eq_ok.2 (getElem?_eq_getElem hi)
  obtain ⟨tx, index, v, _ | amount | leaf⟩ := c
  · exact exists_legacyDigest hin script t
  · exact exists_witnessV0Digest hin _ amount t
  · cases hv

/-- The check of a legible signature does not fail. -/
theorem exists_outcome_checkSignature (hv : inTapscript (some c) = false) (hi : c.index < c.tx.inputs.length)
    {sig : Bytes} (hs : Legible sig) (key : Bytes) :
    ∃ verified, (checkSignature (some c) sig key script).outcome = .ok verified := by
  rw [checkSignature_eq hv]
  obtain rfl | ⟨der, type, r, s, rfl, hd⟩ := hs
  · exact ⟨false, rfl⟩
  · obtain ⟨d, hg⟩ := exists_digest hv hi script ⟨type⟩
    have hc := compact_eq_ok.2 ⟨r, s, hd, rfl⟩
    have hn : (der ++ [type]).isEmpty = false := by simp
    refine ⟨c.verifier.ecdsa key d (r.append s), ?_⟩
    rw [hn, verifyDer, splitHashType_eq_ok.2 rfl]
    simp only [Bool.false_eq_true, if_false, outcome_ofExcept_bind, ok_bind, hc, hg, outcome_ecdsa]

end Signing

/-! ## The stack of a multisignature check -/

/-- On top of the stack are one item without use, signatures and their number, keys
and their number, pushed in this order. -/
def HoldsMultisig (stack sigs keys below : List Bytes) : Prop :=
  ∃ n m unused, stack = n :: (keys.reverse ++ m :: (sigs.reverse ++ unused :: below)) ∧
    Number.decode 4 n = .ok keys.length ∧ Number.decode 4 m = .ok sigs.length

theorem HoldsMultisig.length_eq {stack sigs keys below : List Bytes} (h : HoldsMultisig stack sigs keys below) :
    stack.length = keys.length + sigs.length + 3 + below.length := by
  obtain ⟨n, m, unused, rfl, -, -⟩ := h
  simp only [length_cons, length_append, length_reverse]
  omega

theorem popMany_append (label : String) (items rest : List Bytes) (flags : List Bool) (calls : List Call) :
    Run.popMany label items.length ⟨items ++ rest, flags, calls⟩ = .ok items ⟨rest, flags, calls⟩ := by
  induction items with
  | nil => rfl
  | cons item items ih =>
    have hp : Run.pop label ⟨item :: items ++ rest, flags, calls⟩ = .ok item ⟨items ++ rest, flags, calls⟩ := rfl
    rw [length_cons, Run.popMany, bind_of_ok hp, bind_of_ok ih]
    rfl

/-- What a check comes to, it comes to on any machine, and only the log changes. -/
theorem ofCheck_of_outcome {α : Type} {check : Check α} (hf : check.LogFree) {a : α} (h : check.outcome = .ok a)
    (stack : List Bytes) (flags : List Bool) (calls : List Call) :
    ∃ calls', Run.ofCheck check ⟨stack, flags, calls⟩ = .ok a ⟨stack, flags, calls'⟩ := by
  have hc : valueOf (check calls) = .ok a := (valueOf_eq_outcome hf calls).trans h
  unfold Run.ofCheck
  cases hr : check calls with
  | ok b calls' =>
    rw [hr] at hc
    cases hc
    exact ⟨calls', rfl⟩
  | error e calls' =>
    rw [hr] at hc
    cases hc

section Checking

variable {context : Option Context} {stack sigs keys below : List Bytes}

/-- With as many keys and signatures as it allows, the check comes to matching them. -/
theorem checkMultisig_eq (hv : inTapscript context = false) (script : Bytes)
    (h : HoldsMultisig stack sigs keys below) (hle : sigs.length ≤ keys.length) (hmax : keys.length ≤ 20)
    (flags : List Bool) (calls : List Call) :
    checkMultisig context script ⟨stack, flags, calls⟩ =
      (Run.ofCheck (matchKeys (fun sig key => checkSignature context sig key script) sigs keys) >>= fun verified =>
        Run.push (ofBool verified)) ⟨below, flags, calls⟩ := by
  obtain ⟨n, m, unused, rfl, hn, hm⟩ := h
  have hkeys : ¬((keys.length : Int) < 0 ∨ maxKeys < keys.length) := by
    unfold maxKeys
    omega
  have hsigs : ¬((sigs.length : Int) < 0 ∨ (keys.length : Int) < sigs.length) := by omega
  have pop (label : String) (item : Bytes) (rest : List Bytes) :
      Run.pop label ⟨item :: rest, flags, calls⟩ = .ok item ⟨rest, flags, calls⟩ := rfl
  have num (k : Int) (rest : List Bytes) : Run.ofExcept (.ok k) ⟨rest, flags, calls⟩ = .ok k ⟨rest, flags, calls⟩ := rfl
  have popKeys := popMany_append Opcode.checkMultisig.label keys.reverse
    (m :: (sigs.reverse ++ unused :: below)) flags calls
  have popSigs := popMany_append Opcode.checkMultisig.label sigs.reverse (unused :: below) flags calls
  rw [length_reverse] at popKeys popSigs
  -- items come off the stack last first, and the check turns them round again
  simp only [checkMultisig, hv, Bool.false_eq_true, if_false]
  rw [bind_of_ok (pop _ n _), hn, bind_of_ok (num _ _), if_neg hkeys, Int.toNat_natCast, bind_of_ok popKeys,
    bind_of_ok (pop _ m _), hm, bind_of_ok (num _ _), if_neg hsigs, Int.toNat_natCast, bind_of_ok popSigs,
    bind_of_ok (pop _ unused _), reverse_reverse, reverse_reverse]

end Checking

/-! ## The check as a whole -/

section Running

variable {c : Context} {m : Machine} {sigs keys below : List Bytes}

/-- Checked one after the other, legible signatures come to whether keys in their
order fit them. -/
theorem exists_outcome_matchKeys_checkSignature (hv : inTapscript (some c) = false)
    (hi : c.index < c.tx.inputs.length) (script : Bytes) (hs : ∀ sig ∈ sigs, Legible sig) (keys : List Bytes) :
    ∃ verified, (matchKeys (fun sig key => checkSignature (some c) sig key script) sigs keys).outcome = .ok verified ∧
      (verified = true ↔ ∃ place : Fin sigs.length → Fin keys.length, StrictMono place ∧
        ∀ i, Validation.SignsDer c.verifier sigs[i] keys[place i] (c.digest script)) := by
  obtain ⟨verified, hr, hm⟩ := exists_outcome_matchKeys (logFree_checkSignature (some c) script)
    (fun sig hsig key => exists_outcome_checkSignature hv hi (hs sig hsig) key) keys
  refine ⟨verified, hr, hm.trans ?_⟩
  simp only [sublistForall₂_iff_exists_strictMono, Fits, outcome_checkSignature_iff hv]

/-- Outside tapscript a multisignature check with at most twenty keys takes all its
items and leaves whether the signatures verify under keys in the same order. No
empty signature does, and of none at all there is nothing to verify. -/
theorem runOpcode_checkMultisig (hv : inTapscript (some c) = false) (hi : c.index < c.tx.inputs.length)
    (script : Bytes) (h : HoldsMultisig m.stack sigs keys below) (hle : sigs.length ≤ keys.length)
    (hmax : keys.length ≤ 20) (hs : ∀ sig ∈ sigs, Legible sig) :
    m.stack.length = keys.length + sigs.length + 3 + below.length ∧
    ∃ verified calls,
      runOpcode (some c) script .checkMultisig m = .ok () ⟨ofBool verified :: below, m.flags, calls⟩ ∧
      (verified = true ↔ ∃ place : Fin sigs.length → Fin keys.length, StrictMono place ∧
        ∀ i, Validation.SignsDer c.verifier sigs[i] keys[place i] (c.digest script)) ∧
      ([] ∈ sigs → verified = false) ∧ (sigs = [] → verified = true) := by
  obtain ⟨verified, hr, hm⟩ := exists_outcome_matchKeys_checkSignature hv hi script hs keys
  have hf := logFree_matchKeys (logFree_checkSignature (some c) script) sigs keys
  obtain ⟨calls, hc⟩ := ofCheck_of_outcome hf hr below m.flags m.calls
  refine ⟨h.length_eq, verified, calls, ?_, hm, ?_, ?_⟩
  · have hx := checkMultisig_eq hv script h hle hmax m.flags m.calls
    rw [bind_of_ok hc] at hx
    exact hx
  · intro hempty
    obtain ⟨i, hlt, he⟩ := getElem_of_mem hempty
    refine Bool.eq_false_iff.2 fun ht => ?_
    obtain ⟨place, -, hp⟩ := hm.1 ht
    have hn := hp ⟨i, hlt⟩
    rw [Fin.getElem_fin, he] at hn
    exact Validation.not_signsDer_nil hn
  · rintro rfl
    exact hm.2 ⟨fun i => i.elim0, fun i => i.elim0, fun i => i.elim0⟩

end Running

open Transaction (shortSignature sevensKey keyHashSpend)

/-- Only one key signs. -/
def takesSevensKey : Verifier := { Verifier.rejecting with ecdsa := fun key _ _ => key == sevensKey }

/-- A script of an input in the first place, run as a witness script. -/
def sevensContext : Context := ⟨keyHashSpend [], 0, takesSevensKey, .witnessV0 50000⟩

/-- One signature for two keys, with another item below. -/
def oneOfTwo : Machine := ⟨[[0x02], sevensKey, [], [0x01], shortSignature, [], [0x2a]], [], []⟩

theorem runOpcode_checkMultisig_oneOfTwo :
    HoldsMultisig oneOfTwo.stack [shortSignature] [[], sevensKey] [[0x2a]] ∧ Legible shortSignature ∧
    ∃ calls, runOpcode (some sevensContext) [0xae] .checkMultisig oneOfTwo = .ok () ⟨[[0x01], [0x2a]], [], calls⟩ := by
  have hv : inTapscript (some sevensContext) = false := rfl
  have hi : sevensContext.index < sevensContext.tx.inputs.length := by decide
  have hh : HoldsMultisig oneOfTwo.stack [shortSignature] [[], sevensKey] [[0x2a]] :=
    ⟨[0x02], [0x01], [], rfl, rfl, rfl⟩
  have hl : Legible shortSignature := .inr ⟨[0x30, 0x06, 0x02, 0x01, 0x01, 0x02, 0x01, 0x01], 0x01, _, _, rfl, rfl⟩
  obtain ⟨-, verified, calls, hr, hm, -, -⟩ :=
    runOpcode_checkMultisig hv hi [0xae] hh (by decide) (by decide) (by simpa using hl)
  obtain ⟨d, hd⟩ := exists_digest hv hi [0xae] ⟨0x01⟩
  have hsigns : Validation.SignsDer takesSevensKey shortSignature sevensKey (sevensContext.digest [0xae]) :=
    ⟨[0x30, 0x06, 0x02, 0x01, 0x01, 0x02, 0x01, 0x01], 0x01, _, _, d, rfl, rfl, hd, rfl⟩
  have hp : StrictMono fun _ : Fin 1 => (1 : Fin 2) := Subsingleton.strictMono _
  obtain rfl : verified = true := hm.2 ⟨_, hp, fun | ⟨0, _⟩ => hsigns⟩
  exact ⟨hh, hl, calls, hr⟩

end Bitcoin.Script

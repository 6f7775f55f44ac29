import Bitcoin.Proofs.Validation.Verdict

/-!
# Declarations, hashes and scripts

Three of the judges, said without running them: what is declared of a prevout
fits its script (`Declared`), what unlocks it hashes to its script
(`HashesTo`), and its scripts run to true (`Runs`), the last two by the way the
input spends.
-/

namespace Bitcoin

/-- How an input spends, by the declared type of its prevout. -/
theorem Transaction.spendType_eq {tx : Transaction} {index : Nat} {i : Input} {o : Output}
    (hi : tx.inputs[index]? = some i) (ho : i.prevout = some o) :
    tx.spendType index = match o.type with
      | .p2pkh => .ok .p2pkh
      | .p2wpkh => .ok .p2wpkh
      | .p2wsh => .ok .p2wsh
      | .p2tr => .ok .p2tr
      | .p2sh =>
        if !i.hasWitness then .ok .p2sh
        else if i.scriptSig.length = 23 then .ok .p2shP2wpkh
        else if i.scriptSig.length = 35 then .ok .p2shP2wsh
        else .error (.input (.wrappedScriptSigLength index i.scriptSig.length))
      | .opReturn | .other _ => .error (.input (.unspendable index o.type)) := by
  rw [spendType, input_eq_ok.2 hi, (prevout_eq_ok hi).2 ho]
  rfl

/-- The type of the outputs that are spent in a way. -/
def SpendType.outputType : SpendType → OutputType
  | .p2pkh => .p2pkh
  | .p2wpkh => .p2wpkh
  | .p2wsh => .p2wsh
  | .p2tr => .p2tr
  | .p2sh | .p2shP2wpkh | .p2shP2wsh => .p2sh

/-- An input spends in a way of the declared type, and a bare script hash without
a witness. -/
theorem Transaction.of_spendType {tx : Transaction} {index : Nat} {i : Input} {o : Output} {type : SpendType}
    (hi : tx.inputs[index]? = some i) (ho : i.prevout = some o) (ht : tx.spendType index = .ok type) :
    type.outputType = o.type ∧ (type = .p2sh → i.hasWitness = false) := by
  rw [spendType_eq hi ho] at ht
  cases hp : o.type <;> simp only [hp] at ht
  case p2sh =>
    split at ht
    · rename_i hw
      cases ht
      exact ⟨rfl, fun _ => by simpa using hw⟩
    split at ht
    · cases ht
      exact ⟨rfl, nofun⟩
    split at ht <;> cases ht
    exact ⟨rfl, nofun⟩
  case opReturn | other => cases ht
  all_goals
    cases ht
    exact ⟨rfl, nofun⟩

/-- Whether a script, run on some items of which the last is on top, ends with
a true one on top. -/
def Script.Accepts (c : Script.Context) (items : List Bytes) (script : Bytes) : Prop :=
  valueOf (Script.executeBool (some c) script { Script.Machine.empty with stack := items.reverse }) = .ok true

namespace Validation

open Check Script

/-! ## Witnesses -/

theorem witnessItem_eq_ok {i : Input} {place : Nat} {item : Bytes} :
    witnessItem i place = .ok item ↔ i.witness[place]? = some item := by
  unfold witnessItem
  cases i.witness[place]? <;> simp

theorem witnessScript_eq_ok {i : Input} {items : List Bytes} {script : Bytes} :
    witnessScript i = .ok (items, script) ↔ i.witness = items ++ [script] := by
  unfold witnessScript
  rcases List.eq_nil_or_concat i.witness with h | ⟨front, last, h⟩ <;> simp [h]

/-! ## Declarations -/

/-- What is declared of a prevout fits its script: the type allows its length,
the address decodes to it; and the witness of a key hash has two items. -/
structure Declared (i : Input) (o : Output) : Prop where
  length : o.type.scriptLength? = some o.script.length
  items : o.type = .p2wpkh → i.witness.length = 2
  address : ∃ a, o.address = some a ∧ Address.decode a = .ok o.script

/-- A spendable type does not allow an empty script. -/
theorem length_pos_of_scriptLength? {type : OutputType} {n : Nat} (h : type.scriptLength? = some n) :
    0 < n := by
  cases type <;> simp [OutputType.scriptLength?] at h <;> omega

/-- What there is against a prevout whose length and address fit its type and script. -/
theorem judgeMetadata_eq {i : Input} {o : Output} (index : Nat) (hl : o.type.scriptLength? = some o.script.length)
    {a : String} (ha : o.address = some a) (hs : Address.decode a = .ok o.script) : judgeMetadata index i o =
      pure (if o.type = .p2wpkh ∧ i.witness.length ≠ 2 then some (.witnessItems index i.witness.length) else none) := by
  have hne := List.ne_nil_of_length_pos (length_pos_of_scriptLength? hl)
  rw [judgeMetadata, if_neg (by simpa using hne), hl]
  dsimp only
  rw [if_neg (not_not_intro rfl), ha]
  dsimp only
  split
  · rfl
  · rw [hs]
    show (pure (if o.script = o.script then none else _) : Check (Option Objection)) = _
    rw [if_pos rfl]

theorem outcome_judgeMetadata (index : Nat) (i : Input) (o : Output) :
    (judgeMetadata index i o).outcome = .ok none ↔ Declared i o := by
  constructor
  · intro h
    unfold judgeMetadata at h
    split at h
    · simp at h
    split at h
    · simp at h
    · rename_i expected hl
      split at h
      · simp at h
      rename_i hn
      split at h
      · simp at h
      rename_i hw
      split at h
      · simp at h
      · rename_i address ha
        rw [outcome_ofExcept_bind, bind_eq_ok] at h
        obtain ⟨script, hs, he⟩ := h
        simp at he hn hw
        exact ⟨hn ▸ hl, hw, address, ha, he ▸ hs⟩
  · intro ⟨hl, hw, address, ha, hs⟩
    rw [judgeMetadata_eq index hl ha hs, if_neg fun h => h.2 (hw h.1)]
    rfl

/-! ## Hashes -/

/-- What unlocks an input hashes to a locking script. -/
def HashesTo (i : Input) (type : SpendType) (lock : Bytes) : Prop :=
  match type with
  | .p2tr => True
  | .p2pkh => ∃ key, lastPushed i.scriptSig = .ok key ∧ lock = payToKeyHash (hash160 key).val
  | .p2wpkh => ∃ key, i.witness[1]? = some key ∧ lock = programV0 (hash160 key).val
  | .p2wsh => ∃ items script, i.witness = items ++ [script] ∧ lock = programV0 (sha256 script).val
  | .p2sh => ∃ redeem, lastPushed i.scriptSig = .ok redeem ∧ lock = payToScriptHash (hash160 redeem).val
  | .p2shP2wpkh => ∃ redeem key, lastPushed i.scriptSig = .ok redeem ∧ i.witness[1]? = some key ∧
      redeem = programV0 (hash160 key).val ∧ lock = payToScriptHash (hash160 redeem).val
  | .p2shP2wsh => ∃ redeem items script, lastPushed i.scriptSig = .ok redeem ∧
      i.witness = items ++ [script] ∧ redeem = programV0 (sha256 script).val ∧
      lock = payToScriptHash (hash160 redeem).val

/-- Whether the script found for an input, if there is one, is its locking script. -/
def Unlocks (found : Except Error (Except Objection (Option Bytes))) (lock : Bytes) : Prop :=
  ∃ script, found = .ok (.ok script) ∧ ∀ s ∈ script, s = lock

section Unlocks

variable {lock script : Bytes} {objection : Objection}

theorem unlocks_bind {α : Type} {x : Except Error α} {f : α → Except Error (Except Objection (Option Bytes))} :
    Unlocks (x >>= f) lock ↔ ∃ a, x = .ok a ∧ Unlocks (f a) lock := by
  cases x with
  | ok a => simp
  | error e =>
    constructor
    · intro ⟨_, h, _⟩
      cases h
    · intro ⟨_, h, _⟩
      cases h

theorem unlocks_some : Unlocks (pure (.ok (some script))) lock ↔ lock = script := by
  constructor
  · intro ⟨_, h, hs⟩
    cases h
    exact (hs script rfl).symm
  · rintro rfl
    exact ⟨_, rfl, by simp⟩

theorem unlocks_none : Unlocks (pure (.ok none)) lock :=
  ⟨none, rfl, by simp⟩

theorem unlocks_error : ¬Unlocks (pure (.error objection)) lock := nofun

/-- A redeem script has to be the program of the witness. -/
theorem unlocks_unless {redeem program : Bytes} :
    Unlocks (if redeem ≠ program then pure (.error objection) else pure (.ok (some script))) lock ↔
      redeem = program ∧ lock = script := by
  by_cases h : redeem = program
  · simp [h, unlocks_some]
  · simp [h, unlocks_error]

end Unlocks

theorem unlocks_unlockedScript (index : Nat) (i : Input) (type : SpendType) (lock : Bytes) :
    Unlocks (unlockedScript index i type) lock ↔ HashesTo i type lock := by
  cases type <;> simp only [unlockedScript, HashesTo, unlocks_bind, unlocks_some, unlocks_none, unlocks_unless,
    witnessItem_eq_ok, Prod.exists, witnessScript_eq_ok, exists_and_left]

theorem outcome_judgeHashes {tx : Transaction} {index : Nat} {type : SpendType}
    (ht : tx.spendType index = .ok type) (i : Input) (o : Output) :
    (judgeHashes tx index i o).outcome = .ok none ↔ HashesTo i type o.script := by
  rw [← unlocks_unlockedScript index, judgeHashes, outcome_ofExcept_bind, ht, ok_bind, outcome_ofExcept_bind,
    bind_eq_ok]
  constructor
  · intro hx
    rcases hx with ⟨objection | _ | script, h, hs⟩
    · simp at hs
    · exact ⟨none, h, nofun⟩
    · exact ⟨some script, h, by simpa using hs⟩
  · intro hx
    rcases hx with ⟨_ | script, h, hs⟩
    · exact ⟨_, h, rfl⟩
    · exact ⟨_, h, by simpa using hs⟩

/-! ## Scripts -/

/-- The machine with some items, the last of them on top. -/
theorem forM_push (items : List Bytes) : ∀ m : Machine,
    items.forM Run.push m = .ok () { m with stack := items.reverse ++ m.stack } := by
  induction items with
  | nil => exact fun _ => rfl
  | cons item items ih =>
    intro m
    have h : (item :: items).forM Run.push m = items.forM Run.push (m.push item) := rfl
    rw [h, ih, Machine.push, List.reverse_cons, List.append_assoc]
    rfl

theorem valueOf_runOn (c : Context) (items : List Bytes) (script : Bytes) (m : Machine) :
    valueOf (runOn c items script m) = .ok true ↔ Accepts c items script := by
  have h : runOn c items script m =
      executeBool (some c) script (({ Machine.empty with stack := items.reverse }).behind m.calls) := by
    show EStateM.bind (items.forM Run.push) (fun _ => executeBool (some c) script) m.clear = _
    unfold EStateM.bind
    rw [forM_push]
    simp [Machine.clear, Machine.behind, Machine.empty]
  rw [h, logFree_executeBool _ _ m.calls, valueOf_onState, Accepts]

/-- An unlocking script runs to its end, and the locking script, run on what it
leaves, to true; it left these items, top first. -/
def Opens (c : Context) (scriptSig lock : Bytes) (items : List Bytes) : Prop :=
  ∃ top m m', execute (some c) scriptSig .empty = .ok top m ∧
    executeBool (some c) lock m = .ok true m' ∧ items = m.stack

/-- The script that a script hash is of, or the witness program it wraps, holds
for an input whose unlocking script left these items, top first. -/
def Redeems (tx : Transaction) (v : Verifier) (index : Nat) (i : Input) (o : Output) (type : SpendType)
    (unlocking : List Bytes) : Prop :=
  match type with
  | .p2shP2wpkh => ∃ redeem sig key, lastPushed i.scriptSig = .ok redeem ∧ redeem.length = 22 ∧
      i.witness[0]? = some sig ∧ i.witness[1]? = some key ∧
      Accepts ⟨tx, index, v, .witnessV0 o.value⟩ [sig, key] (payToKeyHash (redeem.drop 2))
  | .p2shP2wsh => ∃ items script, i.witness = items ++ [script] ∧
      Accepts ⟨tx, index, v, .witnessV0 o.value⟩ items script
  | _ => ∃ redeem items, unlocking = redeem :: items ∧ Accepts ⟨tx, index, v, .base⟩ items.reverse redeem

/-- The scripts of an input hold; spends of keys have none. -/
def Runs (tx : Transaction) (v : Verifier) (index : Nat) (i : Input) (o : Output) (type : SpendType) : Prop :=
  match type with
  | .p2pkh | .p2wpkh | .p2tr => True
  | .p2wsh => ∃ items script, i.witness = items ++ [script] ∧
      Accepts ⟨tx, index, v, .witnessV0 o.value⟩ items script
  | .p2sh | .p2shP2wpkh | .p2shP2wsh => ∃ items, Opens ⟨tx, index, v, .base⟩ i.scriptSig o.script items ∧
      Redeems tx v index i o type items

theorem valueOf_ofExcept_bind {α β : Type} (x : Except Error α) (k : α → Run β) (m : Machine) :
    valueOf ((Run.ofExcept x >>= k) m) = x >>= fun a => valueOf (k a m) := by
  cases x <;> rfl

theorem keyHashProgram_eq_ok {redeem program : Bytes} :
    keyHashProgram redeem = .ok program ↔ redeem.length = 22 ∧ redeem.drop 2 = program := by
  unfold keyHashProgram
  split <;> simp [*]

theorem valueOf_runTop (c : Context) (unlocking : List Bytes) (m : Machine) :
    valueOf (runTop c unlocking m) = .ok true ↔
      ∃ redeem items, unlocking = redeem :: items ∧ Accepts c items.reverse redeem := by
  constructor
  · intro h
    cases unlocking with
    | nil => cases h
    | cons redeem items => exact ⟨redeem, items, rfl, (valueOf_runOn _ _ _ _).1 h⟩
  · intro hx
    obtain ⟨redeem, items, rfl, h⟩ := hx
    exact (valueOf_runOn _ _ _ _).2 h

theorem valueOf_runRedeemed (tx : Transaction) (v : Verifier) (index : Nat) (i : Input) (o : Output)
    (type : SpendType) (unlocking : List Bytes) (m : Machine) :
    valueOf (runRedeemed ⟨tx, index, v, .base⟩ i o type unlocking m) = .ok true ↔
      Redeems tx v index i o type unlocking := by
  cases type with
  | p2shP2wpkh =>
    simp only [runRedeemed, Redeems, valueOf_ofExcept_bind, bind_eq_ok, valueOf_runOn, keyHashProgram_eq_ok,
      witnessItem_eq_ok]
    constructor
    · intro hx
      obtain ⟨redeem, hr, _, ⟨hl, rfl⟩, sig, hs, key, hk, h⟩ := hx
      exact ⟨redeem, sig, key, hr, hl, hs, hk, h⟩
    · intro hx
      obtain ⟨redeem, sig, key, hr, hl, hs, hk, h⟩ := hx
      exact ⟨redeem, hr, _, ⟨hl, rfl⟩, sig, hs, key, hk, h⟩
  | p2shP2wsh =>
    simp only [runRedeemed, Redeems, valueOf_ofExcept_bind, bind_eq_ok, valueOf_runOn, Prod.exists,
      witnessScript_eq_ok]
  | _ => exact valueOf_runTop _ _ _

/-- Spends of script hashes run the unlocking and the locking script first. -/
theorem valueOf_runInput_scriptHash (tx : Transaction) (v : Verifier) (index : Nat) (i : Input) (o : Output)
    (type : SpendType) :
    valueOf ((do
      let _ ← execute (some ⟨tx, index, v, .base⟩) i.scriptSig
      let m ← get
      if ← executeBool (some ⟨tx, index, v, .base⟩) o.script then
        runRedeemed ⟨tx, index, v, .base⟩ i o type m.stack
      else return false : Run Bool) .empty) = .ok true ↔
      ∃ items, Opens ⟨tx, index, v, .base⟩ i.scriptSig o.script items ∧ Redeems tx v index i o type items := by
  constructor
  · intro h
    obtain ⟨top, m, hm, h⟩ := valueOf_bind_eq_ok.1 h
    obtain ⟨_, _, hg, h⟩ := valueOf_bind_eq_ok.1 h
    cases hg
    obtain ⟨_ | _, m', hl, h⟩ := valueOf_bind_eq_ok.1 h
    · cases h
    · exact ⟨m.stack, ⟨top, m, m', hm, hl, rfl⟩, (valueOf_runRedeemed _ _ _ _ _ _ _ m').1 h⟩
  · intro hx
    obtain ⟨_, ⟨top, m, m', hm, hl, rfl⟩, h⟩ := hx
    exact valueOf_bind_eq_ok.2 ⟨top, m, hm, valueOf_bind_eq_ok.2 ⟨m, m, rfl,
      valueOf_bind_eq_ok.2 ⟨true, m', hl, (valueOf_runRedeemed _ _ _ _ _ _ _ m').2 h⟩⟩⟩

theorem valueOf_runInput (tx : Transaction) (v : Verifier) (index : Nat) (i : Input) (o : Output)
    (type : SpendType) :
    valueOf (runInput tx v index i o type .empty) = .ok true ↔ Runs tx v index i o type := by
  cases type with
  | p2pkh | p2wpkh | p2tr => exact iff_of_true rfl trivial
  | p2wsh =>
    simp only [runInput, Runs, valueOf_ofExcept_bind, bind_eq_ok, valueOf_runOn, Prod.exists,
      witnessScript_eq_ok]
  | p2sh | p2shP2wpkh | p2shP2wsh => exact valueOf_runInput_scriptHash _ _ _ _ _ _

theorem outcome_judgeScripts {tx : Transaction} {index : Nat} {type : SpendType}
    (ht : tx.spendType index = .ok type) (v : Verifier) (i : Input) (o : Output) :
    (judgeScripts tx v index i o).outcome = .ok none ↔ Runs tx v index i o type := by
  rw [← valueOf_runInput, judgeScripts, outcome_ofExcept_bind, ht, ok_bind, outcome_bind_pure,
    Run.outcome_toCheck, bind_eq_ok]
  constructor
  · intro hx
    rcases hx with ⟨_ | _, h, hs⟩
    · simp at hs
    · exact h
  · exact fun h => ⟨true, h, rfl⟩

end Validation

end Bitcoin

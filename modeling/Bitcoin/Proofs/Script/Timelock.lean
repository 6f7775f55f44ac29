import Bitcoin.Proofs.Script.Balance
import Bitcoin.Proofs.Wire.Fields

/-!
# Time locks only open

Two operations look at the time: at the lock time of the transaction, and at the
sequence number of the input. Both fail unless a number on the stack is within
it, and leave the stack as it is. So where they succeed they do so at any later
time, with the same machine left (`Carries`); those that check signatures apart,
no other operation looks at the transaction. A script that succeeds without
checking a signature runs the same operations at any later time, to the same end
(`execute_delayed`).
-/

namespace Bitcoin

/-- The transaction with another lock time, and another sequence number for the
input at a place. -/
def Transaction.delayed (tx : Transaction) (index : Nat) (locktime sequence : UInt32) : Transaction :=
  { tx with locktime, inputs := tx.inputs.modify index fun i => { i with sequence } }

theorem Transaction.input_delayed {tx : Transaction} {index : Nat} {i : Input} (h : tx.input index = .ok i)
    (locktime sequence : UInt32) : (tx.delayed index locktime sequence).input index = .ok { i with sequence } := by
  rw [input_eq_ok] at h ⊢
  rw [delayed, List.getElem?_modify_eq, h]
  rfl

namespace Script

/-- The context of the transaction with another lock time and another sequence
number for its input. -/
def Context.delayed (c : Context) (locktime sequence : UInt32) : Context :=
  { c with tx := c.tx.delayed c.index locktime sequence }

/-! ## What a run comes to at a later time -/

section Carries

variable {α β : Type}

/-- Where one run succeeds, so does another, to the same value and machine. -/
def Carries (r r' : EStateM.Result Error Machine α) : Prop := ∀ a s, r = .ok a s → r' = .ok a s

theorem Carries.refl (r : EStateM.Result Error Machine α) : Carries r r := fun _ _ h => h

theorem Carries.bind {x y : Run α} {k l : α → Run β} {m : Machine} (h : Carries (x m) (y m))
    (hk : ∀ a s, x m = .ok a s → Carries (k a s) (l a s)) : Carries ((x >>= k) m) ((y >>= l) m) := by
  intro b t hb
  obtain ⟨a, s, ha, hb⟩ := exists_of_bind_eq_ok hb
  rw [bind_of_ok (h a s ha)]
  exact hk a s ha b t hb

end Carries

/-- A higher limit lets all numbers pass that a lower one does. -/
theorem carries_checkTime {limit limit' : UInt32} (h : limit ≤ limit') (op : Opcode) (m : Machine) :
    Carries (checkTime op limit m) (checkTime op limit' m) := by
  refine .bind (.refl _) fun item s _ => .bind (.refl _) fun required t _ a u hu => ?_
  split at hu
  · cases hu
  · rename_i hn
    have hl : limit.toNat ≤ limit'.toNat := UInt32.le_iff_toNat_le.1 h
    rw [if_neg (by omega)]
    exact hu

/-! ## Operations -/

/-- Whether an operation checks signatures. -/
def Opcode.checksSignatures : Opcode → Bool
  | checkSig | checkSigVerify | checkMultisig => true
  | _ => false

/-- The operation that an instruction runs on a machine: where a block is not
taken, only one on blocks. -/
def Instruction.operation? (m : Machine) : Instruction → Option Opcode
  | push .. => none
  | op byte =>
    match Opcode.ofByte? byte with
    | some (.branch b) => some (.branch b)
    | found => if m.executing then found else none

/-- The operations that the steps of some instructions run, up to the first that fails. -/
def operations (context : Option Context) (script : Bytes) : List Instruction → Machine → List Opcode
  | [], _ => []
  | i :: is, m =>
    (i.operation? m).toList ++
      match step context script i m with
      | .ok _ s => operations context script is s
      | .error _ _ => []

/-- The operations that a script runs. -/
def executed (context : Option Context) (script : Bytes) (m : Machine) : List Opcode :=
  operations context script (decode script).instructions (m.withFlags [])

/-- None of some operations checks signatures. -/
def SignatureFree (ops : List Opcode) : Prop := ∀ op ∈ ops, op.checksSignatures = false

theorem signatureFree_append {ops ops' : List Opcode} :
    SignatureFree (ops ++ ops') ↔ SignatureFree ops ∧ SignatureFree ops' := List.forall_mem_append

theorem operation?_op {byte : UInt8} {op : Opcode} {m : Machine} (h : Opcode.ofByte? byte = some op)
    (hm : m.executing = true) : (Instruction.op byte).operation? m = some op := by
  cases op <;> simp [Instruction.operation?, h, hm]

/-! ## Runs -/

section Delayed

variable {c : Context} {locktime sequence : UInt32} (hl : c.tx.locktime ≤ locktime)
  (hs : ∀ i, c.tx.input c.index = .ok i → i.sequence ≤ sequence)

include hl hs

theorem carries_runOpcode {op : Opcode} (h : op.checksSignatures = false) (script : Bytes) (m : Machine) :
    Carries (runOpcode (some c) script op m) (runOpcode (some (c.delayed locktime sequence)) script op m) := by
  cases op with
  | checkSig | checkSigVerify | checkMultisig => cases h
  | checkLockTime => exact carries_checkTime hl _ m
  | checkSequence =>
    intro a t ht
    change (Run.ofExcept (c.tx.input c.index) >>= fun i => checkTime .checkSequence i.sequence) m = .ok a t at ht
    show (Run.ofExcept ((c.tx.delayed c.index locktime sequence).input c.index) >>= fun i =>
      checkTime .checkSequence i.sequence) m = .ok a t
    cases hi : c.tx.input c.index with
    | error e =>
      rw [hi] at ht
      cases ht
    | ok i =>
      rw [hi] at ht
      rw [Transaction.input_delayed hi]
      exact carries_checkTime (hs i hi) _ m a t ht
  | _ => exact .refl _

theorem carries_step {i : Instruction} {m : Machine} (h : SignatureFree (i.operation? m).toList) (script : Bytes) :
    Carries (step (some c) script i m) (step (some (c.delayed locktime sequence)) script i m) := by
  cases hb : i.branch? with
  | some b =>
    obtain rfl := Instruction.branch?_eq_some_iff.1 hb
    rw [step_instruction, step_instruction]
    exact .refl _
  | none =>
    rw [step_of_plain hb, step_of_plain hb]
    split
    · rename_i hm
      cases i with
      | push form data => exact .refl _
      | op byte =>
        unfold Instruction.run
        dsimp only
        cases ho : Opcode.ofByte? byte with
        | none => exact .refl _
        | some op =>
          dsimp only
          refine carries_runOpcode hl hs (h op ?_) script m
          rw [operation?_op ho hm]
          exact List.mem_singleton_self op
    · exact .refl _

/-- The steps of some instructions, and the operations they run, by induction on
the instructions. -/
theorem steps_delayed (script : Bytes) (is : List Instruction) {m s : Machine}
    (h : steps (some c) script is m = .ok () s) (hn : SignatureFree (operations (some c) script is m)) :
    steps (some (c.delayed locktime sequence)) script is m = .ok () s ∧
      operations (some (c.delayed locktime sequence)) script is m = operations (some c) script is m := by
  induction is generalizing m with
  | nil =>
    rw [steps_nil] at h ⊢
    exact ⟨h, by rw [operations, operations]⟩
  | cons i is ih =>
    obtain ⟨_, n, hi, his⟩ := exists_of_bind_eq_ok h
    simp only [operations, hi] at hn ⊢
    obtain ⟨hop, hops⟩ := signatureFree_append.1 hn
    have hd := carries_step hl hs hop script () n hi
    obtain ⟨hsteps, hsame⟩ := ih his hops
    rw [steps_cons_of_ok hd, hd]
    exact ⟨hsteps, congrArg _ hsame⟩

/-- A script that succeeds without checking a signature does so at any later lock
time and sequence number, again without checking one, and leaves the same. -/
theorem execute_delayed {script top : Bytes} {m s : Machine} (h : execute (some c) script m = .ok top s)
    (hn : SignatureFree (executed (some c) script m)) :
    SignatureFree (executed (some (c.delayed locktime sequence)) script m) ∧
      execute (some (c.delayed locktime sequence)) script m = .ok top s := by
  rw [execute_eq] at h ⊢
  obtain ⟨_, n, hn', hf⟩ := exists_of_bind_eq_ok h
  obtain ⟨hsteps, hsame⟩ := steps_delayed hl hs script _ hn' hn
  rw [bind_of_ok hsteps, executed, hsame]
  exact ⟨hn, hf⟩

end Delayed

/-- A context at lock time and sequence number five. -/
def timedContext : Context where
  tx :=
    { version := 2
      locktime := 5
      inputs := [.make ⟨FixedBytes.zero 32, 1⟩ none [] [] 5]
      outputs := [] }
  index := 0
  verifier := .secp256k1
  version := .base

/-- A block that asks for a lock time, and for a signature where it is not taken;
then for a sequence number, which is written with a byte too many. -/
theorem execute_delayed_timedContext :
    let script : Bytes := [0x63, 0x55, 0xb1, 0x75, 0x67, 0xac, 0x68, 0x02, 0x05, 0x00, 0xb2]
    execute (some timedContext) script ⟨[[1]], [], []⟩ = .ok [5, 0] ⟨[[5, 0]], [], []⟩ ∧
    SignatureFree (executed (some timedContext) script ⟨[[1]], [], []⟩) ∧
    SignatureFree (executed (some (timedContext.delayed 500 0xfffffffe)) script ⟨[[1]], [], []⟩) ∧
    execute (some (timedContext.delayed 500 0xfffffffe)) script ⟨[[1]], [], []⟩ = .ok [5, 0] ⟨[[5, 0]], [], []⟩ := by
  intro script
  have hd : decode script =
      ⟨[.op 0x63, .op 0x55, .op 0xb1, .op 0x75, .op 0x67, .op 0xac, .op 0x68, .push .direct [5, 0], .op 0xb2], none⟩ := by
    decide +kernel
  have he : execute (some timedContext) script ⟨[[1]], [], []⟩ = .ok [5, 0] ⟨[[5, 0]], [], []⟩ := by
    rw [execute_eq, hd]
    rfl
  have hn : SignatureFree (executed (some timedContext) script ⟨[[1]], [], []⟩) := by
    rw [executed, hd, SignatureFree]
    decide
  have hs : ∀ i, timedContext.tx.input timedContext.index = .ok i → i.sequence ≤ 0xfffffffe := by
    intro i hi
    cases hi
    decide
  exact ⟨he, hn, execute_delayed (by decide) hs he hn⟩

end Script

end Bitcoin

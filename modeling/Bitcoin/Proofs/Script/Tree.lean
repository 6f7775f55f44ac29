import Bitcoin.Proofs.Script.Log

/-!
# Scripts as nested blocks

A script whose blocks are balanced is a tree: what a block holds stands between
its opening and its close, in branches with an else between each two. `flatten`
writes a tree out as instructions. `eval` runs it by recursion: a block takes
one condition from the stack and runs every other one of its branches, from the
first or from the second on; the rest of the block is not looked at. Evaluation
has nothing to do with the flags of the machine (`blind_eval`).
-/

namespace Bitcoin.Script

/-! ## Operations on blocks -/

/-- The opcode of an operation on blocks. -/
def Branch.byte : Branch → UInt8
  | whenTrue => 0x63
  | whenFalse => 0x64
  | otherwise => 0x67
  | close => 0x68

/-- An operation on blocks as an instruction. -/
def Branch.instruction (b : Branch) : Instruction := .op b.byte

/-- What opens a block that is taken where the condition is `wanted`. -/
def Branch.opening (wanted : Bool) : Branch := if wanted then whenTrue else whenFalse

/-- The operation on blocks that an instruction is, if it is one. -/
def Instruction.branch? : Instruction → Option Branch
  | push .. => none
  | op byte =>
    match Opcode.ofByte? byte with
    | some (.branch b) => some b
    | _ => none

theorem Branch.ofByte?_byte (b : Branch) : Opcode.ofByte? b.byte = some (.branch b) := by
  cases b <;> decide

theorem Branch.byte_of_mem_table (b : Branch) : ∀ p ∈ Opcode.table, p.2 = .branch b → p.1 = b.byte := by
  cases b <;> decide

theorem Branch.eq_byte_of_ofByte? {b : Branch} {byte : UInt8} (h : Opcode.ofByte? byte = some (.branch b)) :
    byte = b.byte := by
  unfold Opcode.ofByte? at h
  split at h
  · cases h
  · obtain ⟨p, hp, ho⟩ := Option.map_eq_some_iff.1 h
    have hb := List.find?_some hp
    rw [← b.byte_of_mem_table p (List.mem_of_find?_eq_some hp) ho]
    exact (beq_iff_eq.1 hb).symm

theorem Instruction.branch?_eq_some_iff {i : Instruction} {b : Branch} : i.branch? = some b ↔ i = b.instruction := by
  constructor
  · intro h
    cases i with
    | push form data => cases h
    | op byte =>
      unfold branch? at h
      dsimp only at h
      split at h
      · rename_i c hc
        cases h
        rw [Branch.instruction, Branch.eq_byte_of_ofByte? hc]
      · cases h
  · rintro rfl
    simp only [Branch.instruction, branch?, b.ofByte?_byte]

/-- Runs an instruction that is not one on blocks. -/
def Instruction.run (context : Option Context) (script : Bytes) : Instruction → Run Unit
  | push _ data => Run.push data
  | op byte =>
    match Opcode.ofByte? byte with
    | some o => runOpcode context script o
    | none => throw (.notImplemented byte)

/-! ## Trees -/

mutual

/-- A script with balanced blocks. -/
inductive Tree where
  | done
  /-- An instruction that is not one on blocks. -/
  | plain (i : Instruction) (h : i.branch? = none) (rest : Tree)
  /-- A block, whose first branch is for the condition `wanted`. -/
  | block (wanted : Bool) (branches : Branches) (rest : Tree)

/-- The branches of a block. -/
inductive Branches where
  | last (body : Tree)
  | more (body : Tree) (others : Branches)

end

mutual

/-- The instructions of a tree. -/
def Tree.flatten : Tree → List Instruction
  | .done => []
  | .plain i _ rest => i :: rest.flatten
  | .block wanted branches rest =>
    (Branch.opening wanted).instruction :: (branches.flatten ++ Branch.close.instruction :: rest.flatten)

/-- The instructions between the opening of a block and its close. -/
def Branches.flatten : Branches → List Instruction
  | .last body => body.flatten
  | .more body others => body.flatten ++ Branch.otherwise.instruction :: others.flatten

end

section Evaluation

variable (context : Option Context) (script : Bytes)

mutual

/-- Runs a tree. -/
def Tree.eval : Tree → Run Unit
  | .done => pure ()
  | .plain i _ rest => do
    i.run context script
    rest.eval
  | .block wanted branches rest => do
    let condition ← Run.pop (Opcode.branch (.opening wanted)).label
    branches.eval (isTrue condition == wanted)
    rest.eval

/-- Runs every other branch, the first if it is `taken`. -/
def Branches.eval : Branches → Bool → Run Unit
  | .last body, taken => if taken then body.eval else pure ()
  | .more body others, taken => do
    if taken then body.eval
    others.eval (!taken)

end

/-- Runs a tree and gives the item then on top, or the empty byte string if
there is none. -/
def Tree.execute (t : Tree) : Run Bytes := do
  t.eval context script
  let m ← get
  return m.stack.headD []

variable {context script}

theorem composed_run {i : Instruction} (h : i.branch? = none) : (i.run context script).Composed := by
  cases i with
  | push form data => exact .push _
  | op byte =>
    unfold Instruction.run
    dsimp only
    split
    · rename_i op ho
      refine composed_runOpcode context script ?_
      rintro b rfl
      simp only [Instruction.branch?, ho] at h
      cases h
    · exact .throw _

mutual

theorem Tree.blind_eval : ∀ t : Tree, (t.eval context script).Blind
  | .done => by
    rw [Tree.eval]
    exact .pure _
  | .plain i h rest => by
    rw [Tree.eval]
    exact .bind (composed_run h).blind fun _ => rest.blind_eval
  | .block wanted branches rest => by
    rw [Tree.eval]
    exact .bind (.pop _) fun _ => .bind (branches.blind_eval _) fun _ => rest.blind_eval

theorem Branches.blind_eval : ∀ (bs : Branches) (taken : Bool), (bs.eval context script taken).Blind
  | .last body, taken => by
    rw [Branches.eval]
    split
    · exact body.blind_eval
    · exact .pure _
  | .more body others, taken => by
    rw [Branches.eval]
    split
    · exact .bind body.blind_eval fun _ => others.blind_eval _
    · exact .bind (.pure _) fun _ => others.blind_eval _

end

end Evaluation

end Bitcoin.Script

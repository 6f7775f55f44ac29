import Bitcoin.Proofs.Script.Nesting

/-!
# Scripts that run to their end

A script that runs to its end is a tree of blocks. Read from the last
instruction to the first, what is left of it within `n` open blocks is, for
each of these, the rest of its branches and its close (`leftover`); every step
keeps the number of flags in line with that (`exists_leftover_of_steps`). So
running a script and running its tree are the same thing
(`execute_refines_tree_execute`).
-/

namespace Bitcoin.Script

/-! ## What is left within open blocks -/

/-- The instructions left within open blocks, the innermost first, and those
that follow the last close. -/
def leftover : List Branches → Tree → List Instruction
  | [], t => t.flatten
  | bs :: outer, t => bs.flatten ++ Branch.close.instruction :: leftover outer t

section Prepend

variable {front : List Instruction} {f : Tree → Tree}

theorem Branches.exists_prepend (hf : ∀ t, (f t).flatten = front ++ t.flatten) :
    ∀ bs : Branches, ∃ bs' : Branches, bs'.flatten = front ++ bs.flatten
  | .last body => ⟨.last (f body), by rw [flatten, flatten, hf]⟩
  | .more body others => ⟨.more (f body) others, by rw [flatten, flatten, hf, List.append_assoc]⟩

/-- What a tree may begin with, what is left may begin with. -/
theorem exists_prepend (hf : ∀ t, (f t).flatten = front ++ t.flatten) (pending : List Branches) (t : Tree) :
    ∃ pending' t', pending'.length = pending.length ∧ front ++ leftover pending t = leftover pending' t' := by
  cases pending with
  | nil => exact ⟨[], f t, rfl, (hf t).symm⟩
  | cons bs outer =>
    obtain ⟨bs', hb⟩ := bs.exists_prepend hf
    exact ⟨bs' :: outer, t, rfl, by rw [leftover, leftover, hb, List.append_assoc]⟩

end Prepend

/-! ## One instruction more -/

theorem exists_plain_cons_leftover {i : Instruction} (hi : i.branch? = none) (pending : List Branches) (t : Tree) :
    ∃ pending' t', pending'.length = pending.length ∧ i :: leftover pending t = leftover pending' t' :=
  exists_prepend (fun t => by rw [Tree.flatten]; rfl : ∀ t, (Tree.plain i hi t).flatten = [i] ++ t.flatten) pending t

theorem exists_opening_cons_leftover (wanted : Bool) (bs : Branches) (outer : List Branches) (t : Tree) :
    ∃ pending' t', pending'.length = outer.length ∧
      (Branch.opening wanted).instruction :: leftover (bs :: outer) t = leftover pending' t' := by
  have hb : ∀ t, (Tree.block wanted bs t).flatten =
      ((Branch.opening wanted).instruction :: (bs.flatten ++ [Branch.close.instruction])) ++ t.flatten := fun t => by
    rw [Tree.flatten, List.append_cons, List.cons_append]
  obtain ⟨pending', t', hp, he⟩ := exists_prepend hb outer t
  exact ⟨pending', t', hp, by rw [← he, leftover, List.append_cons, List.cons_append]⟩

theorem otherwise_cons_leftover (bs : Branches) (outer : List Branches) (t : Tree) :
    Branch.otherwise.instruction :: leftover (bs :: outer) t = leftover (.more .done bs :: outer) t := by
  rw [leftover, leftover, Branches.flatten, Tree.flatten]
  rfl

theorem close_cons_leftover (pending : List Branches) (t : Tree) :
    Branch.close.instruction :: leftover pending t = leftover (.last .done :: pending) t := by
  rw [leftover, Branches.flatten, Tree.flatten]
  rfl

/-! ## Steps and flags -/

variable {context : Option Context} {script : Bytes} {m s : Machine}

theorem flags_of_step_plain {i : Instruction} (hi : i.branch? = none) (h : step context script i m = .ok () s) :
    s.flags = m.flags := by
  rw [step_of_plain hi] at h
  split at h
  · exact (composed_run hi).blind.flags_eq h
  · cases h
    rfl

theorem flags_of_step_opening {wanted : Bool}
    (h : step context script (Branch.opening wanted).instruction m = .ok () s) :
    ∃ taken, s.flags = taken :: m.flags := by
  rw [step_instruction] at h
  cases hm : m.executing with
  | false =>
    rw [runBranch_opening_of_skipped wanted hm] at h
    cases h
    exact ⟨false, rfl⟩
  | true =>
    obtain ⟨stack, flags, calls⟩ := m
    rw [runBranch_opening_of_executing wanted hm] at h
    cases stack with
    | nil => cases h
    | cons condition rest =>
      cases h
      exact ⟨_, rfl⟩

theorem flags_of_step_otherwise (h : step context script Branch.otherwise.instruction m = .ok () s) :
    ∃ taken outer, m.flags = taken :: outer ∧ s.flags = (!taken) :: outer := by
  rw [step_instruction] at h
  obtain ⟨stack, _ | ⟨taken, outer⟩, calls⟩ := m
  · cases h
  · cases h
    exact ⟨taken, outer, rfl, rfl⟩

theorem flags_of_step_close (h : step context script Branch.close.instruction m = .ok () s) :
    ∃ taken, m.flags = taken :: s.flags := by
  rw [step_instruction] at h
  obtain ⟨stack, _ | ⟨taken, outer⟩, calls⟩ := m
  · cases h
  · cases h
    exact ⟨taken, rfl⟩

/-- A step before what is left within as many blocks as are then open: with it
it is what is left within as many as were open before. -/
theorem exists_cons_leftover_of_step {i : Instruction} (h : step context script i m = .ok () s)
    {pending : List Branches} (hl : pending.length = s.flags.length) (t : Tree) :
    ∃ pending' t', pending'.length = m.flags.length ∧ i :: leftover pending t = leftover pending' t' := by
  have hopen : ∀ wanted, i = (Branch.opening wanted).instruction →
      ∃ pending' t', pending'.length = m.flags.length ∧ i :: leftover pending t = leftover pending' t' := by
    rintro wanted rfl
    obtain ⟨taken, hf⟩ := flags_of_step_opening h
    rw [hf] at hl
    obtain ⟨bs, outer, rfl⟩ := List.exists_cons_of_length_eq_add_one hl
    obtain ⟨pending', t', hp, he⟩ := exists_opening_cons_leftover wanted bs outer t
    exact ⟨pending', t', hp.trans (Nat.succ.inj hl), he⟩
  cases hb : i.branch? with
  | none =>
    obtain ⟨pending', t', hp, he⟩ := exists_plain_cons_leftover hb pending t
    exact ⟨pending', t', by rw [hp, hl, flags_of_step_plain hb h], he⟩
  | some b =>
    have hi := Instruction.branch?_eq_some_iff.1 hb
    cases b with
    | whenTrue => exact hopen true hi
    | whenFalse => exact hopen false hi
    | otherwise =>
      subst hi
      obtain ⟨taken, flags, hm, hf⟩ := flags_of_step_otherwise h
      rw [hf] at hl
      obtain ⟨bs, outer, rfl⟩ := List.exists_cons_of_length_eq_add_one hl
      exact ⟨.more .done bs :: outer, t, by rw [hm]; exact hl, otherwise_cons_leftover bs outer t⟩
    | close =>
      subst hi
      obtain ⟨taken, hm⟩ := flags_of_step_close h
      exact ⟨.last .done :: pending, t, by rw [hm, List.length_cons, hl, List.length_cons],
        close_cons_leftover pending t⟩

/-- Instructions that run to their end and close all blocks are what is left
within as many open blocks as there are flags. -/
theorem exists_leftover_of_steps (is : List Instruction) (h : steps context script is m = .ok () s)
    (hs : s.flags = []) : ∃ pending t, pending.length = m.flags.length ∧ is = leftover pending t := by
  induction is generalizing m with
  | nil =>
    cases h
    exact ⟨[], .done, by rw [hs]; rfl, by rw [leftover, Tree.flatten]⟩
  | cons i is ih =>
    obtain ⟨_, n, hi, hn⟩ := exists_of_bind_eq_ok h
    obtain ⟨pending, t, hl, rfl⟩ := ih hn
    exact exists_cons_leftover_of_step hi hl t

/-! ## Whole scripts -/

theorem execute_eq (m : Machine) : execute context script m =
    (steps context script (decode script).instructions >>= fun _ =>
      match (decode script).fault with
      | some e => throw e
      | none => finish) (m.withFlags []) := rfl

theorem finish_of_closed (h : m.flags = []) : finish m = .ok (m.stack.headD []) m := by
  show (if m.flags.isEmpty then pure _ else throw _ : Run Bytes) m = _
  rw [h]
  rfl

theorem flags_of_finish {b : Bytes} (h : finish m = .ok b s) : m.flags = [] := by
  have hf : (if m.flags.isEmpty then pure (m.stack.headD []) else throw (Error.script .unbalancedConditional) :
    Run Bytes) m = .ok b s := h
  split at hf
  · exact List.isEmpty_iff.1 ‹_›
  · cases hf

theorem Tree.blind_execute (t : Tree) : (t.execute context script).Blind :=
  .bind t.blind_eval fun _ _ _ _ => rfl

/-- A script that succeeds is read to its end and is a tree of blocks. -/
theorem exists_tree_of_execute {b : Bytes} (h : execute context script m = .ok b s) :
    ∃ t : Tree, decode script = ⟨t.flatten, none⟩ := by
  rw [execute_eq] at h
  obtain ⟨_, n, hn, hf⟩ := exists_of_bind_eq_ok h
  cases hd : (decode script).fault with
  | some e =>
    rw [hd] at hf
    cases hf
  | none =>
    rw [hd] at hf
    obtain ⟨pending, t, hl, ht⟩ := exists_leftover_of_steps _ hn (flags_of_finish hf)
    cases List.length_eq_zero_iff.1 hl
    refine ⟨t, ?_⟩
    rw [← hd, ← show (decode script).instructions = t.flatten from ht]

theorem observe_execute {t : Tree} (h : decode script = ⟨t.flatten, none⟩) (m : Machine) :
    observe (execute context script m) = observe (t.execute context script m) := by
  rw [execute_eq, h, ← t.blind_execute.observe_withFlags [] m]
  refine (Agree.bind (agree_steps_flatten t _ rfl) fun _ n hn => ?_).observe_eq
  have hf : n.flags = [] := t.blind_eval.flags_eq hn
  show Agree (finish n) (.ok (n.stack.headD []) n)
  rw [finish_of_closed hf]
  exact .refl _

/-- A script that succeeds is a tree of blocks that can be read to its end; and
whenever a script is one, running it comes to what running the tree comes to,
with the same value or error, the same items and the same calls. -/
theorem execute_refines_tree_execute (context : Option Context) (script : Bytes) (m : Machine) :
    ((∃ b s, execute context script m = .ok b s) → ∃ t : Tree, decode script = ⟨t.flatten, none⟩) ∧
    ∀ t : Tree, decode script = ⟨t.flatten, none⟩ →
      observe (execute context script m) = observe (t.execute context script m) :=
  ⟨fun ⟨_, _, h⟩ => exists_tree_of_execute h, fun _ h => observe_execute h m⟩

/-- A block whose first branch holds another block and an opcode that stands
for nothing, and whose second pushes a number. -/
def skippedBlock : Tree :=
  .plain (.op 0x00) (by decide) <| .block true
    (.more (.block false (.last (.plain (.op 0xfe) (by decide) .done)) .done)
      (.last (.plain (.op 0x52) (by decide) .done))) .done

theorem execute_refines_tree_execute_skippedBlock :
    decode [0x00, 0x63, 0x64, 0xfe, 0x68, 0x67, 0x52, 0x68] = ⟨skippedBlock.flatten, none⟩ ∧
    execute none [0x00, 0x63, 0x64, 0xfe, 0x68, 0x67, 0x52, 0x68] .empty = .ok [2] ⟨[[2]], [], []⟩ ∧
    (∃ t : Tree, decode [0x00, 0x63, 0x64, 0xfe, 0x68, 0x67, 0x52, 0x68] = ⟨t.flatten, none⟩) ∧
    observe (execute none [0x00, 0x63, 0x64, 0xfe, 0x68, 0x67, 0x52, 0x68] .empty) =
      observe (skippedBlock.execute none [0x00, 0x63, 0x64, 0xfe, 0x68, 0x67, 0x52, 0x68] .empty) := by
  have hd : decode [0x00, 0x63, 0x64, 0xfe, 0x68, 0x67, 0x52, 0x68] = ⟨skippedBlock.flatten, none⟩ := by
    decide +kernel
  have he : execute none [0x00, 0x63, 0x64, 0xfe, 0x68, 0x67, 0x52, 0x68] .empty = .ok [2] ⟨[[2]], [], []⟩ := by
    rw [execute_eq, hd]
    rfl
  obtain ⟨hbalanced, hsame⟩ :=
    execute_refines_tree_execute none [0x00, 0x63, 0x64, 0xfe, 0x68, 0x67, 0x52, 0x68] .empty
  exact ⟨hd, he, hbalanced ⟨_, _, he⟩, hsame _ hd⟩

end Bitcoin.Script

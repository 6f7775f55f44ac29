import Bitcoin.Proofs.Outcome
import Bitcoin.Script.Interpreter

/-!
# Scripts and the log

Whatever a script does, it only adds to the log of the verifier's calls
(`logFree_execute`): one lemma for each operation, then by induction on the
instructions. Operations other than those on blocks are made of parts that move
items and check signatures (`composed_runOpcode`).
-/

namespace Bitcoin.Script

variable (context : Option Context) (script : Bytes)

theorem logFree_checkSignature (sig key : Bytes) : (checkSignature context sig key script).LogFree := by
  unfold checkSignature
  split
  · exact .throw _
  · split
    · exact .pure _
    · split
      · exact .bind (.ofExcept _) fun _ => .bind (.ofExcept _) fun _ => .bind (.ofExcept _) fun _ =>
          .ecdsa _ _ _ _
      · exact .bind (.ofExcept _) fun _ => .bind (.ofExcept _) fun _ => .bind (.ofExcept _) fun _ =>
          .ecdsa _ _ _ _
      · split
        · exact .throw _
        · exact .bind (.ofExcept _) fun _ => .bind (.ofExcept _) fun _ => .bind (.ofExcept _) fun _ =>
            .schnorr _ _ _ _

/-- Matching keys, by induction on the keys. -/
theorem logFree_matchKeys {check : Bytes → Bytes → Check Bool} (h : ∀ sig key, (check sig key).LogFree) :
    ∀ sigs keys, (matchKeys check sigs keys).LogFree
  | [], _ => by rw [matchKeys]; exact .pure _
  | _ :: _, [] => by rw [matchKeys]; exact .pure _
  | sig :: sigs, key :: keys => by
    rw [matchKeys]
    refine .bind (h sig key) fun verified => ?_
    split
    · exact logFree_matchKeys h sigs keys
    · exact logFree_matchKeys h (sig :: sigs) keys

theorem logFree_openBlock (b : Branch) (wanted : Bool) : (openBlock b wanted).LogFree := by
  refine .get_bind (fun _ _ => rfl) fun m => ?_
  split
  · exact .bind (.pop _) fun condition => .flags fun flags => (isTrue condition == wanted) :: flags
  · exact .flags fun flags => false :: flags

theorem logFree_runBranch (b : Branch) : (runBranch b).LogFree := by
  cases b with
  | whenTrue => exact logFree_openBlock _ _
  | whenFalse => exact logFree_openBlock _ _
  | otherwise => rintro calls ⟨stack, _ | ⟨taken, outer⟩, log⟩ <;> rfl
  | close => rintro calls ⟨stack, _ | ⟨taken, outer⟩, log⟩ <;> rfl

/-! ## Operations other than those on blocks -/

theorem composed_popAndCheck (label : String) : (popAndCheck context script label).Composed :=
  .bind (.pop label) fun _ => .bind (.pop label) fun _ => .ofCheck (logFree_checkSignature _ _ _ _)

theorem composed_checkMultisig : (checkMultisig context script).Composed := by
  unfold checkMultisig
  dsimp only
  split
  · exact .throw _
  · refine .bind (.pop _) fun _ => .bind (.ofExcept _) fun n => ?_
    split
    · exact .throw _
    · refine .bind (.popMany _ _) fun _ => .bind (.pop _) fun _ => .bind (.ofExcept _) fun m => ?_
      split
      · exact .throw _
      · exact .bind (.popMany _ _) fun _ => .bind (.pop _) fun _ =>
          .bind (.ofCheck (logFree_matchKeys (logFree_checkSignature _ _) _ _)) fun _ => .push _

theorem composed_needContext (op : Opcode) : (needContext context op).Composed := by
  cases context with
  | some c => exact .pure c
  | none => exact .throw _

theorem composed_checkTime (op : Opcode) (limit : UInt32) : (checkTime op limit).Composed := by
  refine .bind (.top _) fun _ => .bind (.ofExcept _) fun required => ?_
  split
  · exact .throw _
  · exact .pure _

theorem composed_runOpcode {op : Opcode} (h : ∀ b, op ≠ .branch b) : (runOpcode context script op).Composed := by
  cases op with
  | branch b => exact absurd rfl (h b)
  | pushEmpty | pushNegOne | pushSmall => exact .push _
  | nop => exact .pure _
  | verify =>
    refine .bind (.pop _) fun item => ?_
    split
    · exact .throw _
    · exact .pure _
  | opReturn => exact .throw _
  | ifDup =>
    rw [runOpcode]
    refine .rearrange _ ?_
    rintro (_ | ⟨a, rest⟩) stack' below h
    · cases h
    · simp only [Option.some.injEq] at h
      subst h
      simp only [List.cons_append]
      split <;> rfl
  | dup | dupBelow | rot | swap | size =>
    rw [runOpcode]
    refine .rearrange _ ?_
    rintro (_ | ⟨a, _ | ⟨b, _ | ⟨c, rest⟩⟩⟩) stack' below h <;> cases h <;> rfl
  | drop => exact .bind (.pop _) fun _ => .pure _
  | equal => exact .bind (.pop _) fun _ => .bind (.pop _) fun _ => .push _
  | equalVerify =>
    refine .bind (.pop _) fun b => .bind (.pop _) fun a => ?_
    split
    · exact .throw _
    · exact .pure _
  | addOne => exact .bind (.pop _) fun _ => .bind (.ofExcept _) fun _ => .push _
  | greaterThan =>
    exact .bind (.pop _) fun _ => .bind (.ofExcept _) fun _ => .bind (.pop _) fun _ =>
      .bind (.ofExcept _) fun _ => .push _
  | digest d => exact .bind (.pop _) fun _ => .push _
  | checkSig => exact .bind (composed_popAndCheck _ _ _) fun _ => .push _
  | checkSigVerify =>
    refine .bind (composed_popAndCheck _ _ _) fun verified => ?_
    split
    · exact .throw _
    · exact .pure _
  | checkMultisig => exact composed_checkMultisig _ _
  | checkLockTime => exact .bind (composed_needContext _ _) fun _ => composed_checkTime _ _
  | checkSequence =>
    exact .bind (composed_needContext _ _) fun _ => .bind (.ofExcept _) fun _ => composed_checkTime _ _

/-! ## Scripts -/

theorem logFree_runOpcode (op : Opcode) : (runOpcode context script op).LogFree := by
  by_cases h : ∃ b, op = .branch b
  · obtain ⟨b, rfl⟩ := h
    exact logFree_runBranch b
  · exact (composed_runOpcode context script fun b hb => h ⟨b, hb⟩).blind.logFree

theorem logFree_step (i : Instruction) : (step context script i).LogFree := by
  refine .get_bind (fun _ _ => rfl) fun m => ?_
  split
  · split
    · exact .push _
    · exact .pure _
  · split
    · exact logFree_runBranch _
    · split
      · exact logFree_runOpcode _ _ _
      · exact .pure _
    · split
      · exact .throw _
      · exact .pure _

/-- The instructions of a script, by induction on them. -/
theorem logFree_steps : ∀ is : List Instruction, (is.forM (step context script)).LogFree
  | [] => .pure _
  | i :: is => .bind (logFree_step _ _ i) fun _ => logFree_steps is

theorem logFree_finish : finish.LogFree := by
  refine .get_bind (fun _ _ => rfl) fun m => ?_
  split
  · exact .pure _
  · exact .throw _

theorem logFree_execute : (execute context script).LogFree := by
  refine .bind (.flags fun _ => []) fun _ => .bind (logFree_steps _ _ _) fun _ => ?_
  split
  · exact .throw _
  · exact logFree_finish

theorem logFree_executeBool : (executeBool context script).LogFree :=
  .map _ (logFree_execute _ _)

end Bitcoin.Script

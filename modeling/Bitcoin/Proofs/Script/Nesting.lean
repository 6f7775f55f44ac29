import Bitcoin.Proofs.Script.Tree

/-!
# Flags and nested blocks

A script runs instruction by instruction, with a flag for each open block. On
the instructions of a tree that comes to what the evaluation of the tree comes
to: in a branch that is not taken nothing happens (`steps_flatten_of_skipped`),
and one that is taken runs as it does outside of the block
(`agree_steps_flatten`). Results are compared up to the flags that an error
leaves, which a run on trees does not have (`Agree`).
-/

namespace Bitcoin.Script

variable {α β : Type}

/-! ## Results up to flags -/

/-- Two results that are the same, but for the flags if they are errors. -/
inductive Agree : EStateM.Result Error Machine α → EStateM.Result Error Machine α → Prop
  | ok (a : α) (m : Machine) : Agree (.ok a m) (.ok a m)
  | error (e : Error) (m : Machine) (flags : List Bool) : Agree (.error e { m with flags }) (.error e m)

theorem Agree.refl : ∀ r : EStateM.Result Error Machine α, Agree r r
  | .ok a m => .ok a m
  | .error e m => .error e m m.flags

theorem Agree.bind {x y : Run α} {k l : α → Run β} {m n : Machine} (h : Agree (x m) (y n))
    (hk : ∀ a s, y n = .ok a s → Agree (k a s) (l a s)) : Agree ((x >>= k) m) ((y >>= l) n) := by
  show Agree (EStateM.bind x k m) (EStateM.bind y l n)
  unfold EStateM.bind
  generalize hx : x m = r at h
  generalize hy : y n = s at h hk
  cases h with
  | ok a s => exact hk a s rfl
  | error e s flags => exact .error e s flags

/-- What a run comes to, with the items and the calls it leaves. -/
def observe : EStateM.Result Error Machine α → Except Error α × List Bytes × List Call
  | .ok a m => (.ok a, m.stack, m.calls)
  | .error e m => (.error e, m.stack, m.calls)

theorem Agree.observe_eq {r s : EStateM.Result Error Machine α} (h : Agree r s) : observe r = observe s := by
  cases h <;> rfl

theorem bind_congr_at {x y : Run α} {m : Machine} (h : x m = y m) (k : α → Run β) : (x >>= k) m = (y >>= k) m := by
  show EStateM.bind x k m = EStateM.bind y k m
  rw [EStateM.bind, EStateM.bind, h]

/-! ## Runs that do not see the flags -/

/-- The machine with other flags. -/
def Machine.withFlags (flags : List Bool) (m : Machine) : Machine := { m with flags }

/-- The machine within one more block. -/
def Machine.within (taken : Bool) (m : Machine) : Machine := m.withFlags (taken :: m.flags)

theorem executing_within (taken : Bool) (m : Machine) : (m.within taken).executing = (taken && m.executing) := rfl

theorem executing_of_flags_eq {m s : Machine} (h : s.flags = m.flags) (hm : m.executing = true) :
    s.executing = true := by
  rw [Machine.executing, h]
  exact hm

namespace Run.Blind

variable {r : Run α} {m s : Machine} {a : α}

theorem withFlags (h : Blind r) (flags : List Bool) (m : Machine) :
    r (m.withFlags flags) = onState (Machine.withFlags flags) (r m) := h (fun _ => flags) [] m

theorem flags_eq (h : Blind r) (hr : r m = .ok a s) : s.flags = m.flags := by
  have hw := h.withFlags m.flags m
  have hm : m.withFlags m.flags = m := rfl
  rw [hm, hr] at hw
  injection hw with _ hs
  rw [hs]
  rfl

theorem observe_withFlags (h : Blind r) (flags : List Bool) (m : Machine) :
    observe (r (m.withFlags flags)) = observe (r m) := by
  rw [h.withFlags]
  cases r m <;> rfl

end Run.Blind

/-! ## Steps -/

section Steps

variable (context : Option Context) (script : Bytes)

/-- The steps of some instructions. -/
def steps (is : List Instruction) : Run Unit := is.forM (step context script)

theorem steps_nil : steps context script [] = pure () := rfl

theorem steps_cons (i : Instruction) (is : List Instruction) :
    steps context script (i :: is) = step context script i >>= fun _ => steps context script is := rfl

theorem steps_append (is js : List Instruction) :
    steps context script (is ++ js) = steps context script is >>= fun _ => steps context script js :=
  List.forM_append

variable {context script} {m : Machine} {is js : List Instruction}

theorem steps_append_of_ok {s : Machine} (h : steps context script is m = .ok () s) :
    steps context script (is ++ js) m = steps context script js s := by
  rw [steps_append, bind_of_ok h]

/-- An instruction that is not one on blocks runs where all blocks are taken. -/
theorem step_of_plain {i : Instruction} (h : i.branch? = none) (m : Machine) :
    step context script i m = if m.executing then i.run context script m else .ok () m := by
  cases i with
  | push form data =>
    show (if m.executing then Run.push data else pure ()) m = _
    split <;> rfl
  | op byte =>
    unfold Instruction.branch? at h
    unfold Instruction.run
    cases ho : Opcode.ofByte? byte with
    | none =>
      simp only [step, ho]
      show (if m.executing then throw (Error.notImplemented byte) else pure () : Run Unit) m = _
      split <;> rfl
    | some o =>
      cases o with
      | branch b =>
        simp only [ho] at h
        cases h
      | _ =>
        simp only [step, ho]
        show (if m.executing then runOpcode context script _ else pure ()) m = _
        split <;> rfl

theorem step_instruction (b : Branch) (m : Machine) : step context script b.instruction m = runBranch b m := by
  simp only [step, Branch.instruction, b.ofByte?_byte]
  rfl

theorem steps_cons_of_ok {i : Instruction} {s : Machine} (h : step context script i m = .ok () s) :
    steps context script (i :: is) m = steps context script is s := by
  rw [steps_cons, bind_of_ok h]

theorem runBranch_opening (wanted : Bool) :
    runBranch (.opening wanted) = openBlock (.opening wanted) wanted := by
  cases wanted <;> rfl

/-- Where all blocks are taken, one more takes its condition from the stack. -/
theorem runBranch_opening_of_executing (wanted : Bool) (h : m.executing = true) :
    runBranch (.opening wanted) m = (Run.pop (Opcode.branch (.opening wanted)).label >>= fun condition =>
      modify (Machine.within (isTrue condition == wanted))) m := by
  rw [runBranch_opening]
  show (if m.executing then _ else _ : Run Unit) m = _
  rw [if_pos h]
  rfl

/-- Where a block is not taken, none within it is. -/
theorem runBranch_opening_of_skipped (wanted : Bool) (h : m.executing = false) :
    runBranch (.opening wanted) m = .ok () (m.within false) := by
  rw [runBranch_opening]
  show (if m.executing then _ else _ : Run Unit) m = _
  rw [if_neg (Bool.eq_false_iff.1 h)]
  rfl

theorem runBranch_otherwise (taken : Bool) (m : Machine) :
    runBranch .otherwise (m.within taken) = .ok () (m.within (!taken)) := rfl

theorem runBranch_close (taken : Bool) (m : Machine) : runBranch .close (m.within taken) = .ok () m := rfl

theorem steps_otherwise (taken : Bool) (is : List Instruction) (m : Machine) :
    steps context script (Branch.otherwise.instruction :: is) (m.within taken) =
      steps context script is (m.within (!taken)) :=
  steps_cons_of_ok ((step_instruction _ _).trans (runBranch_otherwise taken m))

theorem steps_close (taken : Bool) (m : Machine) :
    steps context script [Branch.close.instruction] (m.within taken) = .ok () m :=
  steps_cons_of_ok ((step_instruction _ _).trans (runBranch_close taken m))

/-! ## Branches that are not taken -/

mutual

/-- Where a block is not taken nothing happens, whatever stands there. -/
theorem steps_flatten_of_skipped : ∀ (t : Tree) (m : Machine), m.executing = false →
    steps context script t.flatten m = .ok () m
  | .done, m, _ => by
    rw [Tree.flatten, steps_nil]
    rfl
  | .plain i h rest, m, hm => by
    have hi : step context script i m = .ok () m := by
      rw [step_of_plain h, if_neg (Bool.eq_false_iff.1 hm)]
    rw [Tree.flatten, steps_cons_of_ok hi]
    exact steps_flatten_of_skipped rest m hm
  | .block wanted branches rest, m, hm => by
    have ho : step context script (Branch.opening wanted).instruction m = .ok () (m.within false) := by
      rw [step_instruction, runBranch_opening_of_skipped wanted hm]
    rw [Tree.flatten, List.append_cons, steps_cons_of_ok ho,
      steps_append_of_ok (steps_branches_of_skipped branches false m hm)]
    exact steps_flatten_of_skipped rest m hm

/-- Neither does anything in a block within, of which the flag is flipped. -/
theorem steps_branches_of_skipped : ∀ (bs : Branches) (taken : Bool) (m : Machine), m.executing = false →
    steps context script (bs.flatten ++ [Branch.close.instruction]) (m.within taken) = .ok () m
  | .last body, taken, m, hm => by
    have hw : (m.within taken).executing = false := by rw [executing_within, hm, Bool.and_false]
    rw [Branches.flatten, steps_append_of_ok (steps_flatten_of_skipped body _ hw), steps_close]
  | .more body others, taken, m, hm => by
    have hw : (m.within taken).executing = false := by rw [executing_within, hm, Bool.and_false]
    rw [Branches.flatten, List.append_assoc, List.cons_append,
      steps_append_of_ok (steps_flatten_of_skipped body _ hw), steps_otherwise]
    exact steps_branches_of_skipped others (!taken) m hm

end

/-! ## Branches that are taken -/

/-- A branch that is taken runs within its block as it does outside. -/
theorem agree_taken {body : Tree} {k l : Run Unit} (hm : m.executing = true)
    (hb : ∀ n, n.executing = true → Agree (steps context script body.flatten n) (body.eval context script n))
    (hk : ∀ n, n.executing = true → Agree (k (n.within true)) (l n)) :
    Agree ((steps context script body.flatten >>= fun _ => k) (m.within true))
      ((body.eval context script >>= fun _ => l) m) := by
  have hw := hb (m.within true) (by rw [executing_within, hm]; rfl)
  have he : body.eval context script (m.within true) = _ := body.blind_eval.withFlags (true :: m.flags) m
  rw [he] at hw
  generalize hs : steps context script body.flatten (m.within true) = r at hw
  cases hr : body.eval context script m with
  | ok u n =>
    have hf := body.blind_eval.flags_eq hr
    rw [hr, ← hf] at hw
    cases hw with
    | ok =>
      rw [bind_of_ok hs, bind_of_ok hr]
      exact hk n (executing_of_flags_eq hf hm)
  | error e n =>
    rw [hr] at hw
    cases hw with
    | error _ _ flags =>
      rw [bind_of_error hs, bind_of_error hr]
      exact .error e n flags

mutual

/-- Where all blocks are taken, the steps of a tree come to what the tree comes to. -/
theorem agree_steps_flatten : ∀ (t : Tree) (m : Machine), m.executing = true →
    Agree (steps context script t.flatten m) (t.eval context script m)
  | .done, m, _ => by
    rw [Tree.flatten, Tree.eval]
    exact .refl _
  | .plain i h rest, m, hm => by
    have hi : step context script i m = i.run context script m := by rw [step_of_plain h, if_pos hm]
    rw [Tree.flatten, Tree.eval, steps_cons]
    exact Agree.bind (hi ▸ .refl _) fun _ s hs =>
      agree_steps_flatten rest s (executing_of_flags_eq ((composed_run h).blind.flags_eq hs) hm)
  | .block wanted branches rest, m, hm => by
    have ho : step context script (Branch.opening wanted).instruction m =
        (Run.pop (Opcode.branch (.opening wanted)).label >>= fun condition =>
          modify (Machine.within (isTrue condition == wanted))) m := by
      rw [step_instruction, runBranch_opening_of_executing wanted hm]
    rw [Tree.flatten, Tree.eval, List.append_cons, steps_cons, steps_append, bind_congr_at ho, bind_assoc]
    refine Agree.bind (.refl _) fun condition s hs => ?_
    have hs' := executing_of_flags_eq (Run.Blind.flags_eq (.pop _) hs) hm
    show Agree ((steps context script _ >>= fun _ => steps context script _) (s.within _)) _
    exact Agree.bind (agree_steps_branches branches _ s hs') fun _ n hn =>
      agree_steps_flatten rest n (executing_of_flags_eq ((branches.blind_eval _).flags_eq hn) hs')

/-- Within a block that could be taken, the steps of the branches and the close
come to what the branches come to. -/
theorem agree_steps_branches : ∀ (bs : Branches) (taken : Bool) (m : Machine), m.executing = true →
    Agree (steps context script (bs.flatten ++ [Branch.close.instruction]) (m.within taken))
      (bs.eval context script taken m)
  | .last body, true, m, hm => by
    rw [Branches.flatten, Branches.eval, if_pos rfl, steps_append,
      ← bind_pure_unit (x := body.eval context script)]
    refine agree_taken hm (agree_steps_flatten body) fun n _ => ?_
    rw [steps_close]
    exact .refl _
  | .last body, false, m, hm => by
    rw [Branches.flatten, Branches.eval, if_neg Bool.false_ne_true,
      steps_append_of_ok (steps_flatten_of_skipped body (m.within false) rfl), steps_close]
    exact .refl _
  | .more body others, true, m, hm => by
    rw [Branches.flatten, Branches.eval, if_pos rfl, List.append_assoc, List.cons_append, steps_append]
    refine agree_taken hm (agree_steps_flatten body) fun n hn => ?_
    rw [steps_otherwise]
    exact agree_steps_branches others false n hn
  | .more body others, false, m, hm => by
    rw [Branches.flatten, Branches.eval, if_neg Bool.false_ne_true, List.append_assoc, List.cons_append,
      steps_append_of_ok (steps_flatten_of_skipped body (m.within false) rfl), steps_otherwise]
    exact agree_steps_branches others true m hm

end

end Steps

end Bitcoin.Script

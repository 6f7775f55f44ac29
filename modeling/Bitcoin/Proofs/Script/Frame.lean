import Bitcoin.Proofs.Script.Balance

/-!
# What lies below

A script reaches only as far down the stack as it has to. Started above further
items it does what it does without them and leaves them as they are
(`sameAbove_execute`), unless it runs out of items, for which those below would
step in. The parts that operations are made of have this law (`Run.Framed`), it
goes through sequences, and so all operations, steps and scripts have it. Only
the value of a script that leaves nothing is one from below.
-/

namespace Bitcoin.Script

variable {α β : Type}

/-- The machine with items below its own. -/
def Machine.above (below : List Bytes) (m : Machine) : Machine := { m with stack := m.stack ++ below }

/-- A run came to its end for want of items. -/
def Underflows (r : EStateM.Result Error Machine α) : Prop := ∃ label s, r = .error (.stackUnderflow label) s

/-- A run that, unless it runs out of items, comes to the same above others and
leaves them there. -/
def Run.Framed (r : Run α) : Prop :=
  ∀ below m, Underflows (r m) ∨ r (m.above below) = onState (Machine.above below) (r m)

namespace Run.Framed

/-! ## Parts -/

theorem pure (a : α) : Framed (Pure.pure a) := fun _ _ => .inr rfl

theorem throw (e : Error) : Framed (MonadExcept.throw e : Run α) := fun _ _ => .inr rfl

theorem bind {r : Run α} {k : α → Run β} (hr : Framed r) (hk : ∀ a, Framed (k a)) : Framed (r >>= k) := by
  intro below m
  rcases hr below m with ⟨label, s, hu⟩ | he
  · exact .inl ⟨label, s, bind_of_error hu⟩
  cases hm : r m with
  | error e s =>
    rw [hm] at he
    refine .inr ?_
    rw [bind_of_error hm]
    exact bind_of_error he
  | ok a s =>
    rw [hm] at he
    rcases hk a below s with ⟨label, t, hu⟩ | hs
    · exact .inl ⟨label, t, (bind_of_ok hm).trans hu⟩
    · refine .inr ?_
      rw [bind_of_ok hm, ← hs]
      exact bind_of_ok he

theorem push (item : Bytes) : Framed (Run.push item) := fun _ _ => .inr rfl

theorem pop (label : String) : Framed (Run.pop label) := by
  rintro below ⟨_ | ⟨item, rest⟩, flags, calls⟩
  · exact .inl ⟨label, _, rfl⟩
  · exact .inr rfl

theorem top (label : String) : Framed (Run.top label) := by
  rintro below ⟨_ | ⟨item, rest⟩, flags, calls⟩
  · exact .inl ⟨label, _, rfl⟩
  · exact .inr rfl

theorem rearrange (label : String) {f : List Bytes → Option (List Bytes)} (h : OnTop f) :
    Framed (Run.rearrange label f) := by
  intro below m
  cases hf : f m.stack with
  | none => exact .inl ⟨label, m, by simp only [Run.rearrange, hf]⟩
  | some stack =>
    have hb : f (m.above below).stack = some (stack ++ below) := h _ _ below hf
    refine .inr ?_
    simp only [Run.rearrange, hf, hb]
    rfl

theorem ofCheck (c : Check α) : Framed (Run.ofCheck c) := by
  refine fun below m => .inr ?_
  simp only [Run.ofCheck, Machine.above]
  cases c m.calls <;> rfl

/-- What is made of these parts, by induction on how it is made. -/
theorem of_composed {r : Run α} (h : Composed r) : Framed r := by
  induction h with
  | pure a => exact .pure a
  | throw e => exact .throw e
  | bind _ _ hr hk => exact .bind hr hk
  | push item => exact .push item
  | pop label => exact .pop label
  | top label => exact .top label
  | rearrange label h => exact .rearrange label h
  | ofCheck _ => exact .ofCheck _

theorem flags (f : List Bool → List Bool) : Framed (modify fun m : Machine => { m with flags := f m.flags }) :=
  fun _ _ => .inr rfl

/-- A step that looks at the flags of the machine only. -/
theorem get_bind {k : Machine → Run α} (hk : ∀ below m, k (m.above below) = k m) (h : ∀ m, Framed (k m)) :
    Framed (get >>= k) := by
  intro below m
  show Underflows (k m m) ∨ k (m.above below) (m.above below) = onState (Machine.above below) (k m m)
  rw [hk]
  exact h m below m

end Run.Framed

/-! ## Steps -/

variable (context : Option Context) (script : Bytes)

theorem framed_openBlock (b : Branch) (wanted : Bool) : (openBlock b wanted).Framed := by
  refine .get_bind (fun _ _ => rfl) fun m => ?_
  split
  · exact .bind (.pop _) fun condition => .flags fun flags => (isTrue condition == wanted) :: flags
  · exact .flags fun flags => false :: flags

theorem framed_runBranch (b : Branch) : (runBranch b).Framed := by
  cases b with
  | whenTrue => exact framed_openBlock _ _
  | whenFalse => exact framed_openBlock _ _
  | otherwise => rintro below ⟨stack, _ | ⟨taken, outer⟩, calls⟩ <;> exact .inr rfl
  | close => rintro below ⟨stack, _ | ⟨taken, outer⟩, calls⟩ <;> exact .inr rfl

theorem framed_step (i : Instruction) : (step context script i).Framed := by
  cases hi : i.branch? with
  | some b =>
    obtain rfl := Instruction.branch?_eq_some_iff.1 hi
    intro below m
    rw [step_instruction, step_instruction]
    exact framed_runBranch b below m
  | none =>
    intro below m
    rw [step_of_plain hi, step_of_plain hi]
    show Underflows (if m.executing then _ else _) ∨ (if m.executing then _ else _) = _
    split
    · exact Run.Framed.of_composed (composed_run hi) below m
    · exact .inr rfl

/-- The steps of some instructions, by induction on them. -/
theorem framed_steps : ∀ is : List Instruction, (steps context script is).Framed
  | [] => .pure ()
  | i :: is => .bind (framed_step _ _ i) fun _ => framed_steps is

/-! ## Scripts -/

/-- What a script comes to on its own and above further items. -/
structure SameAbove (below : List Bytes) (alone above : EStateM.Result Error Machine Bytes) : Prop where
  /-- It succeeds above them, leaves its own items, and these below, and gives
  the same value if it leaves any item. -/
  ok : ∀ top s, alone = .ok top s →
    ∃ top', above = .ok top' (s.above below) ∧ (s.stack ≠ [] → top' = top)
  /-- It fails above them for the same reason, and leaves the same items. -/
  error : ∀ e s, alone = .error e s → (∀ label, e ≠ .stackUnderflow label) → above = .error e (s.above below)

theorem SameAbove.of_error (below : List Bytes) (e : Error) (m : Machine) :
    SameAbove below (.error e m) (.error e (m.above below)) where
  ok := nofun
  error e' s h _ := by cases h; rfl

theorem SameAbove.of_underflow (below : List Bytes) (label : String) (m : Machine)
    (above : EStateM.Result Error Machine Bytes) : SameAbove below (.error (.stackUnderflow label) m) above where
  ok := nofun
  error e s h hn := by cases h; exact absurd rfl (hn label)

theorem sameAbove_finish (below : List Bytes) (m : Machine) : SameAbove below (finish m) (finish (m.above below)) := by
  cases hf : m.flags with
  | nil =>
    rw [finish_of_closed hf, finish_of_closed (m := m.above below) hf]
    refine ⟨fun top s h => ?_, nofun⟩
    cases h
    refine ⟨_, rfl, fun hne => ?_⟩
    obtain ⟨item, rest, hs⟩ := List.exists_cons_of_ne_nil hne
    rw [Machine.above, hs]
    rfl
  | cons taken outer =>
    have hopen : ∀ n : Machine, n.flags = taken :: outer →
        finish n = .error (.script .unbalancedConditional) n := by
      rintro ⟨stack, _, calls⟩ rfl
      rfl
    rw [hopen m hf, hopen (m.above below) hf]
    exact .of_error below _ m

/-- A script that succeeds, or fails for another reason than that it runs out of
items, does the same above further items: it makes the same calls and leaves the
same items, with the further ones below them. -/
theorem sameAbove_execute (below : List Bytes) (m : Machine) :
    SameAbove below (execute context script m) (execute context script (m.above below)) := by
  have hb : (m.above below).withFlags [] = (m.withFlags []).above below := rfl
  rw [execute_eq m, execute_eq (m.above below), hb]
  rcases framed_steps context script (decode script).instructions below (m.withFlags []) with ⟨label, s, hu⟩ | he
  · rw [bind_of_error hu]
    exact .of_underflow below label s _
  cases hs : steps context script (decode script).instructions (m.withFlags []) with
  | error e s =>
    rw [hs] at he
    rw [bind_of_error hs, bind_of_error he]
    exact .of_error below e s
  | ok u s =>
    rw [hs] at he
    rw [bind_of_ok hs, bind_of_ok he]
    cases (decode script).fault with
    | some e => exact .of_error below e s
    | none => exact sameAbove_finish below s

/-- A script that compares the items on top and third from the top, on its own
and above another item: where they are the same, and where they are not. -/
theorem sameAbove_execute_rotated :
    (execute none [0x7b, 0x88] ⟨[[5], [7], [5]], [], []⟩ = .ok [7] ⟨[[7]], [], []⟩ ∧
      execute none [0x7b, 0x88] ⟨[[5], [7], [5], [0x2a]], [], []⟩ = .ok [7] ⟨[[7], [0x2a]], [], []⟩) ∧
    execute none [0x7b, 0x88] ⟨[[6], [7], [5]], [], []⟩ = .error (.verifyFailed "OP_EQUALVERIFY") ⟨[[7]], [], []⟩ ∧
      execute none [0x7b, 0x88] ⟨[[6], [7], [5], [0x2a]], [], []⟩ =
        .error (.verifyFailed "OP_EQUALVERIFY") ⟨[[7], [0x2a]], [], []⟩ := by
  have hd : decode [0x7b, 0x88] = ⟨[.op 0x7b, .op 0x88], none⟩ := by decide +kernel
  have hok : execute none [0x7b, 0x88] ⟨[[5], [7], [5]], [], []⟩ = .ok [7] ⟨[[7]], [], []⟩ := by
    rw [execute_eq, hd]
    rfl
  have herror : execute none [0x7b, 0x88] ⟨[[6], [7], [5]], [], []⟩ =
      .error (.verifyFailed "OP_EQUALVERIFY") ⟨[[7]], [], []⟩ := by
    rw [execute_eq, hd]
    rfl
  obtain ⟨top, habove, hsame⟩ := (sameAbove_execute none _ [[0x2a]] _).ok _ _ hok
  obtain rfl : top = [7] := hsame (by decide)
  exact ⟨⟨hok, habove⟩, herror, (sameAbove_execute none _ [[0x2a]] _).error _ _ herror nofun⟩

end Bitcoin.Script

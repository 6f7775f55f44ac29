import Bitcoin.Script.Machine

/-!
# Outcomes

Checks and runs carry the log of the verifier's calls along. They only add to
it: from a log with more calls in front they come to the same value or error
and leave the log with the same calls in front (`LogFree`). So what a check
comes to can be said without the log (`Check.outcome`), and the outcome of a
sequence is the sequence of the outcomes (`Check.outcome_bind`). Most runs have
nothing to do with the flags of open blocks either (`Run.Blind`): those that are
made of parts that only move items and check signatures (`Run.Composed`). A law
of the parts that goes through sequences is a law of all these runs, by
induction on how they are made.
-/

namespace Bitcoin

variable {σ α β : Type}

/-- The value or the error of a result, without the state it leaves. -/
def valueOf : EStateM.Result Error σ α → Except Error α
  | .ok a _ => .ok a
  | .error e _ => .error e

theorem valueOf_bind_eq_ok {x : EStateM Error σ α} {k : α → EStateM Error σ β} {s : σ} {b : β} :
    valueOf ((x >>= k) s) = .ok b ↔ ∃ a t, x s = .ok a t ∧ valueOf (k a t) = .ok b := by
  show valueOf (EStateM.bind x k s) = .ok b ↔ _
  unfold EStateM.bind
  cases x s with
  | ok a t => exact ⟨fun h => ⟨a, t, rfl, h⟩, fun ⟨_, _, h, hk⟩ => by cases h; exact hk⟩
  | error e t => exact ⟨nofun, nofun⟩

theorem exists_of_bind_eq_ok {x : EStateM Error σ α} {k : α → EStateM Error σ β} {s t : σ} {b : β}
    (h : (x >>= k) s = .ok b t) : ∃ a u, x s = .ok a u ∧ k a u = .ok b t := by
  change EStateM.bind x k s = .ok b t at h
  unfold EStateM.bind at h
  cases hx : x s with
  | ok a u =>
    rw [hx] at h
    exact ⟨a, u, rfl, h⟩
  | error e u =>
    rw [hx] at h
    cases h

theorem bind_of_ok {x : EStateM Error σ α} {k : α → EStateM Error σ β} {s t : σ} {a : α} (h : x s = .ok a t) :
    (x >>= k) s = k a t := by
  show EStateM.bind x k s = _
  rw [EStateM.bind, h]

theorem bind_of_error {x : EStateM Error σ α} {k : α → EStateM Error σ β} {s t : σ} {e : Error}
    (h : x s = .error e t) : (x >>= k) s = .error e t := by
  show EStateM.bind x k s = _
  rw [EStateM.bind, h]

theorem map_of_ok {x : EStateM Error σ α} {f : α → β} {s t : σ} {a : α} (h : x s = .ok a t) :
    (f <$> x) s = .ok (f a) t := by
  show EStateM.map f x s = _
  rw [EStateM.map, h]

theorem map_of_error {x : EStateM Error σ α} {f : α → β} {s t : σ} {e : Error} (h : x s = .error e t) :
    (f <$> x) s = .error e t := by
  show EStateM.map f x s = _
  rw [EStateM.map, h]

/-- The result with its state changed. -/
def onState (f : σ → σ) : EStateM.Result Error σ α → EStateM.Result Error σ α
  | .ok a s => .ok a (f s)
  | .error e s => .error e (f s)

@[simp] theorem valueOf_onState (f : σ → σ) (r : EStateM.Result Error σ α) :
    valueOf (onState f r) = valueOf r := by
  cases r <;> rfl

@[simp] theorem ok_bind {ε : Type} (a : α) (f : α → Except ε β) : Except.ok a >>= f = f a := rfl

theorem bind_eq_ok {x : Except Error α} {f : α → Except Error β} {b : β} :
    x >>= f = .ok b ↔ ∃ a, x = .ok a ∧ f a = .ok b := by
  cases x with
  | ok a => exact ⟨fun h => ⟨a, rfl, h⟩, fun ⟨_, h, hf⟩ => by cases h; exact hf⟩
  | error e => exact ⟨nofun, nofun⟩

theorem bind_eq_error {x : Except Error α} {f : α → Except Error β} {e : Error} :
    x >>= f = .error e ↔ x = .error e ∨ ∃ a, x = .ok a ∧ f a = .error e := by
  cases x with
  | ok a =>
    refine ⟨fun h => .inr ⟨a, rfl, h⟩, ?_⟩
    rintro (h | ⟨_, h, hf⟩) <;> cases h
    exact hf
  | error e' =>
    refine ⟨fun h => .inl (by cases h; rfl), ?_⟩
    rintro (h | ⟨_, h, _⟩) <;> cases h
    rfl

theorem mapM_cons_eq_ok {f : α → Except Error β} {x : α} {xs : List α} {ys : List β} :
    (x :: xs).mapM f = .ok ys ↔ ∃ b rest, f x = .ok b ∧ xs.mapM f = .ok rest ∧ ys = b :: rest := by
  rw [List.mapM_cons, bind_eq_ok]
  constructor
  · intro ⟨b, hb, h⟩
    obtain ⟨rest, hr, h⟩ := bind_eq_ok.1 h
    cases h
    exact ⟨b, rest, hb, hr, rfl⟩
  · intro ⟨b, rest, hb, hr, h⟩
    exact ⟨b, hb, bind_eq_ok.2 ⟨rest, hr, h ▸ rfl⟩⟩

/-- What a list is mapped to comes from the same places, by induction on the list. -/
theorem exists_getElem?_of_mapM {f : α → Except Error β} {xs : List α} {ys : List β} (h : xs.mapM f = .ok ys)
    {k : Nat} {y : β} (hy : ys[k]? = some y) : ∃ x, xs[k]? = some x ∧ f x = .ok y := by
  induction xs generalizing ys k with
  | nil =>
    cases h
    cases hy
  | cons x xs ih =>
    obtain ⟨b, rest, hb, hr, rfl⟩ := mapM_cons_eq_ok.1 h
    cases k with
    | zero =>
      cases hy
      exact ⟨x, rfl, hb⟩
    | succ k => exact ih hr hy

theorem toOption_eq_some_iff {x : Except Error α} {a : α} : x.toOption = some a ↔ x = .ok a := by
  cases x <;> simp [Except.toOption]

theorem toOption_map (f : α → β) (x : Except Error α) : (f <$> x).toOption = x.toOption.map f := by
  cases x <;> rfl

/-- `x` does not look at what `f` changes of the state, and keeps it changed. -/
def Commutes (f : σ → σ) (x : EStateM Error σ α) : Prop := ∀ s, x (f s) = onState f (x s)

namespace Commutes

variable {f : σ → σ}

theorem pure (a : α) : Commutes f (Pure.pure a : EStateM Error σ α) := fun _ => rfl

theorem throw (e : Error) : Commutes f (MonadExcept.throw e : EStateM Error σ α) := fun _ => rfl

theorem bind {x : EStateM Error σ α} {k : α → EStateM Error σ β} (hx : Commutes f x)
    (hk : ∀ a, Commutes f (k a)) : Commutes f (x >>= k) := by
  intro s
  show EStateM.bind x k (f s) = onState f (EStateM.bind x k s)
  unfold EStateM.bind
  rw [hx s]
  cases x s with
  | ok a t => exact hk a t
  | error e t => rfl

theorem map (g : α → β) {x : EStateM Error σ α} (hx : Commutes f x) : Commutes f (g <$> x) :=
  bind hx fun a => pure (g a)

end Commutes

namespace Check

/-- What a check comes to. -/
def outcome (c : Check α) : Except Error α := valueOf (c [])

/-- A check that only adds to the log. -/
def LogFree (c : Check α) : Prop := ∀ calls : List Call, Commutes (calls ++ ·) c

theorem fst_run (c : Check α) : c.run.1 = c.outcome := by
  unfold run outcome EStateM.run
  cases c [] <;> rfl

namespace LogFree

theorem pure (a : α) : LogFree (Pure.pure a) := fun _ => .pure a

theorem throw (e : Error) : LogFree (MonadExcept.throw e : Check α) := fun _ => .throw e

theorem bind {c : Check α} {k : α → Check β} (hc : LogFree c) (hk : ∀ a, LogFree (k a)) :
    LogFree (c >>= k) := fun calls => .bind (hc calls) fun a => hk a calls

theorem ofExcept (x : Except Error α) : LogFree (Check.ofExcept x) := by
  cases x with
  | ok a => exact .pure a
  | error e => exact .throw e

theorem ecdsa (v : Verifier) (key : Bytes) (digest : Hash256) (sig : FixedBytes 64) :
    LogFree (Check.ecdsa v key digest sig) := by
  intro calls log
  simp only [Check.ecdsa, onState, List.append_assoc]

theorem schnorr (v : Verifier) (key : FixedBytes 32) (digest : Hash256) (sig : FixedBytes 64) :
    LogFree (Check.schnorr v key digest sig) := by
  intro calls log
  simp only [Check.schnorr, onState, List.append_assoc]

theorem tweak (v : Verifier) (key : FixedBytes 32) (t : Hash256) : LogFree (Check.tweak v key t) := by
  intro calls log
  unfold Check.tweak
  cases v.tweak key t <;> simp only [onState, List.append_assoc]

end LogFree

theorem valueOf_eq_outcome {c : Check α} (h : c.LogFree) (calls : List Call) :
    valueOf (c calls) = c.outcome := by
  have hc : c (calls ++ []) = onState (calls ++ ·) (c []) := h calls []
  rw [List.append_nil] at hc
  rw [hc, valueOf_onState, outcome]

@[simp] theorem outcome_pure (a : α) : outcome (pure a) = .ok a := rfl

@[simp] theorem outcome_throw (e : Error) : outcome (throw e : Check α) = .error e := rfl

@[simp] theorem outcome_ecdsa (v : Verifier) (key : Bytes) (digest : Hash256) (sig : FixedBytes 64) :
    outcome (ecdsa v key digest sig) = .ok (v.ecdsa key digest sig) := rfl

@[simp] theorem outcome_schnorr (v : Verifier) (key : FixedBytes 32) (digest : Hash256)
    (sig : FixedBytes 64) : outcome (schnorr v key digest sig) = .ok (v.schnorr key digest sig) := rfl

/-- The outcome of a sequence, of which the second part only adds to the log. -/
theorem outcome_bind (c : Check α) {k : α → Check β} (hk : ∀ a, LogFree (k a)) :
    outcome (c >>= k) = c.outcome >>= fun a => (k a).outcome := by
  show valueOf (EStateM.bind c k []) = _
  unfold EStateM.bind outcome
  cases c [] with
  | ok a calls => exact valueOf_eq_outcome (hk a) calls
  | error e calls => rfl

theorem outcome_bind_pure (c : Check α) (g : α → β) :
    outcome (c >>= fun a => pure (g a)) = c.outcome >>= fun a => .ok (g a) :=
  outcome_bind c fun a => .pure (g a)

theorem outcome_ofExcept_bind (x : Except Error α) (k : α → Check β) :
    outcome (ofExcept x >>= k) = x >>= fun a => (k a).outcome := by
  cases x <;> rfl

end Check

namespace Script

/-- The machine with calls in front of those it has made. -/
def Machine.behind (calls : List Call) (m : Machine) : Machine := { m with calls := calls ++ m.calls }

/-- The machine with other flags, and with calls in front of those it has made. -/
def Machine.disguise (flags : List Bool → List Bool) (calls : List Call) (m : Machine) : Machine :=
  { m with flags := flags m.flags, calls := calls ++ m.calls }

namespace Run

/-- A run that only adds to the log. -/
def LogFree (r : Run α) : Prop := ∀ calls : List Call, Commutes (Machine.behind calls) r

/-- A run that only adds to the log and has nothing to do with the flags. -/
def Blind (r : Run α) : Prop := ∀ flags calls, Commutes (Machine.disguise flags calls) r

namespace Blind

theorem logFree {r : Run α} (h : Blind r) : LogFree r := fun calls => h id calls

theorem pure (a : α) : Blind (Pure.pure a) := fun _ _ => .pure a

theorem throw (e : Error) : Blind (MonadExcept.throw e : Run α) := fun _ _ => .throw e

theorem bind {r : Run α} {k : α → Run β} (hr : Blind r) (hk : ∀ a, Blind (k a)) : Blind (r >>= k) :=
  fun flags calls => .bind (hr flags calls) fun a => hk a flags calls

theorem ofExcept (x : Except Error α) : Blind (Run.ofExcept x) := by
  cases x with
  | ok a => exact .pure a
  | error e => exact .throw e

theorem push (item : Bytes) : Blind (Run.push item) := fun _ _ _ => rfl

theorem pop (label : String) : Blind (Run.pop label) := by
  rintro flags calls ⟨_ | ⟨item, rest⟩, fs, log⟩ <;> rfl

theorem rearrange (label : String) (f : List Bytes → Option (List Bytes)) : Blind (Run.rearrange label f) := by
  intro flags calls m
  simp only [Run.rearrange, Machine.disguise]
  cases f m.stack <;> rfl

theorem top (label : String) : Blind (Run.top label) := by
  rintro flags calls ⟨_ | ⟨item, rest⟩, fs, log⟩ <;> rfl

theorem ofCheck {c : Check α} (h : c.LogFree) : Blind (Run.ofCheck c) := by
  intro flags calls m
  simp only [Run.ofCheck, Machine.disguise]
  rw [h calls m.calls]
  cases c m.calls <;> rfl

end Blind

namespace LogFree

theorem pure (a : α) : LogFree (Pure.pure a) := fun _ => .pure a

theorem throw (e : Error) : LogFree (MonadExcept.throw e : Run α) := fun _ => .throw e

theorem bind {r : Run α} {k : α → Run β} (hr : LogFree r) (hk : ∀ a, LogFree (k a)) :
    LogFree (r >>= k) := fun calls => .bind (hr calls) fun a => hk a calls

theorem map (f : α → β) {r : Run α} (hr : LogFree r) : LogFree (f <$> r) := fun calls => .map f (hr calls)

theorem ofExcept (x : Except Error α) : LogFree (Run.ofExcept x) := (Blind.ofExcept x).logFree

theorem push (item : Bytes) : LogFree (Run.push item) := (Blind.push item).logFree

theorem pop (label : String) : LogFree (Run.pop label) := (Blind.pop label).logFree

theorem flags (f : List Bool → List Bool) :
    LogFree (modify fun m : Machine => { m with flags := f m.flags }) := fun _ _ => rfl

/-- A step that looks at the items and flags of the machine only. -/
theorem get_bind {k : Machine → Run α} (hk : ∀ calls m, k (m.behind calls) = k m) (h : ∀ m, LogFree (k m)) :
    LogFree (get >>= k) := by
  intro calls m
  show k (m.behind calls) (m.behind calls) = onState (Machine.behind calls) (k m m)
  rw [hk, h m calls m]

end LogFree

/-- A change of the items on top that does not depend on those further down. -/
def OnTop (f : List Bytes → Option (List Bytes)) : Prop :=
  ∀ stack stack' below, f stack = some stack' → f (stack ++ below) = some (stack' ++ below)

/-- A run made of parts that take items from the stack, look at the top one,
rearrange those on top, push items and check signatures. -/
inductive Composed : {α : Type} → Run α → Prop
  | pure {α : Type} (a : α) : Composed (Pure.pure a)
  | throw {α : Type} (e : Error) : Composed (MonadExcept.throw e : Run α)
  | bind {α β : Type} {r : Run α} {k : α → Run β} (hr : Composed r) (hk : ∀ a, Composed (k a)) : Composed (r >>= k)
  | push (item : Bytes) : Composed (Run.push item)
  | pop (label : String) : Composed (Run.pop label)
  | top (label : String) : Composed (Run.top label)
  | rearrange (label : String) {f : List Bytes → Option (List Bytes)} (h : OnTop f) : Composed (Run.rearrange label f)
  | ofCheck {α : Type} {c : Check α} (h : c.LogFree) : Composed (Run.ofCheck c)

namespace Composed

theorem ofExcept (x : Except Error α) : Composed (Run.ofExcept x) := by
  cases x with
  | ok a => exact .pure a
  | error e => exact .throw e

theorem popMany (label : String) : ∀ n, Composed (Run.popMany label n)
  | 0 => .pure []
  | n + 1 => .bind (.pop label) fun _ => .bind (popMany label n) fun _ => .pure _

theorem blind {r : Run α} (h : Composed r) : Blind r := by
  induction h with
  | pure a => exact .pure a
  | throw e => exact .throw e
  | bind _ _ hr hk => exact .bind hr hk
  | push item => exact .push item
  | pop label => exact .pop label
  | top label => exact .top label
  | rearrange label _ => exact .rearrange label _
  | ofCheck h => exact .ofCheck h

end Composed

/-- A run as a check only adds to the log if it does so as a run. -/
theorem logFree_toCheck {r : Run α} (h : r.LogFree) : (r.toCheck).LogFree := by
  intro calls log
  have := h calls { Machine.empty with calls := log }
  simp only [Machine.behind] at this
  simp only [toCheck, this]
  cases r { Machine.empty with calls := log } <;> rfl

theorem outcome_toCheck (r : Run α) : r.toCheck.outcome = valueOf (r .empty) := by
  show valueOf (r.toCheck []) = _
  have h : { Machine.empty with calls := [] } = Machine.empty := rfl
  rw [toCheck, h]
  cases r .empty <;> rfl

end Run

end Script

end Bitcoin

import Mathlib.Algebra.Group.Nat.Defs
import Mathlib.Data.Nat.Log
import Mathlib.Logic.Function.Iterate
import Mathlib.Order.Bounds.Defs
import Bitcoin.Block
import Bitcoin.Proofs.Hash.Schedule

/-!
# The levels of Merkle trees

A pass hashes the neighbours of a level. After `pass` passes over some hashes
the level is `level^[pass] hs`. Passes are made while more than one hash is
left, so as many as it takes to halve the number to one
(`one_lt_length_iterate_level_iff`), and the hash that is left is the root
(`exists_iterate_level_eq`).

What a pass hashes tells the level if its length is known (`messages_inj`). So
lists of one length have the same root exactly if they are equal or some pass
hashes two different messages to one value (`root_eq_root_iff`). Lists of
different lengths may have the same root without that, since the last of an odd
number of hashes is hashed with itself.

A tree that is divided at powers of two stands a level lower over the level above
its leaves (`divided?_succ`), so the levels lead to the same root as the division
(`root_eq_divided`).
-/

namespace Bitcoin.Merkle

variable {hs gs : List Hash256} {pass : Nat}

/-! ## Passes -/

theorem length_iterate_level_le_iff {n : Nat} : (level^[pass] hs).length ≤ n ↔ hs.length ≤ 2 ^ pass * n := by
  induction pass generalizing hs with
  | zero => simp
  | succ pass ih =>
    rw [Function.iterate_succ_apply, ih, length_level, Nat.pow_succ, Nat.mul_right_comm]
    omega

theorem one_lt_length_iterate_level_iff :
    1 < (level^[pass] hs).length ↔ pass < Nat.clog 2 hs.length := by
  rw [Nat.lt_clog_iff_pow_lt (by decide), ← Nat.not_le, length_iterate_level_le_iff, Nat.mul_one, Nat.not_le]

theorem length_iterate_level_eq (h : hs.length = gs.length) (pass : Nat) :
    (level^[pass] hs).length = (level^[pass] gs).length := by
  induction pass with
  | zero => exact h
  | succ pass ih => rw [Function.iterate_succ_apply', Function.iterate_succ_apply', length_level, length_level, ih]

theorem root?_level (h : 1 < hs.length) : root? (level hs) = root? hs := by
  match hs, h with
  | a :: b :: rest, _ => rw [root?.eq_3]

/-- The passes that are made keep the root. -/
theorem root?_iterate_level (h : pass ≤ Nat.clog 2 hs.length) : root? (level^[pass] hs) = root? hs := by
  induction pass with
  | zero => rfl
  | succ pass ih =>
    have hlen : 1 < (level^[pass] hs).length := one_lt_length_iterate_level_iff.2 h
    rw [Function.iterate_succ_apply', root?_level hlen, ih (Nat.le_of_lt h)]

/-- What is left after the last pass is the root. -/
theorem exists_iterate_level_eq (h : hs ≠ []) :
    ∃ r, level^[Nat.clog 2 hs.length] hs = [r] ∧ root? hs = some r := by
  have hle : ¬ 1 < (level^[Nat.clog 2 hs.length] hs).length := fun hlt =>
    Nat.lt_irrefl _ (one_lt_length_iterate_level_iff.1 hlt)
  have hpos : ¬ (level^[Nat.clog 2 hs.length] hs).length ≤ 0 := by
    rwa [length_iterate_level_le_iff, Nat.mul_zero, Nat.le_zero, List.length_eq_zero_iff]
  obtain ⟨r, hr⟩ := List.length_eq_one_iff.1 (show (level^[Nat.clog 2 hs.length] hs).length = 1 by omega)
  refine ⟨r, hr, ?_⟩
  rw [← root?_iterate_level (Nat.le_refl _), hr, root?.eq_2]

/-! ## Binding -/

/-- What a pass hashes: neighbours behind each other, the last of an odd number
behind itself. -/
def messages : List Hash256 → List Bytes
  | a :: b :: rest => (a.val ++ b.val) :: messages rest
  | [a] => [a.val ++ a.val]
  | [] => []

theorem level_eq (hs : List Hash256) : level hs = (messages hs).map doubleSha256 := by
  fun_induction messages hs with
  | case1 a b rest ih => rw [level, ih, List.map_cons, node]
  | case2 => rfl
  | case3 => rfl

theorem length_of_mem_messages {m : Bytes} (h : m ∈ messages hs) : m.length = 64 := by
  fun_induction messages hs with
  | case1 a b rest ih =>
    obtain rfl | h := List.mem_cons.1 h
    · simp [a.property, b.property]
    · exact ih h
  | case2 a =>
    cases List.mem_singleton.1 h
    simp [a.property]
  | case3 => cases h

theorem messages_inj (h : hs.length = gs.length) : messages hs = messages gs ↔ hs = gs := by
  refine ⟨fun hm => ?_, fun he => he ▸ rfl⟩
  fun_induction messages hs generalizing gs with
  | case1 a b rest ih =>
    match gs, h with
    | c :: d :: gs, h =>
      obtain ⟨hp, hr⟩ := List.cons_eq_cons.1 hm
      obtain ⟨rfl, rfl⟩ := FixedBytes.append_val_inj.1 hp
      rw [ih (by simpa using h) hr]
  | case2 a =>
    match gs, h with
    | [b], _ =>
      obtain ⟨hp, -⟩ := List.cons_eq_cons.1 hm
      rw [(FixedBytes.append_val_inj.1 hp).1]
  | case3 => exact (List.length_eq_zero_iff.1 h.symm).symm

/-- Lists that a function maps to one list are equal, or in some place it maps
different members to one. -/
theorem eq_or_exists_of_map_eq {α β : Type} {f : α → β} {as bs : List α} (h : as.map f = bs.map f) :
    as = bs ∨ ∃ (place : Nat) (a b : α), as[place]? = some a ∧ bs[place]? = some b ∧ a ≠ b ∧ f a = f b := by
  induction as generalizing bs with
  | nil => exact .inl (List.map_eq_nil_iff.1 h.symm).symm
  | cons a as ih =>
    obtain ⟨b, bs, rfl, hb, hbs⟩ := List.map_eq_cons_iff.1 h.symm
    by_cases hab : a = b
    · obtain rfl | ⟨place, s, t, hs, ht, hst, hf⟩ := ih hbs.symm
      · exact .inl (by rw [hab])
      · exact .inr ⟨place + 1, s, t, hs, ht, hst, hf⟩
    · exact .inr ⟨0, a, b, rfl, rfl, hab, hb.symm⟩

/-- A pass over each list comes to the same level, with two different messages of
64 bytes in one place that are hashed to one value. -/
structure Collide (hs gs : List Hash256) (pass : Nat) : Prop where
  messages : ∃ (place : Nat) (s t : Bytes), (messages (level^[pass] hs))[place]? = some s ∧
    (messages (level^[pass] gs))[place]? = some t ∧ s.length = 64 ∧ t.length = 64 ∧ s ≠ t ∧
    doubleSha256 s = doubleSha256 t
  next : level^[pass + 1] hs = level^[pass + 1] gs

/-- A pass that comes to the same level comes from the same level or is where
messages collide. -/
theorem iterate_level_eq_or_collide (hl : hs.length = gs.length)
    (h : level^[pass + 1] hs = level^[pass + 1] gs) :
    level^[pass] hs = level^[pass] gs ∨ Collide hs gs pass := by
  have hm : (messages (level^[pass] hs)).map doubleSha256 = (messages (level^[pass] gs)).map doubleSha256 := by
    rw [← level_eq, ← level_eq, ← Function.iterate_succ_apply' level, h, Function.iterate_succ_apply']
  obtain he | ⟨place, s, t, hs', ht', hst, hh⟩ := eq_or_exists_of_map_eq hm
  · exact .inl ((messages_inj (length_iterate_level_eq hl pass)).1 he)
  · have hs64 := length_of_mem_messages (List.mem_of_getElem? hs')
    have ht64 := length_of_mem_messages (List.mem_of_getElem? ht')
    exact .inr ⟨⟨place, s, t, hs', ht', hs64, ht64, hst, hh⟩, h⟩

/-- From a common level back to the leaves, by induction on the passes. -/
theorem eq_or_exists_collide (hl : hs.length = gs.length) (h : level^[pass] hs = level^[pass] gs) :
    hs = gs ∨ ∃ k < pass, Collide hs gs k := by
  induction pass with
  | zero => exact .inl h
  | succ pass ih =>
    obtain he | hc := iterate_level_eq_or_collide hl h
    · exact (ih he).imp_right fun ⟨k, hk, hc⟩ => ⟨k, Nat.lt_succ_of_lt hk, hc⟩
    · exact .inr ⟨pass, Nat.lt_succ_self pass, hc⟩

theorem eq_or_exists_collide_of_root?_eq (hl : hs.length = gs.length) (h : root? hs = root? gs) :
    hs = gs ∨ ∃ pass < Nat.clog 2 hs.length, Collide hs gs pass := by
  obtain rfl | hn := eq_or_ne hs []
  · exact .inl (List.length_eq_zero_iff.1 hl.symm).symm
  have hm : gs ≠ [] := by
    rw [← List.length_pos_iff] at hn ⊢
    omega
  obtain ⟨r, hs', hr⟩ := exists_iterate_level_eq hn
  obtain ⟨r', gs', hr'⟩ := exists_iterate_level_eq hm
  have he : some r = some r' := hr.symm.trans (h.trans hr')
  cases he
  rw [← hl] at gs'
  exact eq_or_exists_collide hl (hs'.trans gs'.symm)

theorem Collide.root?_eq (hc : Collide hs gs pass) (hl : hs.length = gs.length)
    (hp : pass < Nat.clog 2 hs.length) : root? hs = root? gs := by
  rw [← root?_iterate_level hp, hc.next]
  exact root?_iterate_level (hl ▸ hp)

theorem root_inj : root hs = root gs ↔ root? hs = root? gs := by
  unfold root
  cases root? hs <;> cases root? gs <;> simp

/-- Two lists of one length have the same root exactly if they are equal, or if
in one of the passes over them two different messages of 64 bytes are hashed to
one value. -/
theorem root_eq_root_iff (h : hs.length = gs.length) :
    root hs = root gs ↔ hs = gs ∨ ∃ pass, 1 < (level^[pass] hs).length ∧ Collide hs gs pass := by
  simp only [root_inj, one_lt_length_iterate_level_iff]
  constructor
  · exact eq_or_exists_collide_of_root?_eq h
  · rintro (rfl | ⟨pass, hp, hc⟩)
    · rfl
    · exact hc.root?_eq h hp

set_option maxRecDepth 100000 in
/-- No messages collide on the way to the roots of two hashes and of the same two
the other way round, since these roots differ. -/
theorem root_eq_root_iff_swapped :
    let a : Hash256 := .bigEndian 32 1
    let b : Hash256 := .bigEndian 32 2
    [a, b].length = [b, a].length ∧ root [a, b] ≠ root [b, a] ∧
      ¬ ∃ pass, 1 < (level^[pass] [a, b]).length ∧ Collide [a, b] [b, a] pass := by
  intro a b
  have pair (x y : Hash256) : root [x, y] = .ok (node x y) := by simp only [root, root?, level]
  have differ : root [a, b] ≠ root [b, a] := by
    have nodes : node a b ≠ node b a := by
      simp only [node, doubleSha256, sha256_eq]
      decide +kernel
    rw [pair, pair]
    exact fun he => nodes (Except.ok.inj he)
  have length : [a, b].length = [b, a].length := rfl
  exact ⟨length, differ, fun hc => differ ((root_eq_root_iff length).2 (.inr hc))⟩

/-! ## Division at powers of two -/

/-- The root of the tree of a depth over some hashes, at least one and at most as
many as it has places. Its left half is filled before its right one is begun, and
counts twice if nothing is left for that. -/
def divided? : Nat → List Hash256 → Option Hash256
  | 0, [h] => some h
  | 0, _ => none
  | depth + 1, hs =>
    if 2 ^ depth < hs.length then do
      let a ← divided? depth (hs.take (2 ^ depth))
      let b ← divided? depth (hs.drop (2 ^ depth))
      return node a b
    else do
      let h ← divided? depth hs
      return node h h

theorem take_level (n : Nat) (hs : List Hash256) : (level hs).take n = level (hs.take (2 * n)) := by
  fun_induction level hs generalizing n with
  | case1 a b rest ih =>
    cases n with
    | zero => rfl
    | succ n => rw [Nat.mul_succ, List.take_succ_cons, List.take_succ_cons, List.take_succ_cons, level, ih]
  | case2 a => cases n <;> simp [Nat.mul_succ, level]
  | case3 => simp [level]

theorem drop_level (n : Nat) (hs : List Hash256) : (level hs).drop n = level (hs.drop (2 * n)) := by
  fun_induction level hs generalizing n with
  | case1 a b rest ih =>
    cases n with
    | zero => rfl
    | succ n => rw [Nat.mul_succ, List.drop_succ_cons, List.drop_succ_cons, List.drop_succ_cons, ih]
  | case2 a => cases n <;> simp [Nat.mul_succ, level]
  | case3 => simp [level]

/-- A tree over some hashes is one of a depth less over the level above them.
A half of it has an even number of places, so no pair of the level crosses the
division. -/
theorem divided?_succ (depth : Nat) (hs : List Hash256) : divided? (depth + 1) hs = divided? depth (level hs) := by
  induction depth generalizing hs with
  | zero =>
    match hs with
    | [] => rfl
    | [a] => rfl
    | [a, b] => rfl
    | [a, b, c] => rfl
    | a :: b :: c :: d :: rest => rfl
  | succ depth ih =>
    have hl : 2 ^ (depth + 1) < hs.length ↔ 2 ^ depth < (level hs).length := by
      rw [length_level, Nat.pow_succ]
      omega
    rw [divided?.eq_3, divided?.eq_3 (level hs), ih, ih, ih, take_level, drop_level, ← Nat.pow_succ']
    simp only [hl]

theorem divided?_eq (depth : Nat) (hs : List Hash256) : divided? depth hs = divided? 0 (level^[depth] hs) := by
  induction depth generalizing hs with
  | zero => rfl
  | succ depth ih => rw [divided?_succ, ih, Function.iterate_succ_apply]

theorem isLeast_clog (n : Nat) : IsLeast {k | n ≤ 2 ^ k} (Nat.clog 2 n) :=
  ⟨Nat.le_pow_clog (by decide) n, fun _ hk => Nat.clog_le_of_le_pow hk⟩

/-- The root of some hashes is that of the tree which is divided at powers of
two, of the least depth that has places for all of them. As many passes are made
as the tree is deep, since more than one hash is left before these and no others,
and what they leave is the root. -/
theorem root_eq_divided (h : Hash256) (hs : List Hash256) : ∃ depth r,
    IsLeast {k | (h :: hs).length ≤ 2 ^ k} depth ∧
    divided? depth (h :: hs) = some r ∧ root (h :: hs) = .ok r ∧
    (∀ pass, 1 < (level^[pass] (h :: hs)).length ↔ pass < depth) ∧ level^[depth] (h :: hs) = [r] := by
  obtain ⟨r, hl, hr⟩ := exists_iterate_level_eq (List.cons_ne_nil h hs)
  have hd : divided? (Nat.clog 2 (h :: hs).length) (h :: hs) = some r := by rw [divided?_eq, hl, divided?]
  have hroot : root (h :: hs) = .ok r := by rw [root, hr]
  exact ⟨_, r, isLeast_clog _, hd, hroot, fun pass => one_lt_length_iterate_level_iff, hl⟩

end Bitcoin.Merkle

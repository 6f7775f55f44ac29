import Bitcoin.Proofs.Signature.Der
import Bitcoin.Proofs.Wire.Reading

/-!
# Reading by indices

A cursor holds what is left of the data. The same readings can be made on the
data as a whole with an index into it: what is left is then a difference, and
what is taken a slice, either of which may be out of range. At the places that
readings lead to from the start of the data neither is (`sub?_offset`,
`slice?_offset`), so a reading by indices comes to what the other one does and
leaves the index at the place where that stops, after an error too (`Computes`).

A reading fails where the data ends and nowhere else, and its error tells the
place where it stopped, how many bytes it wanted there and how many were left
(`Fails`). Nothing is taken back: a number or a byte string has taken nothing
then (`fails_bytes`, `fails_number`), but a compact size may have taken its
marker (`fails_compactSize`), and a counted byte string its length in any of the
forms that are read (`fails_counted`).
-/

/-! ## Where failing readings stop -/

namespace Bitcoin

namespace CompactSize

/-- A compact size that stops for want of some bytes: of its marker, or of the
number behind that. -/
inductive Unfinished : Bytes → Nat → Prop
  | marker : Unfinished [] 1
  | number {marker : UInt8} : widthAfter marker ≠ 0 → Unfinished [marker] (widthAfter marker)

theorem Unfinished.length_le {b : Bytes} {wanted : Nat} (h : Unfinished b wanted) : b.length ≤ 1 := by
  cases h with
  | marker => exact Nat.zero_le 1
  | number _ => exact Nat.le_refl 1

end CompactSize

namespace Read

variable {α β : Type} {read : Read α} {k : α → Read β} {L L' : Bytes → Nat → Prop} {R : α → Bytes → Prop}

/-- A reading fails only where the data ends. What it has taken and how many bytes
it wants then are related, and the error tells how many it wants, where it
stopped and how many are left, which are fewer. -/
def Fails (read : Read α) (L : Bytes → Nat → Prop) : Prop :=
  ∀ c c' e, read c = .error e c' → ∃ b wanted, c.rest = b ++ c'.rest ∧ L b wanted ∧ c'.rest.length < wanted ∧
    e = .decode (.unexpectedEnd wanted c'.offset c'.rest.length)

/-- Nothing was taken, and these many bytes are wanted at once. -/
def AtOnce (n : Nat) (b : Bytes) (wanted : Nat) : Prop := b = [] ∧ wanted = n

theorem Fails.pure (a : α) : Fails (Pure.pure a) L := by
  intro c c' e h
  cases h

theorem Fails.mono (h : Fails read L) (hL : ∀ b wanted, L b wanted → L' b wanted) : Fails read L' := by
  intro c c' e he
  obtain ⟨b, wanted, hb, hl, hw⟩ := h c c' e he
  exact ⟨b, wanted, hb, hL b wanted hl, hw⟩

/-- Either reading may be the one that fails. -/
theorem Fails.bind (h : Fails read L) (hr : Reads read R)
    (hk : ∀ a b, R a b → Fails (k a) fun rest wanted => L (b ++ rest) wanted) : Fails (read >>= k) L := by
  intro c c' e he
  cases hx : read c with
  | ok a c₁ =>
    rw [bind_of_ok hx] at he
    obtain ⟨b, hb, hR⟩ := hr c c₁ a hx
    obtain ⟨rest, wanted, hrest, hl, hw⟩ := hk a b hR c₁ c' e he
    exact ⟨b ++ rest, wanted, by rw [hb, hrest, List.append_assoc], hl, hw⟩
  | error e₁ c₁ =>
    rw [bind_of_error hx] at he
    cases he
    exact h c c' e hx

theorem Fails.map (f : α → β) (h : Fails read L) : Fails (f <$> read) L := by
  intro c c' e he
  cases hx : read c with
  | ok a c₁ =>
    rw [map_of_ok hx] at he
    cases he
  | error e₁ c₁ =>
    rw [map_of_error hx] at he
    cases he
    exact h c c' e hx

theorem bytes_of_lt {n : Nat} {c : Cursor} (h : c.rest.length < n) :
    bytes n c = .error (.decode (.unexpectedEnd n c.offset c.rest.length)) c := by
  rw [bytes, Bytes.split?_of_lt h]

theorem bytes_of_le {n : Nat} {c : Cursor} (h : n ≤ c.rest.length) :
    bytes n c = .ok ⟨c.rest.take n, List.length_take_of_le h⟩ ⟨c.offset + n, c.rest.drop n⟩ := by
  rw [bytes, Bytes.split?, dif_pos (List.length_take_of_le h)]

theorem fails_bytes (n : Nat) : Fails (bytes n) (AtOnce n) := by
  intro c c' e h
  rcases Nat.lt_or_ge c.rest.length n with hlt | hle
  · rw [bytes_of_lt hlt] at h
    cases h
    exact ⟨[], n, rfl, ⟨rfl, rfl⟩, hlt, rfl⟩
  · rw [bytes_of_le hle] at h
    cases h

theorem fails_number (w : Nat) : Fails (number w) (AtOnce w) := by
  rw [number, bind_pure_comp]
  exact (fails_bytes w).map _

theorem fails_compactSize : Fails compactSize CompactSize.Unfinished := by
  refine Fails.bind (((fails_number 1).map _).mono ?_) reads_uint8 fun marker b hb => ?_
  · rintro _ _ ⟨rfl, rfl⟩
    exact .marker
  · subst hb
    dsimp only
    split
    · exact .pure _
    · next hw =>
      refine (fails_number _).mono ?_
      rintro _ _ ⟨rfl, rfl⟩
      exact .number hw

/-- It may also be the bytes behind the length that are too few. -/
theorem fails_counted : Fails counted fun b wanted => CompactSize.Unfinished b wanted ∨ CompactSize.Form wanted b := by
  refine (fails_compactSize.mono fun _ _ h => .inl h).bind reads_compactSize_form fun n size hsize => ?_
  rw [bind_pure_comp]
  refine ((fails_bytes n).map _).mono ?_
  rintro _ _ ⟨rfl, rfl⟩
  rw [List.append_nil]
  exact .inr hsize

end Read

end Bitcoin

namespace Bitcoin.Read

open Signature (slice? sub?)

variable {α β : Type}

/-! ## Places in the data -/

section Places

variable {data b : Bytes} {c : Cursor}

theorem exists_eq_append_rest (h : Behind (.start data) c) :
    ∃ front, data = front ++ c.rest ∧ c.offset = front.length := by
  obtain ⟨front, hd, ho⟩ := h
  exact ⟨front, hd, ho.trans (Nat.zero_add _)⟩

theorem offset_add_length_rest (h : Behind (.start data) c) : c.offset + c.rest.length = data.length := by
  obtain ⟨front, hd, ho⟩ := exists_eq_append_rest h
  rw [hd, ho, List.length_append]

theorem drop_offset (h : Behind (.start data) c) : data.drop c.offset = c.rest := by
  obtain ⟨front, hd, ho⟩ := exists_eq_append_rest h
  rw [hd, ho, List.drop_left]

/-- From the start of the data to any place in it no difference is negative. -/
theorem sub?_offset (h : Behind (.start data) c) : sub? data.length c.offset = some c.rest.length := by
  have hl := offset_add_length_rest h
  rw [sub?, if_pos (by omega), ← hl, Nat.add_sub_cancel_left]

/-- The bytes behind a place, up to the end of the data at most, are a slice. -/
theorem slice?_offset {rest : Bytes} {stop : Nat} (h : Behind (.start data) c) (hb : c.rest = b ++ rest)
    (hs : stop = c.offset + b.length) : slice? data c.offset stop = some b := by
  have hl := offset_add_length_rest h
  rw [hb, List.length_append] at hl
  rw [slice?, if_pos ⟨by omega, by omega⟩, List.drop_take, drop_offset h, hb, hs, Nat.add_sub_cancel_left,
    List.take_left]

end Places

/-! ## Indices -/

/-- A reading by an index into the data, which it moves. It may also end with a
difference below zero or a slice out of range, without a result. -/
abbrev IndexedRead := ExceptT Error (StateT Nat Option)

section Indexed

variable (data : Bytes)

/-- How many bytes are left. -/
def remainingAt : IndexedRead Nat := do sub? data.length (← get)

/-- `bytes` by indices. -/
def bytesAt (n : Nat) : IndexedRead Bytes := do
  let left ← remainingAt data
  let offset ← get
  if left < n then throw (.decode (.unexpectedEnd n offset left))
  let b ← slice? data offset (offset + n)
  set (offset + n)
  return b

/-- `bytes` by indices, copied over as many bytes. -/
def arrayAt (n : Nat) : IndexedRead (FixedBytes n) := do
  let b ← bytesAt data n
  FixedBytes.ofBytes? n b

/-- `number` by indices. -/
def numberAt (w : Nat) : IndexedRead Nat := do
  let b ← arrayAt data w
  return Bytes.ofLittleEndian b.val

/-- `uint8` by indices. -/
def uint8At : IndexedRead UInt8 := do
  let b ← bytesAt data 1
  b[0]?

/-- `compactSize` by indices. -/
def compactSizeAt : IndexedRead Nat := do
  let marker ← uint8At data
  if marker = 0xfd then numberAt data 2
  else if marker = 0xfe then numberAt data 4
  else if marker = 0xff then numberAt data 8
  else return marker.toNat

/-- `counted` by indices. -/
def countedAt : IndexedRead Bytes := do
  let n ← compactSizeAt data
  bytesAt data n

/-- The byte at the index, if there is one. -/
def peekAt : IndexedRead (Option UInt8) := do return data[← get]?

end Indexed

section Computes

variable {data : Bytes} {x : IndexedRead α} {f : α → IndexedRead β} {read : Read α} {k : α → Read β}
  {offset : Nat}

theorem run_get_bind (g : Nat → IndexedRead β) : (get >>= g).run.run offset = (g offset).run.run offset := rfl

theorem run_some_bind (a : α) (f : α → IndexedRead β) :
    ((liftM (some a) : IndexedRead α) >>= f).run.run offset = (f a).run.run offset := rfl

theorem run_bind_of_ok {a : α} {stop : Nat} (h : x.run.run offset = some (.ok a, stop)) :
    (x >>= f).run.run offset = (f a).run.run stop := by
  show Option.bind (x offset) _ = _
  rw [show x offset = some (.ok a, stop) from h]
  rfl

theorem run_bind_of_error {e : Error} {stop : Nat} (h : x.run.run offset = some (.error e, stop)) :
    (x >>= f).run.run offset = some (.error e, stop) := by
  show Option.bind (x offset) _ = _
  rw [show x offset = some (.error e, stop) from h]
  rfl

/-- At every place in the data, the reading by indices has a result, which is
that of the other one, and it moves the index as far. -/
def Computes (data : Bytes) (x : IndexedRead α) (read : Read α) : Prop :=
  ∀ c, Behind (.start data) c → x.run.run c.offset = some (valueOf (read c), (placeOf (read c)).offset)

theorem Computes.pure (a : α) : Computes data (Pure.pure a) (Pure.pure a) := fun _ _ => rfl

/-- The readings after one need to be the same only for what that can yield. -/
theorem Computes.bind_of_map {γ : Type} {read : Read γ} {g : γ → α} {k : γ → Read β}
    (h : Computes data x (g <$> read)) (hm : Moves read) (hk : ∀ a, Computes data (f (g a)) (k a)) :
    Computes data (x >>= f) (read >>= k) := by
  intro c hc
  have hx := h c hc
  have hmc := hm c
  cases hread : read c with
  | ok a c' =>
    rw [map_of_ok hread] at hx
    rw [hread] at hmc
    rw [run_bind_of_ok hx, bind_of_ok hread]
    exact hk a c' (hc.trans hmc)
  | error e c' =>
    rw [map_of_error hread] at hx
    rw [run_bind_of_error hx, bind_of_error hread]
    rfl

theorem Computes.bind (h : Computes data x read) (hm : Moves read) (hk : ∀ a, Computes data (f a) (k a)) :
    Computes data (x >>= f) (read >>= k) :=
  bind_of_map (g := id) (by rwa [id_map]) hm hk

theorem Computes.map {g : α → β} (h : Computes data x read) : Computes data (g <$> x) (g <$> read) := by
  intro c hc
  have hx := h c hc
  rw [← bind_pure_comp]
  cases hread : read c with
  | ok a c' =>
    rw [hread] at hx
    rw [run_bind_of_ok hx, map_of_ok hread]
    rfl
  | error e c' =>
    rw [hread] at hx
    rw [run_bind_of_error hx, map_of_error hread]
    rfl

theorem computes_remainingAt : Computes data (remainingAt data) ((·.rest.length) <$> cursor) := by
  intro c hc
  rw [remainingAt, run_get_bind, sub?_offset hc]
  rfl

theorem computes_peekAt : Computes data (peekAt data) peek := by
  intro c hc
  rw [peekAt, run_get_bind]
  show some (Except.ok data[c.offset]?, c.offset) = some (Except.ok c.rest.head?, c.offset)
  rw [← drop_offset hc, List.head?_drop]

theorem computes_bytesAt (n : Nat) : Computes data (bytesAt data n) (Subtype.val <$> bytes n) := by
  intro c hc
  have hrem : (remainingAt data).run.run c.offset = some (.ok c.rest.length, c.offset) := computes_remainingAt c hc
  rw [bytesAt, run_bind_of_ok hrem, run_get_bind]
  rcases Nat.lt_or_ge c.rest.length n with hlt | hle
  · rw [if_pos hlt, map_of_error (bytes_of_lt hlt)]
    rfl
  · have hs : slice? data c.offset (c.offset + n) = some (c.rest.take n) := by
      refine slice?_offset hc (List.take_append_drop n c.rest).symm ?_
      rw [List.length_take_of_le hle]
    rw [if_neg (Nat.not_lt.2 hle), hs, run_some_bind, map_of_ok (bytes_of_le hle)]
    rfl

/-- A slice is as long as the bytes that it is copied over. -/
theorem computes_arrayAt (n : Nat) : Computes data (arrayAt data n) (bytes n) := by
  rw [← bind_pure (bytes n)]
  refine (computes_bytesAt n).bind_of_map (moves_bytes n) fun a => ?_
  rw [FixedBytes.ofBytes?_val]
  exact .pure a

theorem computes_numberAt (w : Nat) : Computes data (numberAt data w) (number w) :=
  (computes_arrayAt w).bind (moves_bytes w) fun _ => .pure _

/-- One byte is the number that it writes. -/
theorem uint8_eq : uint8 = bytes 1 >>= fun a => Pure.pure (UInt8.ofNat (Bytes.ofLittleEndian a.val)) := by
  rw [uint8, number, map_bind]
  rfl

theorem computes_uint8At : Computes data (uint8At data) uint8 := by
  rw [uint8_eq]
  refine (computes_bytesAt 1).bind_of_map (moves_bytes 1) fun a => ?_
  obtain ⟨b, hb⟩ := List.length_eq_one_iff.1 a.property
  rw [hb, Bytes.ofLittleEndian, Bytes.ofLittleEndian, Nat.mul_zero, Nat.add_zero, UInt8.ofNat_toNat]
  exact .pure b

theorem computes_compactSizeAt : Computes data (compactSizeAt data) compactSize := by
  refine computes_uint8At.bind moves_uint8 fun marker => ?_
  by_cases h2 : marker = 0xfd
  · subst h2
    exact computes_numberAt 2
  by_cases h4 : marker = 0xfe
  · subst h4
    exact computes_numberAt 4
  by_cases h8 : marker = 0xff
  · subst h8
    exact computes_numberAt 8
  · have hw : CompactSize.widthAfter marker = 0 := by
      rw [CompactSize.widthAfter, if_neg h2, if_neg h4, if_neg h8]
    rw [if_neg h2, if_neg h4, if_neg h8]
    dsimp only
    rw [if_pos hw]
    exact .pure _

theorem computes_countedAt : Computes data (countedAt data) counted := by
  refine computes_compactSizeAt.bind moves_compactSize fun n => ?_
  rw [bind_pure_comp]
  exact computes_bytesAt n

end Computes

end Bitcoin.Read

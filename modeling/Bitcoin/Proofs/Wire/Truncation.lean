import Bitcoin.Proofs.Wire.Shortest

/-!
# Bytes cut off and bytes appended

What stands behind the place where a reading stops has no part in what it
yields, and a reading that fails fails whatever is appended, unless it ran into
the end of the data (`SettledAt`). This goes through sequences (`SettledAt.bind`),
so it holds of numbers, counted byte strings, lists and all parts of a
transaction (`settled_readFront`); only the look for the marker needs the reading
behind it, which fails where there is no byte to look at. So of the bytes that
decode to a transaction no shorter or longer form decodes: cut off anywhere they
end unexpectedly, and bytes appended are left over
(`decode_cut_and_appended_of_decode`).
-/

namespace Bitcoin

/-- The same place, with bytes appended to what is left. -/
def Cursor.extend (c : Cursor) (more : Bytes) : Cursor := { c with rest := c.rest ++ more }

/-- The data ended before what was to be read did. -/
def Error.IsUnexpectedEnd (e : Error) : Prop :=
  ∃ wanted offset left, e = .decode (.unexpectedEnd wanted offset left)

namespace Read

variable {α β : Type} {read : Read α} {k : α → Read β} {c : Cursor}

/-- From a place on, a reading comes to the same whatever is appended, unless
the data ends before it does. -/
def SettledAt (read : Read α) (c : Cursor) : Prop :=
  match read c with
  | .ok a c' => ∀ more, read (c.extend more) = .ok a (c'.extend more)
  | .error e _ => e.IsUnexpectedEnd ∨ ∀ more, ∃ c', read (c.extend more) = .error e c'

/-- A reading that is settled from any place on. -/
def Settled (read : Read α) : Prop := ∀ c, SettledAt read c

namespace SettledAt

theorem of_ok {a : α} {c' : Cursor} (h : SettledAt read c) (hr : read c = .ok a c') (more : Bytes) :
    read (c.extend more) = .ok a (c'.extend more) := by
  rw [SettledAt, hr] at h
  exact h more

theorem of_error {e : Error} {c' : Cursor} (h : SettledAt read c) (hr : read c = .error e c') :
    e.IsUnexpectedEnd ∨ ∀ more, ∃ c', read (c.extend more) = .error e c' := by
  rwa [SettledAt, hr] at h

/-- Either reading may be the one that fails. -/
theorem bind (h : SettledAt read c) (hk : ∀ a c', read c = .ok a c' → SettledAt (k a) c') :
    SettledAt (read >>= k) c := by
  have run (c : Cursor) : (read >>= k) c = EStateM.bind read k c := rfl
  cases hr : read c with
  | ok a c' =>
    have hkc := hk a c' hr
    have hm (more : Bytes) : (read >>= k) (c.extend more) = k a (c'.extend more) := by
      rw [run, EStateM.bind, h.of_ok hr more]
    have hc : (read >>= k) c = k a c' := by
      rw [run, EStateM.bind, hr]
    unfold SettledAt at hkc ⊢
    simp only [hc, hm]
    exact hkc
  | error e c' =>
    have hc : (read >>= k) c = .error e c' := by
      rw [run, EStateM.bind, hr]
    rw [SettledAt, hc]
    obtain he | hm := h.of_error hr
    · exact .inl he
    · refine .inr fun more => ?_
      obtain ⟨d, hd⟩ := hm more
      exact ⟨d, by rw [run, EStateM.bind, hd]⟩

end SettledAt

namespace Settled

theorem pure (a : α) : Settled (Pure.pure a) := fun _ _ => rfl

theorem throw (e : Error) : Settled (MonadExcept.throw e : Read α) := fun c => .inr fun more => ⟨c.extend more, rfl⟩

theorem bind (h : Settled read) (hk : ∀ a, Settled (k a)) : Settled (read >>= k) :=
  fun c => (h c).bind fun a c' _ => hk a c'

theorem map (f : α → β) (h : Settled read) : Settled (f <$> read) := by
  rw [← bind_pure_comp]
  exact h.bind fun a => .pure (f a)

end Settled

/-! ## Numbers, byte strings and lists -/

theorem settled_bytes (n : Nat) : Settled (bytes n) := by
  intro c
  cases hs : Bytes.split? n c.rest with
  | none =>
    have hc : bytes n c = .error (.decode (.unexpectedEnd n c.offset c.rest.length)) c := by
      rw [bytes, hs]
    rw [SettledAt, hc]
    exact .inl ⟨_, _, _, rfl⟩
  | some taken =>
    obtain ⟨front, rest⟩ := taken
    have hc : bytes n c = .ok front ⟨c.offset + n, rest⟩ := by
      rw [bytes, hs]
    rw [SettledAt, hc]
    intro more
    rw [bytes, Cursor.extend, ← Bytes.append_of_split? hs, List.append_assoc, Bytes.split?_append]
    rfl

theorem settled_number (w : Nat) : Settled (number w) := (settled_bytes w).bind fun _ => .pure _

theorem settled_uint8 : Settled uint8 := (settled_number 1).map _

theorem settled_uint32 : Settled uint32 := (settled_number 4).map _

theorem settled_int32 : Settled int32 := settled_uint32.map _

theorem settled_int64 : Settled int64 := ((settled_number 8).map UInt64.ofNat).map _

theorem settled_compactSize : Settled compactSize := by
  refine settled_uint8.bind fun marker => ?_
  dsimp only
  split
  · exact .pure _
  · exact settled_number _

theorem settled_counted : Settled counted := settled_compactSize.bind fun n => (settled_bytes n).bind fun _ => .pure _

/-- By induction on how many values are to be read. -/
theorem settled_manyAfter (h : Settled read) (n : Nat) (done : List α) : Settled (manyAfter read n done) := by
  induction n generalizing done with
  | zero => exact .pure _
  | succ n ih => exact h.bind fun x => ih (x :: done)

theorem settled_list (h : Settled read) : Settled (list read) :=
  settled_compactSize.bind fun n => settled_manyAfter h n []

end Read

/-! ## Parts of transactions -/

namespace Transaction

open Read

theorem settled_readInput : Settled readInput :=
  (settled_bytes 32).bind fun _ => settled_uint32.bind fun _ => settled_counted.bind fun _ =>
    settled_uint32.bind fun _ => .pure _

theorem settled_readOutput : Settled readOutput :=
  settled_int64.bind fun _ => settled_counted.bind fun _ => .pure _

/-- By induction on the inputs whose witnesses are to be read. -/
theorem settled_readWitnesses (is done : List Input) : Settled (readWitnesses is done) := by
  induction is generalizing done with
  | nil => exact .pure _
  | cons i is ih => exact (settled_list settled_counted).bind fun _ => ih _

theorem settled_readMarked (marked : Bool) (is : List Input) : Settled (readMarked marked is) := by
  cases marked with
  | false => exact .pure _
  | true => exact settled_readWitnesses is []

theorem settled_readBehind (version : Int32) (marked : Bool) : Settled (readBehind version marked) :=
  (settled_list settled_readInput).bind fun _ => (settled_list settled_readOutput).bind fun _ =>
    (settled_readMarked _ _).bind fun _ => settled_uint32.bind fun _ => .pure _

/-- Without a byte to look at there is no number of inputs either. -/
theorem readBehind_nil (version : Int32) (offset : Nat) : ∃ e c, readBehind version false ⟨offset, []⟩ = .error e c ∧
    e.IsUnexpectedEnd := ⟨_, _, rfl, 1, offset, 0, rfl⟩

/-- The look for the marker is not settled where no byte is left, so it is taken
together with what is read behind it. -/
theorem settled_readMarker_bind {β : Type} {k : Bool → Read β} (hk : ∀ marked, Settled (k marked))
    (hn : ∀ offset, ∃ e c, k false ⟨offset, []⟩ = .error e c ∧ e.IsUnexpectedEnd) : Settled (readMarker >>= k) := by
  rintro ⟨offset, _ | ⟨b, rest⟩⟩
  · obtain ⟨e, c, hk, he⟩ := hn offset
    have hc : (readMarker >>= k) ⟨offset, []⟩ = .error e c := hk
    rw [SettledAt, hc]
    exact .inl he
  · have hp : SettledAt peek ⟨offset, b :: rest⟩ := fun more => rfl
    refine .bind (hp.bind fun byte c' _ => ?_) fun marked c' _ => hk marked c'
    split
    · refine (settled_uint8.bind fun _ => settled_uint8.bind fun flag => ?_) c'
      split
      · exact .pure _
      · exact .throw _
    · exact Settled.pure _ _

theorem settled_readFront : Settled readFront := by
  rw [readFront_eq]
  exact settled_int32.bind fun version =>
    settled_readMarker_bind (settled_readBehind version) (readBehind_nil version)

/-! ## Decoding -/

variable {bytes : Bytes} {tx : Transaction} {c : Cursor}

theorem decode_of_error {e : Error} (h : readFront (.start bytes) = .error e c) : decode bytes = .error e := by
  have hr : read (.start bytes) = .error e c := by
    show EStateM.bind readFront _ _ = _
    rw [EStateM.bind, h]
  rw [decode, Read.run, EStateM.run, hr]
  rfl

theorem decode_of_rest (h : readFront (.start bytes) = .ok tx c) (hn : c.rest ≠ []) :
    decode bytes = .error (.decode (.trailingBytes c.rest.length)) := by
  have hr : read (.start bytes) = .error (.decode (.trailingBytes c.rest.length)) c := by
    show EStateM.bind readFront _ _ = _
    rw [EStateM.bind, h]
    show (if c.rest.isEmpty then _ else _ : Read Transaction) c = _
    rw [if_neg (mt List.isEmpty_iff.1 hn)]
    rfl
  rw [decode, Read.run, EStateM.run, hr]
  rfl

/-- Of the bytes that decode to a transaction, every proper front part ends
unexpectedly, and whatever is appended to them is left over. -/
theorem decode_cut_and_appended_of_decode (h : decode bytes = .ok tx) :
    (∀ front, front <+: bytes → front ≠ bytes → ∃ wanted offset left,
      decode front = .error (.decode (.unexpectedEnd wanted offset left))) ∧
    ∀ more, more ≠ [] → decode (bytes ++ more) = .error (.decode (.trailingBytes more.length)) := by
  obtain ⟨c, hf, hc⟩ := readFront_of_decode h
  constructor
  · intro front hfront hne
    obtain ⟨more, rfl⟩ := hfront
    cases hr : readFront (.start front) with
    | ok tx' c' =>
      -- with the rest in place, the same would be read and the rest be left
      have he := (settled_readFront _).of_ok hr more
      rw [show (Cursor.start front).extend more = .start (front ++ more) from rfl, hf] at he
      injection he with _ he
      have hrest : c'.rest ++ more = [] := by
        rw [← hc, he]
        rfl
      rw [(List.append_eq_nil_iff.1 hrest).2, List.append_nil] at hne
      exact absurd rfl hne
    | error e c' =>
      obtain ⟨wanted, offset, left, rfl⟩ | hm := (settled_readFront _).of_error hr
      · exact ⟨wanted, offset, left, decode_of_error hr⟩
      · obtain ⟨d, hd⟩ := hm more
        cases hd.symm.trans hf
  · intro more hne
    have he := (settled_readFront _).of_ok hf more
    have hrest : (c.extend more).rest = more := by
      rw [Cursor.extend, hc]
      rfl
    have hd := decode_of_rest he (by rwa [hrest])
    rwa [hrest] at hd

/-- Cut off between the marker and the flag, and with a byte appended. -/
theorem decode_cut_and_appended_looseForm : decode looseForm = .ok looseSpend ∧
    (∃ wanted offset left, decode (looseForm.take 5) = .error (.decode (.unexpectedEnd wanted offset left))) ∧
    decode (looseForm ++ [0x00]) = .error (.decode (.trailingBytes 1)) := by
  have h : decode looseForm = .ok looseSpend := toOption_eq_some_iff.1 (by decide +kernel)
  obtain ⟨hc, ha⟩ := decode_cut_and_appended_of_decode h
  exact ⟨h, hc _ (List.take_prefix 5 looseForm) (by decide), ha _ (List.cons_ne_nil _ _)⟩

end Transaction

end Bitcoin

import Bitcoin.Cursor
import Bitcoin.Proofs.Outcome

/-!
# What readings take

A reading takes some bytes if it yields a value from them and stops behind
them, whatever follows (`Takes`). Taking goes through sequences (`Takes.bind`)
and lists (`takes_many`), so that each part of a wire form is looked at once:
numbers of a fixed width, compact sizes (`takes_compactSize`) and counted byte
strings (`takes_counted`). The other way round, whatever a reading yields, it has
taken bytes from the front to which that is related (`Reads`); this goes through
sequences too (`Reads.bind`). A compact size is read in any of its forms
(`CompactSize.Form`). The offset counts the bytes that are taken, also those of a
reading that fails half-way (`Moves`).
-/

namespace Bitcoin

namespace CompactSize

/-- The forms of a compact size that are read, the shortest or not: the marker
alone, or the number in the bytes behind it. -/
inductive Form : Nat → Bytes → Prop
  | plain {marker : UInt8} : widthAfter marker = 0 → Form marker.toNat [marker]
  | marked {marker : UInt8} {n : Nat} : widthAfter marker ≠ 0 → n < Nat.pow 256 (widthAfter marker) →
    Form n (marker :: Bytes.littleEndian (widthAfter marker) n)

theorem widthAfter_le (marker : UInt8) : widthAfter marker ≤ 8 := by
  unfold widthAfter
  grind

theorem Form.length_le {n : Nat} {b : Bytes} (h : Form n b) : b.length ≤ 9 := by
  cases h with
  | plain _ => exact Nat.le_add_left 1 8
  | marked _ _ =>
    rw [List.length_cons, Bytes.length_littleEndian]
    exact Nat.succ_le_succ (widthAfter_le _)

/-- No form of a compact size holds a number beyond 64 bits. -/
theorem Form.lt_size {n : Nat} {b : Bytes} (h : Form n b) : n < UInt64.size := by
  cases h with
  | plain _ => exact Nat.lt_trans (UInt8.toNat_lt _) (by decide)
  | marked _ hn => exact Nat.lt_of_lt_of_le hn (Nat.pow_le_pow_right (by decide) (widthAfter_le _))

end CompactSize

namespace Read

variable {α β : Type}

/-- A reading yields a value from these bytes and stops behind them. -/
def Takes (read : Read α) (b : Bytes) (a : α) : Prop :=
  ∀ offset rest, read ⟨offset, b ++ rest⟩ = .ok a ⟨offset + b.length, rest⟩

theorem Takes.pure (a : α) : Takes (Pure.pure a) [] a := fun _ _ => rfl

/-- The readings after one that takes the first bytes go on behind them. -/
theorem Takes.bind_eq {read : Read α} {b : Bytes} {a : α} (h : Takes read b a) (k : α → Read β) (offset : Nat)
    (rest : Bytes) : (read >>= k) ⟨offset, b ++ rest⟩ = k a ⟨offset + b.length, rest⟩ := by
  show EStateM.bind read k _ = _
  rw [EStateM.bind, h]

theorem Takes.bind {read : Read α} {k : α → Read β} {b c : Bytes} {a : α} {x : β} (h : Takes read b a)
    (hk : Takes (k a) c x) : Takes (read >>= k) (b ++ c) x := by
  intro offset rest
  rw [List.append_assoc, h.bind_eq, hk, List.length_append, Nat.add_assoc]

theorem Takes.bind_pure {read : Read α} {b : Bytes} {a : α} (h : Takes read b a) (f : α → β) :
    Takes (read >>= fun x => Pure.pure (f x)) b (f a) := by
  rw [← List.append_nil b]
  exact h.bind (Takes.pure (f a))

theorem Takes.map {read : Read α} {b : Bytes} {a : α} (h : Takes read b a) (f : α → β) :
    Takes (f <$> read) b (f a) := fun offset rest => map_of_ok (h offset rest)

/-- Whatever follows, bytes that are taken are told apart by what they yield. -/
theorem Takes.unique {read : Read α} {b c : Bytes} {x y : α} (hb : Takes read b x) (hc : Takes read c y)
    {r s : Bytes} (h : b ++ r = c ++ s) : x = y ∧ r = s := by
  have hx := hb 0 r
  rw [h, hc 0 s] at hx
  injection hx with hxy hrest
  exact ⟨hxy.symm, (congrArg Cursor.rest hrest).symm⟩

/-! ## Numbers -/

theorem takes_bytes {n : Nat} (b : FixedBytes n) : Takes (bytes n) b.val b := by
  intro offset rest
  rw [bytes, Bytes.split?_append, b.property]

theorem takes_number {w n : Nat} (h : n < Nat.pow 256 w) : Takes (number w) (Bytes.littleEndian w n) n := by
  have ht := (takes_bytes (FixedBytes.littleEndian w n)).bind_pure fun b => Bytes.ofLittleEndian b.val
  rw [FixedBytes.littleEndian, Bytes.ofLittleEndian_littleEndian, Nat.mod_eq_of_lt h] at ht
  exact ht

theorem takes_uint8 (x : UInt8) : Takes uint8 [x] x := by
  have h := (takes_number (show x.toNat < Nat.pow 256 1 from x.toNat_lt)).map UInt8.ofNat
  rw [Bytes.littleEndian, Bytes.littleEndian, UInt8.ofNat_toNat] at h
  exact h

theorem takes_uint32 (x : UInt32) : Takes uint32 (Bytes.littleEndian 4 x.toNat) x := by
  have h := (takes_number (show x.toNat < Nat.pow 256 4 from x.toNat_lt)).map UInt32.ofNat
  rwa [UInt32.ofNat_toNat] at h

theorem takes_uint64 (x : UInt64) : Takes uint64 (Bytes.littleEndian 8 x.toNat) x := by
  have h := (takes_number (show x.toNat < Nat.pow 256 8 from x.toNat_lt)).map UInt64.ofNat
  rwa [UInt64.ofNat_toNat] at h

theorem takes_int32 (x : Int32) : Takes int32 (Bytes.littleEndian 4 x.toUInt32.toNat) x := by
  have h := (takes_uint32 x.toUInt32).map UInt32.toInt32
  rwa [Int32.toInt32_toUInt32] at h

theorem takes_int64 (x : Int64) : Takes int64 (Bytes.littleEndian 8 x.toUInt64.toNat) x := by
  have h := (takes_uint64 x.toUInt64).map UInt64.toInt64
  rwa [Int64.toInt64_toUInt64] at h

/-! ## Compact sizes -/

theorem takes_compactSize_cons {marker : UInt8} {b : Bytes} {n : Nat}
    (h : Takes (if CompactSize.widthAfter marker = 0 then Pure.pure marker.toNat
      else number (CompactSize.widthAfter marker)) b n) : Takes compactSize (marker :: b) n :=
  (takes_uint8 marker).bind h

/-- A number behind its marker. -/
theorem takes_compactSize_marked {marker : UInt8} {w n : Nat} (hm : CompactSize.widthAfter marker = w)
    (hw : w ≠ 0) (h : n < Nat.pow 256 w) : Takes compactSize (marker :: Bytes.littleEndian w n) n := by
  refine takes_compactSize_cons ?_
  rw [hm, if_neg hw]
  exact takes_number h

/-- A number that is its own marker. -/
theorem takes_compactSize_small {n : Nat} (h : n < 0xfd) : Takes compactSize [UInt8.ofNat n] n := by
  have hv : (UInt8.ofNat n).toNat = n := by
    rw [UInt8.toNat_ofNat']
    omega
  have hw : CompactSize.widthAfter (UInt8.ofNat n) = 0 := by
    simp only [CompactSize.widthAfter, ← UInt8.toNat_inj, hv]
    rw [if_neg, if_neg, if_neg] <;> simp <;> omega
  refine takes_compactSize_cons ?_
  rw [if_pos hw, hv]
  exact Takes.pure n

theorem takes_compactSize {n : Nat} (h : n < UInt64.size) : Takes compactSize (CompactSize.encode n) n := by
  unfold CompactSize.encode
  split
  · exact takes_compactSize_small ‹_›
  split
  · exact takes_compactSize_marked rfl (by decide) (show n < 0x10000 by omega)
  split
  · exact takes_compactSize_marked rfl (by decide) (show n < 0x100000000 by omega)
  · exact takes_compactSize_marked rfl (by decide) h

/-- Only zero is written with a zero byte in front. -/
theorem encode_eq_cons {n : Nat} (h : 0 < n) : ∃ b rest, CompactSize.encode n = b :: rest ∧ b ≠ 0 := by
  unfold CompactSize.encode
  split
  · refine ⟨_, _, rfl, fun hz => ?_⟩
    have hv := congrArg UInt8.toNat hz
    rw [UInt8.toNat_ofNat', UInt8.toNat_zero] at hv
    omega
  split
  · exact ⟨_, _, rfl, by decide⟩
  split
  · exact ⟨_, _, rfl, by decide⟩
  · exact ⟨_, _, rfl, by decide⟩

theorem takes_counted {b : Bytes} (h : b.length < UInt64.size) : Takes counted (CompactSize.counted b) b := by
  have ht := (takes_bytes (⟨b, rfl⟩ : FixedBytes b.length)).bind_pure Subtype.val
  exact (takes_compactSize h).bind ht

/-! ## Lists -/

/-- Reading takes a list if it takes what each of its elements is written as;
`value` is what is left of an element that is read. -/
theorem takes_manyAfter {read : Read β} {write : α → Bytes} {value : α → β} (xs : List α)
    (h : ∀ x ∈ xs, Takes read (write x) (value x)) (done : List β) :
    Takes (manyAfter read xs.length done) (xs.flatMap write) (done.reverse ++ xs.map value) := by
  induction xs generalizing done with
  | nil =>
    rw [List.map_nil, List.append_nil]
    exact Takes.pure done.reverse
  | cons x xs ih =>
    have ht := ih (fun y hy => h y (List.mem_cons_of_mem x hy)) (value x :: done)
    rw [List.reverse_cons, List.append_assoc] at ht
    exact (h x List.mem_cons_self).bind ht

theorem takes_many {read : Read β} {write : α → Bytes} {value : α → β} {xs : List α}
    (h : ∀ x ∈ xs, Takes read (write x) (value x)) :
    Takes (many read xs.length) (xs.flatMap write) (xs.map value) :=
  takes_manyAfter xs h []

theorem takes_list {read : Read β} {write : α → Bytes} {value : α → β} {xs : List α} (hn : xs.length < UInt64.size)
    (h : ∀ x ∈ xs, Takes read (write x) (value x)) :
    Takes (list read) (CompactSize.encode xs.length ++ xs.flatMap write) (xs.map value) :=
  (takes_compactSize hn).bind (takes_many h)

/-! ## What was taken -/

variable {read : Read α} {k : α → Read β} {R : α → Bytes → Prop} {S : β → Bytes → Prop}

/-- Whatever a reading yields, it takes bytes from the front to which that is
related. -/
def Reads (read : Read α) (R : α → Bytes → Prop) : Prop :=
  ∀ c c' a, read c = .ok a c' → ∃ b, c.rest = b ++ c'.rest ∧ R a b

theorem Reads.pure {a : α} (h : R a []) : Reads (Pure.pure a) R := by
  intro c c' a hx
  cases hx
  exact ⟨[], rfl, h⟩

theorem Reads.mono {R' : α → Bytes → Prop} (h : Reads read R) (hR : ∀ a b, R a b → R' a b) : Reads read R' := by
  intro c c' a ha
  obtain ⟨b, hb, hr⟩ := h c c' a ha
  exact ⟨b, hb, hR a b hr⟩

/-- The readings after one go on behind what it takes. -/
theorem Reads.bind (h : Reads read R) (hk : ∀ a b, R a b → Reads (k a) fun x rest => S x (b ++ rest)) :
    Reads (read >>= k) S := by
  intro c c' x hx
  obtain ⟨a, c₁, ha, hx⟩ := exists_of_bind_eq_ok hx
  obtain ⟨b, hb, hr⟩ := h c c₁ a ha
  obtain ⟨rest, hrest, hs⟩ := hk a b hr c₁ c' x hx
  exact ⟨b ++ rest, by rw [hb, hrest, List.append_assoc], hs⟩

theorem Reads.map {f : α → β} (h : Reads read fun a b => S (f a) b) : Reads (f <$> read) S := by
  have hb : f <$> read = read >>= fun a => Pure.pure (f a) := (bind_pure_comp f read).symm
  rw [hb]
  exact h.bind fun a b hs => .pure (by rwa [List.append_nil])

theorem reads_bytes (n : Nat) : Reads (bytes n) fun a b => b = a.val := by
  intro c c' a h
  unfold bytes at h
  split at h
  · rename_i hs
    cases h
    exact ⟨_, (Bytes.append_of_split? hs).symm, rfl⟩
  · cases h

theorem reads_number (w : Nat) : Reads (number w) fun n b => b = Bytes.littleEndian w n ∧ n < Nat.pow 256 w := by
  refine (reads_bytes w).bind fun a b hb => .pure ?_
  have hl := Bytes.littleEndian_ofLittleEndian a.val
  have hn := Bytes.ofLittleEndian_lt a.val
  rw [a.property] at hl hn
  rw [List.append_nil]
  exact ⟨hb.trans hl.symm, hn⟩

theorem reads_uint8 : Reads uint8 fun x b => b = [x] :=
  Reads.map ((reads_number 1).mono fun _ _ h => h.1)

theorem reads_uint16 : Reads uint16 fun x b => b = Bytes.littleEndian 2 x.toNat :=
  Reads.map ((reads_number 2).mono fun n b h => by rw [UInt16.toNat_ofNat_of_lt' h.2]; exact h.1)

theorem reads_uint32 : Reads uint32 fun x b => b = Bytes.littleEndian 4 x.toNat :=
  Reads.map ((reads_number 4).mono fun n b h => by rw [UInt32.toNat_ofNat_of_lt' h.2]; exact h.1)

theorem reads_uint64 : Reads uint64 fun x b => b = Bytes.littleEndian 8 x.toNat :=
  Reads.map ((reads_number 8).mono fun n b h => by rw [UInt64.toNat_ofNat_of_lt' h.2]; exact h.1)

theorem reads_int32 : Reads int32 fun x b => b = Bytes.littleEndian 4 x.toUInt32.toNat :=
  Reads.map (reads_uint32.mono fun x b h => by rwa [UInt32.toUInt32_toInt32])

theorem reads_int64 : Reads int64 fun x b => b = Bytes.littleEndian 8 x.toUInt64.toNat :=
  Reads.map (reads_uint64.mono fun x b h => by rwa [UInt64.toUInt64_toInt64])

theorem reads_compactSize_form : Reads compactSize CompactSize.Form := by
  refine reads_uint8.bind fun marker b hb => ?_
  subst hb
  dsimp only
  split
  · next hw => exact .pure (.plain hw)
  · next hw =>
    refine (reads_number _).mono fun n b h => ?_
    rw [h.1]
    exact .marked hw h.2

theorem reads_counted_form : Reads counted fun s b => ∃ size, CompactSize.Form s.length size ∧ b = size ++ s := by
  refine reads_compactSize_form.bind fun n size hsize => (reads_bytes n).bind fun s b hs => .pure ⟨size, ?_, ?_⟩
  · rw [s.property]
    exact hsize
  · rw [hs, List.append_nil]

/-! ## Where readings stop -/

/-- The second place is some bytes behind the first. -/
def Behind (c c' : Cursor) : Prop := ∃ b, c.rest = b ++ c'.rest ∧ c'.offset = c.offset + b.length

theorem Behind.refl (c : Cursor) : Behind c c := ⟨[], rfl, rfl⟩

theorem Behind.trans {c₁ c₂ c₃ : Cursor} (h : Behind c₁ c₂) (h' : Behind c₂ c₃) : Behind c₁ c₃ := by
  obtain ⟨b, hb, ho⟩ := h
  obtain ⟨b', hb', ho'⟩ := h'
  refine ⟨b ++ b', by rw [hb, hb', List.append_assoc], ?_⟩
  rw [ho', ho, List.length_append, Nat.add_assoc]

theorem Behind.offset_le {c c' : Cursor} (h : Behind c c') : c.offset ≤ c'.offset := by
  obtain ⟨b, -, ho⟩ := h
  rw [ho]
  exact Nat.le_add_right _ _

theorem Behind.offset_eq {c c' : Cursor} {b : Bytes} (h : Behind c c') (hb : c.rest = b ++ c'.rest) :
    c'.offset = c.offset + b.length := by
  obtain ⟨b', hb', ho⟩ := h
  obtain rfl := List.append_cancel_right (hb'.symm.trans hb)
  exact ho

/-- The place that a reading leaves, whether it succeeds or fails. -/
def placeOf : EStateM.Result Error Cursor α → Cursor
  | .ok _ c => c
  | .error _ c => c

/-- A reading stops where it started or behind that. -/
def Moves (read : Read α) : Prop := ∀ c, Behind c (placeOf (read c))

theorem Moves.pure (a : α) : Moves (Pure.pure a) := Behind.refl

theorem Moves.bind (h : Moves read) (hk : ∀ a, Moves (k a)) : Moves (read >>= k) := by
  intro c
  have hc := h c
  cases hr : read c with
  | ok a c' =>
    rw [hr] at hc
    rw [bind_of_ok hr]
    exact hc.trans (hk a c')
  | error e c' =>
    rw [hr] at hc
    rw [bind_of_error hr]
    exact hc

theorem Moves.map (f : α → β) (h : Moves read) : Moves (f <$> read) := by
  rw [← bind_pure_comp]
  exact h.bind fun a => .pure (f a)

theorem moves_bytes (n : Nat) : Moves (bytes n) := by
  intro c
  unfold bytes
  split
  · rename_i front rest hs
    exact ⟨front.val, (Bytes.append_of_split? hs).symm, by rw [front.property]; rfl⟩
  · exact .refl c

theorem moves_number (w : Nat) : Moves (number w) := (moves_bytes w).bind fun _ => .pure _

theorem moves_uint8 : Moves uint8 := (moves_number 1).map _

theorem moves_compactSize : Moves compactSize := by
  refine moves_uint8.bind fun marker => ?_
  dsimp only
  split
  · exact .pure _
  · exact moves_number _

theorem moves_counted : Moves counted := moves_compactSize.bind fun n => (moves_bytes n).bind fun _ => .pure _

/-- What a reading of some data yields is related to the bytes before its place. -/
theorem Reads.of_run (h : Reads read R) (hm : Moves read) {data : Bytes} {a : α} {c : Cursor}
    (hr : run read data = .ok (a, c)) : c.offset ≤ data.length ∧ R a (data.take c.offset) := by
  have hs : read (.start data) = .ok a c := by
    unfold run EStateM.run at hr
    split at hr <;> cases hr
    assumption
  obtain ⟨b, hb, hR⟩ := h _ _ _ hs
  have hc := hm (.start data)
  rw [hs] at hc
  -- the bytes that the offset counts are those that the value is related to
  have hl : c.offset = b.length := (hc.offset_eq hb).trans (Nat.zero_add _)
  have hd : data = b ++ c.rest := hb
  rw [hd, hl, List.take_left, List.length_append]
  exact ⟨Nat.le_add_right _ _, hR⟩

end Read

end Bitcoin

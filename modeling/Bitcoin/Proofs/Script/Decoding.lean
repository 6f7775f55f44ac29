import Bitcoin.Proofs.Bytes
import Bitcoin.Proofs.Outcome
import Bitcoin.Script

/-!
# Scripts as instructions

Reading cuts a script into instructions. Written one after the other they are
the script again or, if a fault ends the reading, what stands before a push
that is cut off (`CutOff`); and whatever well-formed instructions are written,
these are read (`decode_eq_iff_parts`). A reader that is asked for one
instruction after the other (`Reader.next`) gives the same ones, the fault once
and as the last, and nothing from then on (`Reader.calls_eq`).
-/

namespace Bitcoin.Script

/-! ## How a push is laid out -/

/-- How many bytes of data a push with opcode `b` announces, behind which the
bytes `size` stand. -/
def PushForm.announced (b : UInt8) (size : Bytes) (form : PushForm) : Nat :=
  if form = .direct then b.toNat else Bytes.ofLittleEndian size

variable {form : PushForm} {b : UInt8} {size data rest s : Bytes} {offset : Nat} {done : List Instruction}

theorem PushForm.ofByte?_eq_some_iff : PushForm.ofByte? b = some form ↔
    b = form.opcode b.toNat ∧ (form = .direct → 1 ≤ b.toNat ∧ b.toNat ≤ 75) := by
  unfold ofByte?
  cases form <;> simp only [opcode, UInt8.le_iff_toNat_le, ← UInt8.toNat_inj, UInt8.ofNat_toNat] <;> grind

theorem PushForm.opcode_congr (h : form ≠ .direct) (m n : Nat) : form.opcode m = form.opcode n := by
  cases form with
  | direct => exact absurd rfl h
  | size1 | size2 | size4 => rfl

/-- The bytes of a push are its opcode, the bytes of its length and its data. -/
theorem Instruction.encode_push (hb : PushForm.ofByte? b = some form) (hs : size.length = form.width)
    (hd : data.length = form.announced b size) : (push form data).encode = b :: (size ++ data) := by
  obtain ⟨hb, -⟩ := PushForm.ofByte?_eq_some_iff.1 hb
  by_cases hf : form = .direct
  · subst hf
    obtain rfl := List.length_eq_zero_iff.1 hs
    rw [encode, hd, PushForm.announced, if_pos rfl, ← hb]
    rfl
  · rw [encode, PushForm.opcode_congr hf _ b.toNat, ← hb, hd, PushForm.announced, if_neg hf, ← hs,
      Bytes.littleEndian_ofLittleEndian]

theorem Instruction.wellFormed_push_iff : (push form data).WellFormed ↔
    if form = .direct then 1 ≤ data.length ∧ data.length ≤ 75 else data.length < Nat.pow 256 form.width := by
  cases form <;> simp [WellFormed]

theorem Instruction.wellFormed_push (hb : PushForm.ofByte? b = some form) (hs : size.length = form.width)
    (hd : data.length = form.announced b size) : (push form data).WellFormed := by
  obtain ⟨-, hb⟩ := PushForm.ofByte?_eq_some_iff.1 hb
  rw [PushForm.announced] at hd
  rw [wellFormed_push_iff]
  split at hd
  · rw [if_pos ‹_›, hd]
    exact hb ‹_›
  · rw [if_neg ‹_›, hd, ← hs]
    exact Bytes.ofLittleEndian_lt size

/-- A well-formed push has an opcode and bytes for its length. -/
theorem Instruction.WellFormed.exists_size (h : (Instruction.push form data).WellFormed) :
    ∃ b size, PushForm.ofByte? b = some form ∧ size.length = form.width ∧ data.length = form.announced b size := by
  rw [Instruction.wellFormed_push_iff] at h
  refine ⟨form.opcode data.length, Bytes.littleEndian form.width data.length, ?_, Bytes.length_littleEndian _ _, ?_⟩
  all_goals split at h
  · subst form
    rw [PushForm.ofByte?_eq_some_iff, PushForm.opcode, UInt8.toNat_ofNat', Nat.mod_eq_of_lt (by omega)]
    exact ⟨rfl, fun _ => h⟩
  · rename_i hf
    exact PushForm.ofByte?_eq_some_iff.2 ⟨PushForm.opcode_congr hf _ _, fun h => absurd h hf⟩
  · subst form
    rw [PushForm.announced, if_pos rfl, PushForm.opcode, UInt8.toNat_ofNat']
    omega
  · rename_i hf
    rw [PushForm.announced, if_neg hf, Bytes.ofLittleEndian_littleEndian, Nat.mod_eq_of_lt h]

theorem Instruction.length_encode_pos (i : Instruction) : 0 < i.encode.length := by
  cases i <;> exact Nat.succ_pos _

/-- From `offset` of a script on nothing is left but the front of a push: not
all bytes of its length, or fewer bytes of data than it announces. The fault
names the bytes that are wanted, and where. -/
inductive CutOff (offset : Nat) : Bytes → Error → Prop where
  | size {b : UInt8} {form : PushForm} {s : Bytes} (hb : PushForm.ofByte? b = some form)
      (hs : s.length < form.width) :
    CutOff offset (b :: s) (.decode (.pushPastEnd form.width (offset + 1)))
  | data {b : UInt8} {form : PushForm} {size s : Bytes} (hb : PushForm.ofByte? b = some form)
      (hs : size.length = form.width) (hd : s.length < form.announced b size) :
    CutOff offset (b :: (size ++ s)) (.decode (.pushPastEnd (form.announced b size) (offset + 1 + form.width)))

/-- A script is empty, begins with an instruction, or is the front of a push. -/
theorem eq_nil_or_encode_or_cutOff (s : Bytes) (offset : Nat) :
    s = [] ∨ (∃ (i : Instruction) (rest : Bytes), i.WellFormed ∧ s = i.encode ++ rest) ∨ ∃ e, CutOff offset s e := by
  rcases s with _ | ⟨b, s⟩
  · exact .inl rfl
  right
  rcases hb : PushForm.ofByte? b with _ | form
  · exact .inl ⟨.op b, s, hb, rfl⟩
  by_cases hw : s.length < form.width
  · exact .inr ⟨_, .size hb hw⟩
  have hs : (s.take form.width).length = form.width := List.length_take_of_le (Nat.le_of_not_lt hw)
  by_cases hn : (s.drop form.width).length < form.announced b (s.take form.width)
  · have hc : CutOff offset _ _ := .data hb hs hn
    rw [List.take_append_drop] at hc
    exact .inr ⟨_, hc⟩
  · have hd := List.length_take_of_le (Nat.le_of_not_lt hn)
    refine .inl ⟨_, (s.drop form.width).drop (form.announced b (s.take form.width)),
      Instruction.wellFormed_push hb hs hd, ?_⟩
    rw [Instruction.encode_push hb hs hd, List.cons_append, List.append_assoc,
      List.take_append_drop, List.take_append_drop]

/-! ## Reading one instruction -/

theorem takePush_append {n : Nat} (h : s.length = n) :
    takePush n offset (s ++ rest) = .ok (⟨s, h⟩, rest) := by
  rw [takePush, show Bytes.split? n (s ++ rest) = some (⟨s, h⟩, rest) from Bytes.split?_append ⟨s, h⟩ rest]

theorem takePush_of_lt {n : Nat} (h : s.length < n) :
    takePush n offset s = .error (.decode (.pushPastEnd n offset)) := by
  rw [takePush, Bytes.split?_of_lt h]

theorem pushData_eq (form : PushForm) (b : UInt8) (offset : Nat) (s : Bytes) : pushData form b offset s =
    (takePush form.width offset s >>= fun p =>
      takePush (form.announced b p.1.val) (offset + form.width) p.2 >>= fun q => .ok (q.1.val, q.2)) := rfl

theorem pushData_append (hs : size.length = form.width) (hd : data.length = form.announced b size) :
    pushData form b offset (size ++ (data ++ rest)) = .ok (data, rest) := by
  rw [pushData_eq, takePush_append hs, ok_bind, takePush_append hd, ok_bind]

theorem decodeFrom_op (h : PushForm.ofByte? b = none) (offset : Nat) (done : List Instruction)
    (rest : Bytes) : decodeFrom offset done (b :: rest) = decodeFrom (offset + 1) (.op b :: done) rest := by
  rw [decodeFrom, h]

theorem decodeFrom_of_pushData (hb : PushForm.ofByte? b = some form)
    (hp : pushData form b (offset + 1) s = .ok (data, rest)) (done : List Instruction) :
    decodeFrom offset done (b :: s) =
      decodeFrom (offset + 1 + form.width + data.length) (.push form data :: done) rest := by
  rw [decodeFrom, hb]
  dsimp only
  split
  · rename_i he
    cases hp.symm.trans he
  · rename_i he
    cases hp.symm.trans he
    rfl

theorem decodeFrom_of_pushData_error {e : Error} (hb : PushForm.ofByte? b = some form)
    (hp : pushData form b (offset + 1) s = .error e) (done : List Instruction) :
    decodeFrom offset done (b :: s) = ⟨done.reverse, some e⟩ := by
  rw [decodeFrom, hb]
  dsimp only
  split
  · rename_i he
    cases hp.symm.trans he
    rfl
  · rename_i he
    cases hp.symm.trans he

/-- A well-formed instruction in front is the one that is read. -/
theorem decodeFrom_encode {i : Instruction} (h : i.WellFormed) (offset : Nat) (done : List Instruction)
    (rest : Bytes) :
    decodeFrom offset done (i.encode ++ rest) = decodeFrom (offset + i.encode.length) (i :: done) rest := by
  cases i with
  | op b => exact decodeFrom_op h offset done rest
  | push form data =>
    obtain ⟨b, size, hb, hs, hd⟩ := h.exists_size
    rw [Instruction.encode_push hb hs hd, List.cons_append, List.append_assoc,
      decodeFrom_of_pushData hb (pushData_append hs hd), List.length_cons, List.length_append, hs]
    congr 1
    omega

/-- At a push that is cut off reading stops. -/
theorem decodeFrom_cutOff {e : Error} (h : CutOff offset s e) (done : List Instruction) :
    decodeFrom offset done s = ⟨done.reverse, some e⟩ := by
  cases h with
  | size hb hs =>
    refine decodeFrom_of_pushData_error hb ?_ done
    rw [pushData_eq, takePush_of_lt hs]
    rfl
  | data hb hs hd =>
    refine decodeFrom_of_pushData_error hb ?_ done
    rw [pushData_eq, takePush_append hs, ok_bind, takePush_of_lt hd]
    rfl

/-! ## Reading a whole script -/

/-- Instructions one after the other, by induction on them. -/
theorem decodeFrom_flatMap_encode {is : List Instruction} (h : ∀ i ∈ is, i.WellFormed) (offset : Nat)
    (done : List Instruction) (tail : Bytes) :
    decodeFrom offset done (is.flatMap Instruction.encode ++ tail) =
      decodeFrom (offset + (is.flatMap Instruction.encode).length) (is.reverse ++ done) tail := by
  induction is generalizing offset done with
  | nil => rfl
  | cons i is ih =>
    obtain ⟨hi, his⟩ := List.forall_mem_cons.1 h
    rw [List.flatMap_cons, List.append_assoc, decodeFrom_encode hi, ih his, List.length_append,
      List.reverse_cons, List.append_assoc, Nat.add_assoc]
    rfl

/-- What is left of a script from `offset` on where reading ends: nothing, or
the push in which the fault was found. -/
def EndsWith (offset : Nat) (tail : Bytes) : Option Error → Prop
  | none => tail = []
  | some e => CutOff offset tail e

/-- The instructions make up the script up to where reading ends. -/
structure Decoded.Parts (script : Bytes) (d : Decoded) : Prop where
  wellFormed : ∀ i ∈ d.instructions, i.WellFormed
  ends : ∃ tail, script = d.instructions.flatMap Instruction.encode ++ tail ∧
    EndsWith (d.instructions.flatMap Instruction.encode).length tail d.fault

theorem decodeFrom_of_endsWith {tail : Bytes} {fault : Option Error} (h : EndsWith offset tail fault)
    (done : List Instruction) : decodeFrom offset done tail = ⟨done.reverse, fault⟩ := by
  cases fault with
  | none =>
    cases h
    rw [decodeFrom]
  | some e => exact decodeFrom_cutOff h done

theorem Decoded.Parts.decode_eq {script : Bytes} {d : Decoded} (h : d.Parts script) : decode script = d := by
  obtain ⟨tail, hs, he⟩ := h.ends
  rw [decode, hs, decodeFrom_flatMap_encode h.wellFormed, Nat.zero_add, decodeFrom_of_endsWith he,
    List.append_nil, List.reverse_reverse]

/-- Every script has its parts, by induction on how much of it is left. -/
theorem exists_parts (s : Bytes) (offset : Nat) : ∃ (is : List Instruction) (tail : Bytes) (fault : Option Error),
    (∀ i ∈ is, i.WellFormed) ∧ s = is.flatMap Instruction.encode ++ tail ∧
      EndsWith (offset + (is.flatMap Instruction.encode).length) tail fault := by
  obtain rfl | ⟨i, rest, hi, rfl⟩ | ⟨e, he⟩ := eq_nil_or_encode_or_cutOff s offset
  · exact ⟨[], [], none, nofun, rfl, rfl⟩
  · obtain ⟨is, tail, fault, his, hr, hf⟩ := exists_parts rest (offset + i.encode.length)
    refine ⟨i :: is, tail, fault, List.forall_mem_cons.2 ⟨hi, his⟩, ?_, ?_⟩
    · rw [List.flatMap_cons, List.append_assoc, ← hr]
    · rwa [List.flatMap_cons, List.length_append, ← Nat.add_assoc]
  · exact ⟨[], s, some e, nofun, rfl, he⟩
termination_by s.length
decreasing_by
  subst_vars
  rw [List.length_append]
  have := Instruction.length_encode_pos i
  omega

theorem parts_decode (script : Bytes) : (decode script).Parts script := by
  obtain ⟨is, tail, fault, his, hs, hf⟩ := exists_parts script 0
  rw [Nat.zero_add] at hf
  have h : Decoded.Parts script ⟨is, fault⟩ := ⟨his, tail, hs, hf⟩
  rwa [h.decode_eq]

theorem decode_eq_iff_parts {script : Bytes} {d : Decoded} : decode script = d ↔ d.Parts script :=
  ⟨fun h => h ▸ parts_decode script, Decoded.Parts.decode_eq⟩

/-- A script ends within a push. -/
def Truncated (script : Bytes) : Prop :=
  ∃ (is : List Instruction) (tail : Bytes) (e : Error), (∀ i ∈ is, i.WellFormed) ∧
    script = is.flatMap Instruction.encode ++ tail ∧ CutOff (is.flatMap Instruction.encode).length tail e

theorem truncated_iff {script : Bytes} : Truncated script ↔ (decode script).fault ≠ none := by
  constructor
  · intro ⟨is, tail, e, hi, hs, hc⟩
    have hd : decode script = ⟨is, some e⟩ := decode_eq_iff_parts.2 ⟨hi, tail, hs, hc⟩
    rw [hd]
    exact nofun
  · intro h
    obtain ⟨e, he⟩ := Option.ne_none_iff_exists'.1 h
    obtain ⟨hi, tail, hs, hc⟩ := parts_decode script
    rw [he] at hc
    exact ⟨_, tail, e, hi, hs, hc⟩

theorem eq_flatMap_encode_of_not_truncated {script : Bytes} (h : ¬ Truncated script) :
    script = (decode script).instructions.flatMap Instruction.encode := by
  rw [truncated_iff, Classical.not_not] at h
  obtain ⟨-, tail, hs, ht⟩ := parts_decode script
  rw [h] at ht
  cases ht
  exact hs.trans (List.append_nil _)

/-! ## One instruction after the other -/

/-- What there is to read, in order: the instructions, and the fault as the last. -/
def Decoded.results (d : Decoded) : List (Except Error Instruction) :=
  d.instructions.map .ok ++ d.fault.toList.map .error

/-- Where a reader of a script stands that is asked for one instruction after
the other. -/
structure Reader where
  /-- How many bytes are behind it. -/
  position : Nat
  /-- Whether a fault was found. -/
  done : Bool
  deriving Repr, DecidableEq

namespace Reader

/-- At the front of a script. -/
def start : Reader := ⟨0, false⟩

/-- The next `n` bytes. Where they are too few the reader stays. -/
def take (script : Bytes) (n : Nat) : EStateM Error Reader (FixedBytes n) := fun r =>
  match Bytes.split? n (script.drop r.position) with
  | some (front, _) => .ok front { r with position := r.position + n }
  | none => .error (.decode (.pushPastEnd n r.position)) r

/-- The instruction with an opcode that was read. If the data of a push are too
few, its length is behind the reader all the same. -/
def instruction (script : Bytes) (b : UInt8) : EStateM Error Reader Instruction :=
  match PushForm.ofByte? b with
  | none => return .op b
  | some form => do
    let size ← take script form.width
    let data ← take script (form.announced b size.val)
    return .push form data.val

/-- What a call gives, if anything, and where it leaves the reader. -/
def next (script : Bytes) (r : Reader) : Option (Except Error Instruction) × Reader :=
  if r.done then (none, r)
  else
    match script[r.position]? with
    | none => (none, r)
    | some b =>
      match instruction script b { r with position := r.position + 1 } with
      | .ok i r => (some (.ok i), r)
      | .error e r => (some (.error e), { r with done := true })

/-- What `n` calls give. -/
def calls (script : Bytes) : Nat → Reader → List (Option (Except Error Instruction))
  | 0, _ => []
  | n + 1, r => (next script r).1 :: calls script n (next script r).2

variable {script tail : Bytes} {position : Nat} {r : Reader}

theorem take_append {n : Nat} (h : script.drop position = s ++ rest) (hn : s.length = n) :
    take script n ⟨position, false⟩ = .ok ⟨s, hn⟩ ⟨position + n, false⟩ := by
  rw [take, h, show Bytes.split? n (s ++ rest) = some (⟨s, hn⟩, rest) from Bytes.split?_append ⟨s, hn⟩ rest]

theorem take_of_lt {n : Nat} (h : (script.drop position).length < n) :
    take script n ⟨position, false⟩ = .error (.decode (.pushPastEnd n position)) ⟨position, false⟩ := by
  rw [take, Bytes.split?_of_lt h]

theorem drop_of_drop_eq_append (h : script.drop position = s ++ rest) : script.drop (position + s.length) = rest := by
  rw [← List.drop_drop, h, List.drop_left]

theorem getElem?_of_drop_eq_cons (h : script.drop position = b :: rest) : script[position]? = some b := by
  rw [← List.head?_drop, h, List.head?_cons]

theorem instruction_of_push (hb : PushForm.ofByte? b = some form) (script : Bytes) :
    instruction script b = (take script form.width >>= fun size =>
      take script (form.announced b size.val) >>= fun data => pure (.push form data.val)) := by
  rw [instruction, hb]

/-- The data of a push are read behind its length. -/
theorem instruction_push (hb : PushForm.ofByte? b = some form) (hs : size.length = form.width)
    (hd : data.length = form.announced b size) (h : script.drop position = size ++ (data ++ rest)) :
    instruction script b ⟨position, false⟩ =
      .ok (.push form data) ⟨position + form.width + form.announced b size, false⟩ := by
  have hr : script.drop (position + form.width) = data ++ rest := hs ▸ drop_of_drop_eq_append h
  rw [instruction_of_push hb, bind_of_ok (take_append h hs), bind_of_ok (take_append hr hd)]
  rfl

theorem next_of_ok {i : Instruction} (hb : script[position]? = some b)
    (h : instruction script b ⟨position + 1, false⟩ = .ok i r) :
    next script ⟨position, false⟩ = (some (.ok i), r) := by
  simp only [next, Bool.false_eq_true, if_false, hb, h]

theorem next_of_error {e : Error} (hb : script[position]? = some b)
    (h : instruction script b ⟨position + 1, false⟩ = .error e r) :
    next script ⟨position, false⟩ = (some (.error e), { r with done := true }) := by
  simp only [next, Bool.false_eq_true, if_false, hb, h]

theorem next_nil (h : script.drop position = []) : next script ⟨position, false⟩ = (none, ⟨position, false⟩) := by
  have hp : script[position]? = none := by rw [← List.head?_drop, h, List.head?_nil]
  simp only [next, Bool.false_eq_true, if_false, hp]

/-- A call gives the instruction in front and leaves the reader behind it. -/
theorem next_encode {i : Instruction} (hi : i.WellFormed) (h : script.drop position = i.encode ++ rest) :
    next script ⟨position, false⟩ = (some (.ok i), ⟨position + i.encode.length, false⟩) := by
  cases i with
  | op b =>
    have ho : instruction script b ⟨position + 1, false⟩ = .ok (.op b) ⟨position + 1, false⟩ := by
      rw [instruction, show PushForm.ofByte? b = none from hi]
      rfl
    exact next_of_ok (getElem?_of_drop_eq_cons h) ho
  | push form data =>
    obtain ⟨b, size, hb, hs, hd⟩ := hi.exists_size
    rw [Instruction.encode_push hb hs hd] at h ⊢
    have hr : script.drop (position + 1) = size ++ (data ++ rest) := by
      rw [← List.append_assoc]
      exact drop_of_drop_eq_append (s := [b]) h
    rw [next_of_ok (getElem?_of_drop_eq_cons h) (instruction_push hb hs hd hr), List.length_cons,
      List.length_append, hs, hd]
    congr 2
    omega

/-- At a push that is cut off a call gives the fault, and the reader is done. -/
theorem exists_next_cutOff {e : Error} (h : CutOff position (script.drop position) e) :
    ∃ r, next script ⟨position, false⟩ = (some (.error e), r) ∧ r.done = true := by
  generalize hp : script.drop position = s at h
  cases h with
  | @size b form s hb hs =>
    have hr : script.drop (position + 1) = s := drop_of_drop_eq_append (s := [b]) hp
    have hi := bind_of_error (k := fun size => take script (form.announced b size.val) >>= fun data =>
      pure (Instruction.push form data.val)) (take_of_lt (hr.symm ▸ hs))
    rw [← instruction_of_push hb] at hi
    exact ⟨_, next_of_error (getElem?_of_drop_eq_cons hp) hi, rfl⟩
  | @data b form size s hb hs hd =>
    have hr : script.drop (position + 1) = size ++ s := drop_of_drop_eq_append (s := [b]) hp
    have hl : script.drop (position + 1 + form.width) = s := hs ▸ drop_of_drop_eq_append hr
    have hi := bind_of_error (k := fun data => pure (Instruction.push form data.val)) (take_of_lt (hl.symm ▸ hd))
    rw [← bind_of_ok (k := fun size => take script (form.announced b size.val) >>= fun data =>
      pure (Instruction.push form data.val)) (take_append hr hs), ← instruction_of_push hb] at hi
    exact ⟨_, next_of_error (getElem?_of_drop_eq_cons hp) hi, rfl⟩

/-! ## All calls -/

/-- Where a call gives nothing it changes nothing, and neither do those after it. -/
theorem calls_of_next (h : next script r = (none, r)) (n : Nat) : calls script n r = List.replicate n none := by
  induction n with
  | zero => rfl
  | succ n ih => rw [calls, h, ih, List.replicate_succ]

/-- The calls from a place on, by induction on the instructions behind it. -/
theorem calls_of_parts {is : List Instruction} {fault : Option Error} (hi : ∀ i ∈ is, i.WellFormed)
    (hs : script.drop position = is.flatMap Instruction.encode ++ tail)
    (hf : EndsWith (position + (is.flatMap Instruction.encode).length) tail fault) (n : Nat) :
    calls script n ⟨position, false⟩ = ((Decoded.mk is fault).results.map some).take n ++
      List.replicate (n - (Decoded.mk is fault).results.length) none := by
  induction is generalizing position n with
  | nil =>
    cases fault with
    | none =>
      cases hf
      rw [calls_of_next (next_nil hs)]
      simp [Decoded.results]
    | some e =>
      obtain ⟨r, hr, hd⟩ := exists_next_cutOff (hs ▸ hf : CutOff position (script.drop position) e)
      cases n with
      | zero => rfl
      | succ n =>
        have hnext : next script r = (none, r) := by rw [next, if_pos hd]
        rw [calls, hr, calls_of_next hnext]
        simp [Decoded.results]
  | cons i is ih =>
    obtain ⟨hi, his⟩ := List.forall_mem_cons.1 hi
    rw [List.flatMap_cons, List.append_assoc] at hs
    rw [List.flatMap_cons, List.length_append, ← Nat.add_assoc] at hf
    cases n with
    | zero => simp [calls]
    | succ n =>
      rw [calls, next_encode hi hs, ih his (drop_of_drop_eq_append hs) hf]
      simp [Decoded.results]

/-- Calls give what there is to read, one after the other, and then nothing. -/
theorem calls_eq (script : Bytes) (n : Nat) : calls script n .start =
    ((decode script).results.map some).take n ++ List.replicate (n - (decode script).results.length) none := by
  have h := parts_decode script
  obtain ⟨tail, hs, hf⟩ := h.ends
  rw [← Nat.zero_add (List.length _)] at hf
  exact calls_of_parts h.wellFormed (List.drop_zero.trans hs) hf n

end Reader

/-! ## The partition -/

/-- A script is read as some instructions without a fault exactly if it is what
they are written as, all well-formed; and with a fault exactly if that is what
stands before a push that is cut off. Calls for one instruction after the other
give these, the fault once and as the last. -/
theorem decode_partitions (script : Bytes) :
    (∀ is, decode script = ⟨is, none⟩ ↔
      (∀ i ∈ is, i.WellFormed) ∧ script = is.flatMap Instruction.encode) ∧
    (∀ is e, decode script = ⟨is, some e⟩ ↔ (∀ i ∈ is, i.WellFormed) ∧
      ∃ tail, script = is.flatMap Instruction.encode ++ tail ∧
        CutOff (is.flatMap Instruction.encode).length tail e) ∧
    ∀ n, Reader.calls script n .start = ((decode script).results.map some).take n ++
      List.replicate (n - (decode script).results.length) none := by
  refine ⟨fun is => ?_, fun is e => ?_, Reader.calls_eq script⟩
  · rw [decode_eq_iff_parts]
    constructor
    · intro ⟨hi, tail, hs, ht⟩
      cases ht
      exact ⟨hi, hs.trans (List.append_nil _)⟩
    · intro ⟨hi, hs⟩
      exact ⟨hi, [], hs.trans (List.append_nil _).symm, rfl⟩
  · rw [decode_eq_iff_parts]
    exact ⟨fun ⟨hi, ht⟩ => ⟨hi, ht⟩, fun ⟨hi, ht⟩ => ⟨hi, ht⟩⟩

end Bitcoin.Script

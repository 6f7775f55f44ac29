import Bitcoin.Proofs.Wire.Indexed

/-!
# Reading on after errors

A session asks a cursor for one thing after the other and goes on from wherever
a failed reading stopped (`session`). Of each of its readings it is known where
it starts and where it stops (`Event.Sound`): never before its start nor behind
the end of the data, behind the encoding of what it yields, and after a failure
behind what it had taken when there were too few bytes left for the next part. A
failed number or byte string has taken nothing, a failed compact size its marker
at most, a failed counted byte string its length at most (`Request.slack`).

The same session by indices has no difference below zero and no slice out of
range (`sessionAt_eq`). Both are what one reading keeps (`sound_event`,
`Request.computes_readAt`), by induction on the requests.
-/

namespace Bitcoin.Read

open Signature (slice? sub?)

/-! ## Requests -/

/-- What a cursor is asked for. -/
inductive Request where
  | uint8
  | uint16
  | uint32
  | int32
  | uint64
  | int64
  /-- A byte string of a length that its type tells. -/
  | array (n : Nat)
  | bytes (n : Nat)
  | compactSize
  | counted
  | peek
  /-- How many bytes are left. -/
  | remaining
  deriving Repr, DecidableEq

namespace Request

/-- What a request yields. -/
def Value : Request → Type
  | uint8 => UInt8
  | uint16 => UInt16
  | uint32 => UInt32
  | int32 => Int32
  | uint64 => UInt64
  | int64 => Int64
  | array n => FixedBytes n
  | bytes _ => Bytes
  | compactSize => Nat
  | counted => Bytes
  | peek => Option UInt8
  | remaining => Nat

/-- The reading that is asked for. -/
def read : (r : Request) → Read r.Value
  | uint8 => Read.uint8
  | uint16 => Read.uint16
  | uint32 => Read.uint32
  | int32 => Read.int32
  | uint64 => Read.uint64
  | int64 => Read.int64
  | array n => Read.bytes n
  | bytes n => Subtype.val <$> Read.bytes n
  | compactSize => Read.compactSize
  | counted => Read.counted
  | peek => Read.peek
  | remaining => (·.rest.length) <$> Read.cursor

/-- The bytes that stand for a value, in front of others: a value that is only
looked at has none of its own. -/
def Encodes : (r : Request) → r.Value → Bytes → Bytes → Prop
  | uint8, x, b, _ => b = [x]
  | uint16, x, b, _ => b = Bytes.littleEndian 2 x.toNat
  | uint32, x, b, _ => b = Bytes.littleEndian 4 x.toNat
  | int32, x, b, _ => b = Bytes.littleEndian 4 x.toUInt32.toNat
  | uint64, x, b, _ => b = Bytes.littleEndian 8 x.toNat
  | int64, x, b, _ => b = Bytes.littleEndian 8 x.toUInt64.toNat
  | array _, a, b, _ => b = a.val
  | bytes n, (s : Bytes), b, _ => b = s ∧ s.length = n
  | compactSize, n, b, _ => CompactSize.Form n b
  | counted, (s : Bytes), b, _ => ∃ size, CompactSize.Form s.length size ∧ b = size ++ s
  | peek, x, b, behind => b = [] ∧ x = behind.head?
  | remaining, n, b, behind => b = [] ∧ n = behind.length

/-- What a request has taken when it stops for want of some bytes. -/
def Stops : Request → Bytes → Nat → Prop
  | uint8 => AtOnce 1
  | uint16 => AtOnce 2
  | uint32 | int32 => AtOnce 4
  | uint64 | int64 => AtOnce 8
  | array n | bytes n => AtOnce n
  | compactSize => CompactSize.Unfinished
  | counted => fun b wanted => CompactSize.Unfinished b wanted ∨ CompactSize.Form wanted b
  | peek | remaining => fun _ _ => False

/-- How many bytes a request may have taken when it fails: the marker of a
compact size, and the length of a counted byte string. -/
def slack : Request → Nat
  | compactSize => 1
  | counted => 9
  | _ => 0

theorem length_le_slack {r : Request} {b : Bytes} {wanted : Nat} (h : r.Stops b wanted) : b.length ≤ r.slack := by
  cases r with
  | compactSize => exact h.length_le
  | counted =>
    rcases h with h | h
    · exact Nat.le_trans h.length_le (Nat.le_add_left 1 8)
    · exact h.length_le
  | peek | remaining => exact h.elim
  | _ =>
    rw [h.1]
    exact Nat.le_refl 0

theorem moves_read (r : Request) : Moves r.read := by
  cases r with
  | uint8 | uint16 | uint32 | uint64 => exact (moves_number _).map _
  | int32 | int64 => exact ((moves_number _).map _).map _
  | array n => exact moves_bytes n
  | bytes n => exact (moves_bytes n).map _
  | compactSize => exact moves_compactSize
  | counted => exact moves_counted
  | peek | remaining => exact Behind.refl

theorem fails_read (r : Request) : Fails r.read r.Stops := by
  cases r with
  | uint8 | uint16 | uint32 | uint64 => exact (fails_number _).map _
  | int32 | int64 => exact ((fails_number _).map _).map _
  | array n => exact fails_bytes n
  | bytes n => exact (fails_bytes n).map _
  | compactSize => exact fails_compactSize
  | counted => exact fails_counted
  | peek | remaining => intro c c' e h; cases h

/-- What a request yields is related to the bytes it takes and to those behind. -/
theorem encodes_of_read {r : Request} {c c' : Cursor} {v : r.Value} (h : r.read c = .ok v c') :
    ∃ b, c.rest = b ++ c'.rest ∧ r.Encodes v b c'.rest := by
  cases r with
  | uint8 => exact reads_uint8 c c' v h
  | uint16 => exact reads_uint16 c c' v h
  | uint32 => exact reads_uint32 c c' v h
  | int32 => exact reads_int32 c c' v h
  | uint64 => exact reads_uint64 c c' v h
  | int64 => exact reads_int64 c c' v h
  | array n => exact reads_bytes n c c' v h
  | bytes n =>
    refine Reads.map (S := fun s b => b = s ∧ s.length = n) ?_ c c' v h
    exact (reads_bytes n).mono fun s b hb => ⟨hb, s.property⟩
  | compactSize => exact reads_compactSize_form c c' v h
  | counted => exact reads_counted_form c c' v h
  | peek | remaining =>
    cases h
    exact ⟨[], rfl, rfl, rfl⟩

end Request

/-! ## Sessions -/

/-- One reading: what was asked for, what came of it, and the number of bytes
taken before and after it. -/
structure Event where
  request : Request
  start : Nat
  outcome : Except Error request.Value
  stop : Nat

/-- The reading that a request makes at a cursor. -/
def Request.event (r : Request) (c : Cursor) : Event :=
  ⟨r, c.offset, valueOf (r.read c), (placeOf (r.read c)).offset⟩

/-- The readings that some requests make one after the other, each at the place
that the one before has left, whether that succeeded or failed. -/
def session : List Request → Cursor → List Event
  | [], _ => []
  | r :: rest, c => r.event c :: session rest (placeOf (r.read c))

/-- What holds of each reading of some data. -/
structure Event.Sound (data : Bytes) (e : Event) : Prop where
  start_le_stop : e.start ≤ e.stop
  stop_le_length : e.stop ≤ data.length
  /-- The bytes that were taken are the encoding of what was read. -/
  encodes : ∀ v, e.outcome = .ok v → ∃ b, slice? data e.start e.stop = some b ∧
    e.request.Encodes v b (data.drop e.stop)
  /-- Little or nothing was taken, and more bytes were wanted than were left. -/
  stops : ∀ fault, e.outcome = .error fault → e.stop ≤ e.start + e.request.slack ∧
    ∃ b wanted, slice? data e.start e.stop = some b ∧ e.request.Stops b wanted ∧ data.length - e.stop < wanted ∧
      fault = .decode (.unexpectedEnd wanted e.stop (data.length - e.stop))

/-! ## What one reading keeps -/

theorem eq_of_valueOf_eq_ok {x : EStateM.Result Error Cursor α} {a : α} (h : valueOf x = .ok a) :
    x = .ok a (placeOf x) := by
  cases x with
  | ok a' c =>
    cases h
    rfl
  | error e c => cases h

theorem eq_of_valueOf_eq_error {x : EStateM.Result Error Cursor α} {e : Error} (h : valueOf x = .error e) :
    x = .error e (placeOf x) := by
  cases x with
  | ok a c => cases h
  | error e' c =>
    cases h
    rfl

/-- One reading, from any place in the data. -/
theorem sound_event {data : Bytes} {c : Cursor} (h : Behind (.start data) c) (r : Request) :
    (r.event c).Sound data := by
  have hm := r.moves_read c
  have h' := h.trans hm
  have hl := offset_add_length_rest h'
  refine ⟨hm.offset_le, ?_, fun v hv => ?_, fun fault he => ?_⟩
  · show (placeOf (r.read c)).offset ≤ _
    omega
  · obtain ⟨b, hb, hs⟩ := Request.encodes_of_read (eq_of_valueOf_eq_ok hv)
    rw [← drop_offset h'] at hs
    exact ⟨b, slice?_offset h hb (hm.offset_eq hb), hs⟩
  · obtain ⟨b, wanted, hb, hs, hlt, rfl⟩ := r.fails_read _ _ _ (eq_of_valueOf_eq_error he)
    have ho := hm.offset_eq hb
    have hleft : data.length - (placeOf (r.read c)).offset = (placeOf (r.read c)).rest.length := by omega
    rw [← hleft] at hlt ⊢
    refine ⟨?_, b, wanted, slice?_offset h hb ho, hs, hlt, rfl⟩
    show (placeOf (r.read c)).offset ≤ c.offset + r.slack
    rw [ho]
    exact Nat.add_le_add_left (Request.length_le_slack hs) _

/-! ## What a session keeps -/

theorem sound_of_mem_session {data : Bytes} {c : Cursor} (h : Behind (.start data) c) (requests : List Request) :
    ∀ e ∈ session requests c, e.Sound data := by
  induction requests generalizing c with
  | nil => exact fun e he => nomatch he
  | cons r rest ih =>
    rw [session, List.forall_mem_cons]
    exact ⟨sound_event h r, ih (h.trans (r.moves_read c))⟩

theorem offset_le_of_mem_session (requests : List Request) (c : Cursor) :
    ∀ e ∈ session requests c, c.offset ≤ e.start := by
  induction requests generalizing c with
  | nil => exact fun e he => nomatch he
  | cons r rest ih =>
    rw [session, List.forall_mem_cons]
    exact ⟨Nat.le_refl _, fun e he => Nat.le_trans (r.moves_read c).offset_le (ih _ e he)⟩

/-- No reading starts in front of the place where one before it stopped. -/
theorem pairwise_session (requests : List Request) (c : Cursor) :
    (session requests c).Pairwise fun e f => e.stop ≤ f.start := by
  induction requests generalizing c with
  | nil => exact .nil
  | cons r rest ih =>
    rw [session, List.pairwise_cons]
    exact ⟨offset_le_of_mem_session rest _, ih _⟩

/-! ## Sessions by indices -/

section Indexed

variable (data : Bytes)

/-- The reading by indices that is asked for. -/
def Request.readAt : (r : Request) → IndexedRead r.Value
  | uint8 => uint8At data
  | uint16 => UInt16.ofNat <$> numberAt data 2
  | uint32 => UInt32.ofNat <$> numberAt data 4
  | int32 => UInt32.toInt32 <$> UInt32.ofNat <$> numberAt data 4
  | uint64 => UInt64.ofNat <$> numberAt data 8
  | int64 => UInt64.toInt64 <$> UInt64.ofNat <$> numberAt data 8
  | array n => arrayAt data n
  | bytes n => bytesAt data n
  | compactSize => compactSizeAt data
  | counted => countedAt data
  | peek => peekAt data
  | remaining => remainingAt data

/-- A session by indices, from one on. -/
def sessionAt : List Request → Nat → Option (List Event)
  | [], _ => some []
  | r :: rest, start => do
    let (outcome, stop) ← (r.readAt data).run.run start
    let events ← sessionAt rest stop
    return ⟨r, start, outcome, stop⟩ :: events

end Indexed

/-- The reading by indices that is asked for is the reading that is asked for. -/
theorem Request.computes_readAt (data : Bytes) (r : Request) : Computes data (r.readAt data) r.read := by
  cases r with
  | uint8 => exact computes_uint8At
  | uint16 | uint32 | uint64 => exact (computes_numberAt _).map
  | int32 | int64 => exact (computes_numberAt _).map.map
  | array n => exact computes_arrayAt n
  | bytes n => exact computes_bytesAt n
  | compactSize => exact computes_compactSizeAt
  | counted => exact computes_countedAt
  | peek => exact computes_peekAt
  | remaining => exact computes_remainingAt

/-- No difference in a session is below zero and no slice out of range, and it
comes to the same: by induction on the requests. -/
theorem sessionAt_eq {data : Bytes} {c : Cursor} (h : Behind (.start data) c) (requests : List Request) :
    sessionAt data requests c.offset = some (session requests c) := by
  induction requests generalizing c with
  | nil => rfl
  | cons r rest ih =>
    rw [sessionAt, r.computes_readAt data c h]
    show Option.bind (sessionAt data rest _) _ = _
    rw [ih (h.trans (r.moves_read c))]
    rfl

/-! ## Any session -/

/-- Whatever is asked for, and however often it fails: no difference is below
zero and no slice out of range, no reading starts in front of the place where an
earlier one stopped, and each of them is sound. -/
theorem session_sound (data : Bytes) (requests : List Request) :
    sessionAt data requests 0 = some (session requests (.start data)) ∧
    ((session requests (.start data)).Pairwise fun e f => e.stop ≤ f.start) ∧
    ∀ e ∈ session requests (.start data), e.Sound data := by
  have hs : Behind (.start data) (.start data) := .refl _
  exact ⟨sessionAt_eq hs requests, pairwise_session requests _, sound_of_mem_session hs requests⟩

/-- An integer that is longer than the data, a length with too few bytes behind
it, and a marker with none. -/
theorem session_sound_cutOff :
    session [.uint64, .uint8, .counted, .compactSize, .peek] (.start [0x2a, 0xfd, 0x05, 0x00, 0xfe]) =
      [⟨.uint64, 0, .error (.decode (.unexpectedEnd 8 0 5)), 0⟩,
        ⟨.uint8, 0, .ok (0x2a : UInt8), 1⟩,
        ⟨.counted, 1, .error (.decode (.unexpectedEnd 5 4 1)), 4⟩,
        ⟨.compactSize, 4, .error (.decode (.unexpectedEnd 4 5 0)), 5⟩,
        ⟨.peek, 5, .ok (none : Option UInt8), 5⟩] ∧
    (sessionAt [0x2a, 0xfd, 0x05, 0x00, 0xfe] [.uint64, .uint8, .counted, .compactSize, .peek] 0).isSome ∧
    Event.Sound [0x2a, 0xfd, 0x05, 0x00, 0xfe] ⟨.counted, 1, .error (.decode (.unexpectedEnd 5 4 1)), 4⟩ := by
  obtain ⟨hi, -, hs⟩ := session_sound [0x2a, 0xfd, 0x05, 0x00, 0xfe] [.uint64, .uint8, .counted, .compactSize, .peek]
  rw [hi]
  exact ⟨rfl, rfl, hs _ (.tail _ (.tail _ (.head _)))⟩

end Bitcoin.Read

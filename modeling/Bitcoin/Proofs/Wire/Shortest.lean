import Bitcoin.Proofs.Wire.Fields
import Bitcoin.Proofs.Wire.RoundTrip

/-!
# The shortest wire form

Compact sizes are read in any of their forms, so decoding accepts many wire
forms of one transaction. Of those with the marker, and of those without, the
one that is written is the only shortest (`length_canonical_le_of_decode`). Part
by part, what a reading takes is no shorter than what it yields is written, and
is that if it is as short (`Shortest`).

A number by itself is known to have the shortest compact size exactly if as many
bytes were taken as are written. Since reading does not look behind what it
takes, no number is written as the front of another
(`compactSize_shortest_prefixFree`).
-/

namespace Bitcoin

/-- A form is no shorter than the canonical one, and it is that one if it is as
short. -/
structure Shortest (canonical form : Bytes) : Prop where
  length_le : canonical.length ≤ form.length
  eq_of_length_eq : form.length = canonical.length → form = canonical

namespace Shortest

variable {a b c d : Bytes}

theorem refl (b : Bytes) : Shortest b b := ⟨Nat.le_refl _, fun _ => rfl⟩

theorem of_length_lt (h : a.length < b.length) : Shortest a b :=
  ⟨Nat.le_of_lt h, fun hl => absurd hl (Nat.ne_of_gt h)⟩

theorem append (h : Shortest a b) (h' : Shortest c d) : Shortest (a ++ c) (b ++ d) where
  length_le := by
    rw [List.length_append, List.length_append]
    exact Nat.add_le_add h.length_le h'.length_le
  eq_of_length_eq hl := by
    rw [List.length_append, List.length_append] at hl
    have hab := h.length_le
    have hcd := h'.length_le
    rw [h.eq_of_length_eq (by omega), h'.eq_of_length_eq (by omega)]

theorem length_eq_iff (h : Shortest a b) : b.length = a.length ↔ b = a :=
  ⟨h.eq_of_length_eq, fun hb => by rw [hb]⟩

end Shortest

/-! ## Compact sizes -/

namespace CompactSize

theorem encode_toNat {marker : UInt8} (h : widthAfter marker = 0) :
    encode marker.toNat = [marker] := by
  have hlt : marker.toNat < 0xfd := by
    simp only [widthAfter, ← UInt8.toNat_inj] at h
    have := marker.toNat_lt
    grind
  rw [encode, if_pos hlt, UInt8.ofNat_toNat]

/-- A number that fits behind a marker is written so or does with fewer bytes. -/
theorem encode_eq_marked_or {marker : UInt8} {n : Nat} (hw : widthAfter marker ≠ 0)
    (hn : n < Nat.pow 256 (widthAfter marker)) :
    encode n = marker :: Bytes.littleEndian (widthAfter marker) n ∨
      (encode n).length ≤ widthAfter marker := by
  have hm : marker = 0xfd ∨ marker = 0xfe ∨ marker = 0xff := by
    unfold widthAfter at hw
    grind
  have hl := length_encode n
  obtain rfl | rfl | rfl := hm
  · change n < 0x10000 at hn
    change _ = 0xfd :: Bytes.littleEndian 2 n ∨ _ ≤ 2
    grind [encode]
  · change n < 0x100000000 at hn
    change _ = 0xfe :: Bytes.littleEndian 4 n ∨ _ ≤ 4
    grind [encode]
  · change _ = 0xff :: Bytes.littleEndian 8 n ∨ _ ≤ 8
    grind [encode]

theorem shortest_marked {marker : UInt8} {n : Nat} (hw : widthAfter marker ≠ 0)
    (hn : n < Nat.pow 256 (widthAfter marker)) :
    Shortest (encode n) (marker :: Bytes.littleEndian (widthAfter marker) n) := by
  obtain h | h := encode_eq_marked_or hw hn
  · rw [h]
    exact .refl _
  · refine .of_length_lt ?_
    rw [List.length_cons, Bytes.length_littleEndian]
    omega

theorem Form.shortest {n : Nat} {b : Bytes} (h : Form n b) : Shortest (encode n) b := by
  cases h with
  | plain hw =>
    rw [encode_toNat hw]
    exact .refl _
  | marked hw hn => exact shortest_marked hw hn

end CompactSize

namespace Read

variable {α : Type} {read : Read α}

theorem reads_compactSize : Reads compactSize fun n b => Shortest (CompactSize.encode n) b :=
  reads_compactSize_form.mono fun _ _ => CompactSize.Form.shortest

theorem reads_counted : Reads counted fun s b => Shortest (CompactSize.counted s) b :=
  reads_counted_form.mono fun s _ ⟨_, hsize, hb⟩ => hb ▸ hsize.shortest.append (.refl s)

/-! ## Lists -/

theorem reads_manyAfter {write : α → Bytes} (h : Reads read fun a b => Shortest (write a) b) (n : Nat)
    (done : List α) : Reads (manyAfter read n done) fun xs b =>
      ∃ ys, xs = done.reverse ++ ys ∧ ys.length = n ∧ Shortest (ys.flatMap write) b := by
  induction n generalizing done with
  | zero => exact .pure ⟨[], by simp, rfl, .refl _⟩
  | succ n ih =>
    refine h.bind fun x b hx => (ih (x :: done)).mono fun xs b' hxs => ?_
    obtain ⟨ys, rfl, rfl, hys⟩ := hxs
    exact ⟨x :: ys, by simp, rfl, hx.append hys⟩

theorem reads_list {write : α → Bytes} (h : Reads read fun a b => Shortest (write a) b) :
    Reads (list read) fun xs b => Shortest (CompactSize.encode xs.length ++ xs.flatMap write) b := by
  refine reads_compactSize.bind fun n b hn => (reads_manyAfter h n []).mono fun xs b' hxs => ?_
  obtain ⟨ys, rfl, rfl, hys⟩ := hxs
  exact hn.append hys

end Read

/-! ## Parts of transactions -/

namespace Transaction

open Read

theorem reads_input : Reads readInput fun i b => Shortest i.serialize b := by
  refine (reads_bytes 32).bind fun txid b htxid => reads_uint32.bind fun vout b' hvout =>
    reads_counted.bind fun scriptSig b'' hs => reads_uint32.bind fun sequence b''' hseq => .pure ?_
  subst htxid hvout hseq
  rw [List.append_nil, Input.serialize, Input.serializeWith, OutPoint.serialize]
  dsimp only [Input.make]
  rw [FixedBytes.reverse_reverse, List.append_assoc, List.append_assoc]
  exact (Shortest.refl _).append ((Shortest.refl _).append (hs.append (.refl _)))

theorem reads_output : Reads readOutput fun o b => Shortest o.serialize b := by
  refine reads_int64.bind fun value b hv => reads_counted.bind fun script b' hs => .pure ?_
  subst hv
  rw [List.append_nil]
  exact (Shortest.refl _).append hs

theorem reads_items : Reads (list counted) fun items b =>
    Shortest (CompactSize.encode items.length ++ items.flatMap CompactSize.counted) b :=
  reads_list reads_counted

/-- Reading witnesses keeps all else of the inputs. -/
theorem reads_witnesses (is done : List Input) : Reads (readWitnesses is done) fun js b => ∃ ys,
    js = done.reverse ++ ys ∧ ys.map Input.withoutWitness = is.map Input.withoutWitness ∧
      Shortest (ys.flatMap Input.serializeWitness) b := by
  induction is generalizing done with
  | nil => exact .pure ⟨[], by simp, rfl, .refl _⟩
  | cons i is ih =>
    refine reads_items.bind fun witness b hw => (ih _).mono fun js b' hjs => ?_
    obtain ⟨ys, rfl, hys, hs⟩ := hjs
    exact ⟨{ i with witness } :: ys, by simp, by simpa [Input.withoutWitness] using hys, hw.append hs⟩

theorem reads_marked (marked : Bool) (is : List Input) : Reads (readMarked marked is) fun js b =>
    js.map Input.withoutWitness = is.map Input.withoutWitness ∧
      Shortest (if marked then js.flatMap Input.serializeWitness else []) b := by
  cases marked with
  | false => exact .pure ⟨rfl, .refl _⟩
  | true =>
    refine (reads_witnesses is []).mono fun js b hjs => ?_
    obtain ⟨ys, rfl, hys, hs⟩ := hjs
    exact ⟨hys, hs⟩

/-- How inputs are written without witnesses does not tell of witnesses. -/
theorem inputsBytes_congr {is js : List Input} (h : is.map Input.withoutWitness = js.map Input.withoutWitness) :
    CompactSize.encode is.length ++ is.flatMap Input.serialize =
      CompactSize.encode js.length ++ js.flatMap Input.serialize := by
  have hb (is : List Input) : is.flatMap Input.serialize = (is.map Input.withoutWitness).flatMap Input.serialize :=
    (List.flatMap_map Input.withoutWitness Input.serialize is).symm
  rw [hb, h, ← hb js, ← List.length_map Input.withoutWitness, h, List.length_map]

theorem readMarker_eq_ok {c c' : Cursor} {marked : Bool} (h : readMarker c = .ok marked c') :
    marked = true ∧ c.rest = 0x00 :: 0x01 :: c'.rest ∨ marked = false ∧ c.rest.head? ≠ some 0x00 ∧ c' = c := by
  obtain ⟨byte, c₁, hp, h⟩ := exists_of_bind_eq_ok h
  cases hp
  split at h
  · rename_i hz
    obtain ⟨marker, c₂, hm, h⟩ := exists_of_bind_eq_ok h
    obtain ⟨flag, c₃, hf, h⟩ := exists_of_bind_eq_ok h
    obtain ⟨_, hm, rfl⟩ := reads_uint8 _ _ _ hm
    obtain ⟨_, hf, rfl⟩ := reads_uint8 _ _ _ hf
    split at h
    · rename_i hflag
      cases h
      rw [hm] at hz
      cases hz
      rw [hm, hf, hflag]
      exact .inl ⟨rfl, rfl⟩
    · cases h
  · cases h
    exact .inr ⟨rfl, ‹_›, rfl⟩

/-- Behind a marker and its flag, or at a byte that is no marker. -/
theorem reads_marker {β : Type} {k : Bool → Read β} {S : β → Bytes → Prop}
    (hm : Reads (k true) fun x b => S x (0x00 :: 0x01 :: b))
    (hu : Reads (k false) fun x b => b.head? ≠ some 0x00 → S x b) : Reads (readMarker >>= k) S := by
  intro c c' x h
  obtain ⟨marked, c₁, hmarker, hk⟩ := exists_of_bind_eq_ok h
  obtain ⟨rfl, hc⟩ | ⟨rfl, hc, rfl⟩ := readMarker_eq_ok hmarker
  · obtain ⟨b, hb, hs⟩ := hm c₁ c' x hk
    exact ⟨_, by rw [hc, hb]; rfl, hs⟩
  · obtain ⟨b, hb, hs⟩ := hu c₁ c' x hk
    refine ⟨b, hb, hs fun hz => hc ?_⟩
    rw [hb, List.head?_append, hz]
    rfl

/-- The reading of what stands behind the version and the marker. -/
def readBehind (version : Int32) (marked : Bool) : Read Transaction := do
  let inputs ← list readInput
  let outputs ← list readOutput
  let inputs ← readMarked marked inputs
  let locktime ← uint32
  return { version, locktime, inputs, outputs }

theorem readFront_eq : readFront = int32 >>= fun version => readMarker >>= readBehind version := rfl

theorem reads_behind (version : Int32) (marked : Bool) : Reads (readBehind version marked) fun tx b =>
    tx.version = version ∧ Shortest (tx.inputsBytes ++ (tx.outputsBytes ++
      ((if marked then tx.inputs.flatMap Input.serializeWitness else []) ++ tx.locktimeBytes))) b := by
  refine (reads_list reads_input).bind fun is bi hi => (reads_list reads_output).bind fun os bo ho =>
    (reads_marked marked is).bind fun js bw hw => reads_uint32.bind fun locktime bl hl => .pure ⟨rfl, ?_⟩
  subst hl
  rw [List.append_nil, inputsBytes, inputsBytes_congr hw.1]
  exact hi.append (ho.append (hw.2.append (.refl _)))

/-- The wire form of a transaction that is like another form of it: with the
marker if that has it, and without it otherwise. -/
def canonical (form : Bytes) (tx : Transaction) : Bytes :=
  if form[4]? = some 0x00 then tx.serializeSegwit else tx.serializeLegacy

theorem canonical_versionBytes (tx tx' : Transaction) (b : Bytes) : canonical (tx.versionBytes ++ b) tx' =
    if b.head? = some 0x00 then tx'.serializeSegwit else tx'.serializeLegacy := by
  rw [canonical, List.getElem?_append_right (Nat.le_of_eq tx.length_versionBytes), tx.length_versionBytes,
    List.head?_eq_getElem?]

theorem reads_front : Reads readFront fun tx b => Shortest (canonical b tx) b := by
  rw [readFront_eq]
  refine reads_int32.bind fun version b hv => ?_
  subst hv
  refine reads_marker ((reads_behind version true).mono fun tx b hb => ?_)
    ((reads_behind version false).mono fun tx b hb hz => ?_)
  · obtain ⟨rfl, hs⟩ := hb
    rw [← versionBytes, canonical_versionBytes, List.head?_cons, if_pos rfl, serializeSegwit]
    simp only [List.append_assoc]
    exact (Shortest.refl _).append ((Shortest.refl [0x00, 0x01]).append hs)
  · obtain ⟨rfl, hs⟩ := hb
    rw [← versionBytes, canonical_versionBytes, if_neg hz, serializeLegacy]
    simp only [List.append_assoc]
    exact (Shortest.refl _).append hs

/-! ## Decoding -/

theorem read_eq_ok {c c' : Cursor} {tx : Transaction} (h : read c = .ok tx c') :
    readFront c = .ok tx c' ∧ c'.rest = [] := by
  obtain ⟨front, c₁, hf, h⟩ := exists_of_bind_eq_ok h
  obtain ⟨c₂, c₃, hc, h⟩ := exists_of_bind_eq_ok h
  cases hc
  split at h
  · rename_i he
    cases h
    exact ⟨hf, List.isEmpty_iff.1 he⟩
  · cases h

/-- What decodes is read to its end. -/
theorem readFront_of_decode {bytes : Bytes} {tx : Transaction} (h : decode bytes = .ok tx) :
    ∃ c, readFront (.start bytes) = .ok tx c ∧ c.rest = [] := by
  unfold decode Read.run EStateM.run at h
  cases hr : read (.start bytes) with
  | error e c =>
    rw [hr] at h
    cases h
  | ok draft c =>
    rw [hr] at h
    obtain ⟨rfl, -⟩ := checkAmounts_eq_ok.1 h
    exact ⟨c, read_eq_ok hr⟩

theorem shortest_of_decode {bytes : Bytes} {tx : Transaction} (h : decode bytes = .ok tx) :
    Shortest (canonical bytes tx) bytes := by
  obtain ⟨c, hf, hc⟩ := readFront_of_decode h
  obtain ⟨b, hb, hs⟩ := reads_front _ _ _ hf
  rw [hc, List.append_nil] at hb
  rwa [show bytes = b from hb]

/-- Whatever decodes to a transaction is no shorter than what is written of it
in the same form, and is that if it is as short. -/
theorem length_canonical_le_of_decode {bytes : Bytes} {tx : Transaction} (h : decode bytes = .ok tx) :
    (canonical bytes tx).length ≤ bytes.length ∧
      (bytes.length = (canonical bytes tx).length ↔ bytes = canonical bytes tx) :=
  ⟨(shortest_of_decode h).length_le, (shortest_of_decode h).length_eq_iff⟩

/-- A form with a marker but only an empty witness, and with numbers behind markers
that they do not need. -/
def looseForm : Bytes :=
  [0x02, 0x00, 0x00, 0x00, 0x00, 0x01, 0xfd, 0x01, 0x00] ++ List.replicate 32 0x00 ++
    [0x01, 0x00, 0x00, 0x00, 0xfe, 0x01, 0x00, 0x00, 0x00, 0x51, 0xff, 0xff, 0xff, 0xff, 0x01,
      0x40, 0x9c, 0x00, 0x00, 0x00, 0x00, 0x00, 0x00, 0xfd, 0x01, 0x00, 0x51, 0xfd, 0x00, 0x00,
      0x07, 0x00, 0x00, 0x00]

/-- What it is a form of. -/
def looseSpend : Transaction where
  version := 2
  locktime := 7
  inputs := [.make ⟨FixedBytes.zero 32, 1⟩ none [0x51] [] 0xffffffff]
  outputs := [.ofScript 40000 [0x51]]

theorem length_canonical_looseSpend : decode looseForm = .ok looseSpend ∧
    (canonical looseForm looseSpend).length ≤ looseForm.length ∧
      (looseForm.length = (canonical looseForm looseSpend).length ↔
        looseForm = canonical looseForm looseSpend) := by
  have h : decode looseForm = .ok looseSpend := toOption_eq_some_iff.1 (by decide +kernel)
  exact ⟨h, length_canonical_le_of_decode h⟩

end Transaction

end Bitcoin

/-! ## Compact sizes as a code -/

namespace Bitcoin.Read

open CompactSize

theorem run_of_takes {α : Type} {read : Read α} {b : Bytes} {a : α} (h : Takes read b a) (rest : Bytes) :
    run read (b ++ rest) = .ok (a, ⟨b.length, rest⟩) := by
  have hr : read (.start (b ++ rest)) = .ok a ⟨0 + b.length, rest⟩ := h 0 rest
  rw [Nat.zero_add] at hr
  rw [run, EStateM.run, hr]

theorem reads_compactSize_lt : Reads compactSize fun n _ => n < UInt64.size :=
  reads_compactSize_form.mono fun _ _ => Form.lt_size

/-- Different numbers are not written as the front of one another. -/
theorem encode_prefix_inj {v w : Nat} (hv : v < UInt64.size) (hw : w < UInt64.size)
    (h : encode v <+: encode w) : v = w := by
  obtain ⟨rest, hr⟩ := h
  have he : encode v ++ rest = encode w ++ [] := by rw [hr, List.append_nil]
  exact ((takes_compactSize hv).unique (takes_compactSize hw) he).1

/-- What is written is read again, whatever follows, up to its end. Whatever is
read is no shorter than what would be written, and is that exactly if it is as
short. Different numbers are not written as the front of one another. -/
theorem compactSize_shortest_prefixFree :
    (∀ (v : UInt64) (rest : Bytes),
      run compactSize (encode v.toNat ++ rest) = .ok (v.toNat, ⟨(encode v.toNat).length, rest⟩)) ∧
    (∀ (b : Bytes) (v : Nat) (c : Cursor), run compactSize b = .ok (v, c) → v < UInt64.size ∧
      (encode v).length ≤ c.offset ∧ (c.offset = (encode v).length ↔ b.take c.offset = encode v)) ∧
    ∀ v w : UInt64, v ≠ w → ¬encode v.toNat <+: encode w.toNat := by
  refine ⟨fun v rest => run_of_takes (takes_compactSize v.toNat_lt) rest, fun b v c h => ?_, fun v w hn hp => ?_⟩
  · obtain ⟨hl, hs⟩ := reads_compactSize.of_run moves_compactSize h
    have ht : (b.take c.offset).length = c.offset := List.length_take_of_le hl
    have hle := hs.length_le
    have hiff := hs.length_eq_iff
    rw [ht] at hle hiff
    exact ⟨(reads_compactSize_lt.of_run moves_compactSize h).2, hle, hiff⟩
  · exact hn (UInt64.toNat_inj.1 (encode_prefix_inj v.toNat_lt w.toNat_lt hp))

/-- Five in two bytes more than it needs, and the numbers on both sides of a
bound, with the same bytes in front. -/
theorem compactSize_shortest_prefixFree_loose :
    run compactSize [0xfd, 0x05, 0x00, 0x2a] = .ok (5, ⟨3, [0x2a]⟩) ∧ (encode 5).length ≤ 3 ∧
    (3 = (encode 5).length ↔ [0xfd, 0x05, 0x00] = encode 5) ∧ (65535 : UInt64) ≠ 65536 ∧
    ¬encode (65535 : UInt64).toNat <+: encode (65536 : UInt64).toNat := by
  have h : run compactSize [0xfd, 0x05, 0x00, 0x2a] = .ok (5, ⟨3, [0x2a]⟩) := rfl
  have hn : (65535 : UInt64) ≠ 65536 := by decide
  obtain ⟨-, hr, hp⟩ := compactSize_shortest_prefixFree
  obtain ⟨-, hle, hiff⟩ := hr _ _ _ h
  exact ⟨h, hle, hiff, hn, hp _ _ hn⟩

end Bitcoin.Read

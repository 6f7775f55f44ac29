import Bitcoin.Proofs.Wire.Fields
import Bitcoin.Sighash

/-!
# What digests of taproot spends commit to

Which parts a message has follows from its second byte, the hash type, and from
the byte that says whether there are an annex and a leaf. All parts have known
lengths but the script of a lone input, which can be told from the length of the
whole. So two requests for a digest have the same message exactly if they agree
on each part (`layout_eq_iff`), and the messages of key paths, of script paths
and of spends with an annex are apart. Requests that differ in nothing that the
type covers (`SameCovered`) have the same digest.
-/

namespace Bitcoin.Sighash.Taproot

open Bytes

/-- What a digest is asked for: the signed input, the hash type, the annex and
the leaf of a script path. -/
structure Request where
  tx : Transaction
  index : Nat
  type : SighashType
  annex : Option Bytes
  leaf : Option Hash256

/-- The hashes over all inputs. -/
structure InputHashes where
  outpoints : Hash256
  amounts : Hash256
  scripts : Hash256
  sequences : Hash256

/-- The hashes one after the other. -/
def InputHashes.bytes (h : InputHashes) : Bytes :=
  h.outpoints.val ++ h.amounts.val ++ h.scripts.val ++ h.sequences.val

/-- The hashes over all inputs of a transaction, as far as it has the prevouts. -/
def InputHashes.of (tx : Transaction) : InputHashes where
  outpoints := sha256 (tx.inputs.flatMap fun i => i.outpoint.serialize)
  amounts := sha256 ((tx.inputs.filterMap Input.prevout).flatMap fun o => littleEndian 8 o.value.toUInt64.toNat)
  scripts := sha256 ((tx.inputs.filterMap Input.prevout).flatMap fun o => CompactSize.counted o.script)
  sequences := sha256 (tx.inputs.flatMap fun i => littleEndian 4 i.sequence.toNat)

/-- What a message says of the signed input. -/
inductive Own where
  /-- Its place, as a number of 32 bits. -/
  | place (n : UInt32)
  /-- What it spends, by reference and itself, and its sequence number. -/
  | input (outpoint : OutPoint) (spent : Amount × Bytes) (sequence : UInt32)

/-- The field of the signed input. -/
def Own.bytes : Own → Bytes
  | place n => littleEndian 4 n.toNat
  | input outpoint spent sequence => outpoint.serialize ++ Output.wireBytes spent ++ littleEndian 4 sequence.toNat

/-- What hash types can cover of an input. -/
def covered (i : Input) : OutPoint × Option (Amount × Bytes) × UInt32 :=
  (i.outpoint, i.prevout.map Output.wire, i.sequence)

/-- What a message says of the leaf of a script path. -/
def leafBytes (leaf : Hash256) : Bytes := leaf.val ++ 0x00 :: littleEndian 4 0xffffffff

namespace Request

/-- The message for a request. -/
def message (r : Request) : Except Error Bytes := Taproot.message r.tx r.index r.type r.annex r.leaf

/-- The digest for a request. -/
def digest (r : Request) : Except Error Hash256 := Taproot.digest r.tx r.index r.type r.annex r.leaf

/-- The hashes over all inputs, unless other inputs may change. -/
def inputHashes? (r : Request) : Option InputHashes := if r.type.anyoneCanPay then none else some (.of r.tx)

/-- The hash over all outputs, if all are covered. -/
def outputsHash? (r : Request) : Option Hash256 :=
  if r.type.coverage = .all then some (sha256 (r.tx.outputs.flatMap Output.serialize)) else none

/-- What the message says of the signed input: its place among inputs that are
fixed, or all about it. -/
def own? (r : Request) : Option Own :=
  r.tx.inputs[r.index]?.bind fun i =>
    if r.type.anyoneCanPay then i.prevout.map fun o => .input i.outpoint o.wire i.sequence
    else some (.place (.ofNat r.index))

/-- The hash of the annex behind its length. -/
def annexHash? (r : Request) : Option Hash256 := r.annex.map fun a => sha256 (CompactSize.counted a)

/-- The hash of the output of the input's place, if it is the one covered. -/
def outputHash? (r : Request) : Option Hash256 :=
  if r.type.coverage = .single then r.tx.outputs[r.index]?.map fun o => sha256 o.serialize else none

/-- Two requests agree on every part of the message. -/
structure Agree (r r' : Request) : Prop where
  type : r.type = r'.type
  version : r.tx.version = r'.tx.version
  locktime : r.tx.locktime = r'.tx.locktime
  inputs : r.inputHashes? = r'.inputHashes?
  outputs : r.outputsHash? = r'.outputsHash?
  own : r.own? = r'.own?
  annex : r.annexHash? = r'.annexHash?
  output : r.outputHash? = r'.outputHash?
  leaf : r.leaf = r'.leaf

/-- Two requests differ in nothing that the hash type covers. -/
structure SameCovered (r r' : Request) : Prop where
  version : r.tx.version = r'.tx.version
  locktime : r.tx.locktime = r'.tx.locktime
  type : r.type = r'.type
  annex : r.annex = r'.annex
  leaf : r.leaf = r'.leaf
  index : r.type.anyoneCanPay = false → r.index = r'.index
  inputs : r.type.anyoneCanPay = false → r.tx.inputs.map covered = r'.tx.inputs.map covered
  input : r.type.anyoneCanPay = true → r.tx.inputs[r.index]?.map covered = r'.tx.inputs[r'.index]?.map covered
  outputs : r.type.coverage = .all → r.tx.outputs.map Output.wire = r'.tx.outputs.map Output.wire
  output : r.type.coverage = .single →
    r.tx.outputs[r.index]?.map Output.wire = r'.tx.outputs[r'.index]?.map Output.wire

/-- What it takes for there to be a message. -/
structure Complete (r : Request) : Prop where
  type : r.type.isTaproot = true
  prevouts : r.type.anyoneCanPay = false → ∀ i ∈ r.tx.inputs, i.prevout.isSome
  output : r.type.coverage = .single → r.index < r.tx.outputs.length

variable {r r' : Request} {b : Bytes}

/-! ## The message -/

/-- What stands before the field of the signed input. -/
def front (r : Request) : Bytes :=
  [0x00, r.type.byte] ++ r.tx.versionBytes ++ r.tx.locktimeBytes ++ optional InputHashes.bytes r.inputHashes? ++
    optional Subtype.val r.outputsHash? ++ [spendByte r.annex r.leaf]

/-- What stands behind the field of the signed input. -/
def back (r : Request) : Bytes :=
  optional Subtype.val r.annexHash? ++ optional Subtype.val r.outputHash? ++ optional leafBytes r.leaf

/-- The message, given what it says of the signed input. -/
def layout (r : Request) (own : Own) : Bytes := r.front ++ own.bytes ++ r.back

theorem prevouts_eq_ok {tx : Transaction} {os : List Output} : prevouts tx = .ok os ↔
    (∀ i ∈ tx.inputs, i.prevout.isSome) ∧ tx.inputs.filterMap Input.prevout = os := by
  have known : (tx.inputs.findIdx? fun i => i.prevout.isNone) = none ↔ ∀ i ∈ tx.inputs, i.prevout.isSome := by
    simp [List.findIdx?_eq_none_iff]
  unfold prevouts
  cases h : tx.inputs.findIdx? fun i => i.prevout.isNone with
  | none => exact ⟨fun he => ⟨known.1 h, Except.ok.inj he⟩, fun he => congrArg Except.ok he.2⟩
  | some k =>
    refine iff_of_false nofun fun he => ?_
    cases h.symm.trans (known.2 he.1)

theorem commonInputs_eq_ok : commonInputs r.tx r.type = .ok b ↔
    (r.type.anyoneCanPay = false → ∀ i ∈ r.tx.inputs, i.prevout.isSome) ∧
      optional InputHashes.bytes r.inputHashes? = b := by
  unfold commonInputs inputHashes?
  cases ht : r.type.anyoneCanPay with
  | true => exact ⟨fun h => ⟨nofun, Except.ok.inj h⟩, fun h => congrArg Except.ok h.2⟩
  | false =>
    show (prevouts r.tx >>= fun spent => .ok (inputHashes r.tx spent)) = .ok b ↔ _
    simp only [bind_eq_ok, prevouts_eq_ok]
    constructor
    · rintro ⟨_, ⟨hk, rfl⟩, hb⟩
      exact ⟨fun _ => hk, Except.ok.inj hb⟩
    · intro ⟨hk, hb⟩
      exact ⟨_, ⟨hk trivial, rfl⟩, congrArg Except.ok hb⟩

theorem ownInput_eq_ok {i : Input} (hi : r.tx.inputs[r.index]? = some i) :
    ownInput r.tx r.index i r.type = .ok b ↔ ∃ own, r.own? = some own ∧ own.bytes = b := by
  unfold ownInput own?
  rw [hi, Option.bind_some]
  cases r.type.anyoneCanPay with
  | false =>
    show Except.ok (littleEndian 4 r.index) = .ok b ↔ ∃ own, some (Own.place (.ofNat r.index)) = some own ∧ _
    simp only [Except.ok.injEq, Option.some.injEq, exists_eq_left', Own.bytes, littleEndian_toNat_ofNat]
  | true =>
    show (r.tx.prevout r.index >>= fun o => .ok (i.outpoint.serialize ++ o.serialize ++
      littleEndian 4 i.sequence.toNat)) = .ok b ↔ _
    simp only [bind_eq_ok, Transaction.prevout_eq_ok hi, if_true, Option.map_eq_some_iff, Except.ok.injEq]
    constructor
    · rintro ⟨o, ho, hb⟩
      exact ⟨_, ⟨o, ho, rfl⟩, hb⟩
    · rintro ⟨_, ⟨o, ho, rfl⟩, hb⟩
      exact ⟨o, ho, hb⟩

theorem ownOutput_eq_ok : ownOutput r.tx r.index r.type = .ok b ↔
    (r.type.coverage = .single → r.index < r.tx.outputs.length) ∧ optional Subtype.val r.outputHash? = b := by
  unfold ownOutput outputHash?
  by_cases hc : r.type.coverage = .single
  · rw [if_pos hc, if_pos hc]
    cases ho : r.tx.outputs[r.index]? with
    | none =>
      refine iff_of_false nofun fun h => ?_
      exact Nat.not_lt.2 (List.getElem?_eq_none_iff.1 ho) (h.1 hc)
    | some o =>
      have hl := (List.getElem?_eq_some_iff.1 ho).1
      exact ⟨fun h => ⟨fun _ => hl, Except.ok.inj h⟩, fun h => congrArg Except.ok h.2⟩
  · rw [if_neg hc, if_neg hc]
    exact ⟨fun h => ⟨fun hs => absurd hs hc, Except.ok.inj h⟩, fun h => congrArg Except.ok h.2⟩

theorem commonOutputs_eq (r : Request) : commonOutputs r.tx r.type = optional Subtype.val r.outputsHash? := by
  unfold commonOutputs outputsHash?
  split <;> rfl

theorem annexHash_eq (r : Request) : annexHash r.annex = optional Subtype.val r.annexHash? := by
  unfold annexHash annexHash?
  cases r.annex <;> rfl

theorem leafPart_eq (r : Request) : leafPart r.leaf = optional leafBytes r.leaf := by
  cases r.leaf <;> rfl

theorem message_eq_ok : r.message = .ok b ↔ Complete r ∧ ∃ own, r.own? = some own ∧ r.layout own = b := by
  unfold message Taproot.message
  by_cases ht : r.type.isTaproot = true
  · rw [if_pos ht]
    show (r.tx.input r.index >>= fun i => commonInputs r.tx r.type >>= fun inputs =>
      ownInput r.tx r.index i r.type >>= fun own => ownOutput r.tx r.index r.type >>= fun output => .ok
        ([0x00, r.type.byte] ++ r.tx.versionBytes ++ r.tx.locktimeBytes ++ inputs ++ commonOutputs r.tx r.type ++
          [spendByte r.annex r.leaf] ++ own ++ annexHash r.annex ++ output ++ leafPart r.leaf)) = .ok b ↔ _
    simp only [bind_eq_ok, Transaction.input_eq_ok, commonInputs_eq_ok, ownOutput_eq_ok, Except.ok.injEq,
      commonOutputs_eq, annexHash_eq, leafPart_eq]
    constructor
    · rintro ⟨i, hi, inputs, ⟨hp, rfl⟩, field, hf, output, ⟨hs, rfl⟩, rfl⟩
      obtain ⟨own, ho, rfl⟩ := (ownInput_eq_ok hi).1 hf
      exact ⟨⟨ht, hp, hs⟩, own, ho, by simp only [layout, front, back, List.append_assoc]⟩
    · rintro ⟨hc, own, ho, rfl⟩
      obtain ⟨i, hi, -⟩ := Option.bind_eq_some_iff.1 ho
      exact ⟨i, hi, _, ⟨hc.prevouts, rfl⟩, _, (ownInput_eq_ok hi).2 ⟨own, ho, rfl⟩, _, ⟨hc.output, rfl⟩,
        by simp only [layout, front, back, List.append_assoc]⟩
  · rw [if_neg ht]
    exact iff_of_false nofun fun h => ht h.1.type

end Request

/-! ## The bytes of a part -/

theorem InputHashes.length_bytes (h : InputHashes) : h.bytes.length = 128 := by simp [bytes]

theorem InputHashes.bytes_inj {h h' : InputHashes} : h.bytes = h'.bytes ↔ h = h' := by
  unfold bytes
  rw [List.append_eq_append_iff_of_size_eq_left (by simp), List.append_eq_append_iff_of_size_eq_left (by simp),
    List.append_eq_append_iff_of_size_eq_left (by simp), ← Subtype.ext_iff, ← Subtype.ext_iff, ← Subtype.ext_iff,
    ← Subtype.ext_iff]
  constructor
  · intro ⟨⟨⟨outpoints, amounts⟩, scripts⟩, sequences⟩
    cases h
    cases h'
    simp_all
  · rintro rfl
    exact ⟨⟨⟨rfl, rfl⟩, rfl⟩, rfl⟩

/-- The field of the signed input is longer if it is not its place. -/
theorem Own.bytes_inj {own own' : Own} : own.bytes = own'.bytes ↔ own = own' := by
  refine ⟨fun h => ?_, fun h => by rw [h]⟩
  cases own with
  | place n =>
    cases own' with
    | place n' => rw [littleEndian_uint32_inj.1 h]
    | input outpoint spent sequence =>
      have hl := congrArg List.length h
      simp [bytes] at hl
      omega
  | input outpoint spent sequence =>
    cases own' with
    | place n =>
      have hl := congrArg List.length h
      simp [bytes] at hl
      omega
    | input outpoint' spent' sequence' =>
      unfold bytes at h
      rw [List.append_eq_append_iff_of_size_eq_right (by simp), List.append_eq_append_iff_of_size_eq_left (by simp),
        OutPoint.serialize_inj, Output.wireBytes_inj, littleEndian_uint32_inj] at h
      rw [h.1.1, h.1.2, h.2]

theorem spendByte_eq_iff {annex annex' : Option Bytes} {leaf leaf' : Option Hash256} :
    spendByte annex leaf = spendByte annex' leaf' ↔ annex.isSome = annex'.isSome ∧ leaf.isSome = leaf'.isSome := by
  cases annex <;> cases annex' <;> cases leaf <;> cases leaf' <;> simp [spendByte]

theorem length_leafBytes (leaf : Hash256) : (leafBytes leaf).length = 37 := by simp [leafBytes]

theorem leafBytes_inj {leaf leaf' : Hash256} : leafBytes leaf = leafBytes leaf' ↔ leaf = leaf' := by
  simp [leafBytes, Subtype.ext_iff]

namespace Request

variable {r r' : Request}

/-! ## Which parts there are -/

theorem isSome_inputHashes? (r : Request) : r.inputHashes?.isSome = !r.type.anyoneCanPay := by
  unfold inputHashes?
  cases r.type.anyoneCanPay <;> rfl

theorem isSome_outputsHash? (r : Request) : r.outputsHash?.isSome = decide (r.type.coverage = .all) := by
  unfold outputsHash?
  split <;> simp_all

theorem isSome_annexHash? (r : Request) : r.annexHash?.isSome = r.annex.isSome := by simp [annexHash?]

theorem Complete.isSome_outputHash? (h : Complete r) :
    r.outputHash?.isSome = decide (r.type.coverage = .single) := by
  unfold outputHash?
  split
  · rename_i hc
    simp [hc, List.getElem?_eq_getElem (h.output hc)]
  · simp_all

/-! ## Telling the parts -/

theorem length_front (r : Request) : r.front.length =
    11 + (if r.type.anyoneCanPay then 0 else 128) + (if r.type.coverage = .all then 32 else 0) := by
  unfold front
  simp only [List.length_append, List.length_cons, List.length_nil, Transaction.length_versionBytes,
    Transaction.length_locktimeBytes, length_optional InputHashes.length_bytes,
    length_optional FixedBytes.length_val, isSome_inputHashes?, isSome_outputsHash?]
  cases r.type.anyoneCanPay <;> simp <;> omega

theorem front_eq_iff (ht : r.type = r'.type) : r.front = r'.front ↔ r.tx.version = r'.tx.version ∧
    r.tx.locktime = r'.tx.locktime ∧ r.inputHashes? = r'.inputHashes? ∧ r.outputsHash? = r'.outputsHash? ∧
      r.annex.isSome = r'.annex.isSome ∧ r.leaf.isSome = r'.leaf.isSome := by
  have hi : r.inputHashes?.isSome = r'.inputHashes?.isSome := by
    rw [isSome_inputHashes?, isSome_inputHashes?, ht]
  have ho : r.outputsHash?.isSome = r'.outputsHash?.isSome := by
    rw [isSome_outputsHash?, isSome_outputsHash?, ht]
  unfold front
  rw [List.append_eq_append_iff_of_size_eq_right (by simp),
    List.append_eq_append_iff_of_size_eq_right (by simp [length_optional FixedBytes.length_val, ho]),
    List.append_eq_append_iff_of_size_eq_right (by simp [length_optional InputHashes.length_bytes, hi]),
    List.append_eq_append_iff_of_size_eq_right (by simp), List.append_eq_append_iff_of_size_eq_right (by simp), ht,
    Transaction.versionBytes_inj, Transaction.locktimeBytes_inj, optional_inj InputHashes.bytes_inj hi,
    optional_inj Subtype.ext_iff.symm ho]
  simp only [List.cons.injEq, spendByte_eq_iff, true_and, and_true, and_assoc]

theorem length_back (hc : Complete r) : r.back.length = (if r.annex.isSome then 32 else 0) +
    (if r.type.coverage = .single then 32 else 0) + (if r.leaf.isSome then 37 else 0) := by
  unfold back
  simp only [List.length_append, length_optional FixedBytes.length_val, length_optional length_leafBytes,
    isSome_annexHash?, hc.isSome_outputHash?, decide_eq_true_eq]

theorem back_eq_iff (hc : Complete r) (hc' : Complete r') (ht : r.type = r'.type)
    (ha : r.annex.isSome = r'.annex.isSome) (hl : r.leaf.isSome = r'.leaf.isSome) : r.back = r'.back ↔
      r.annexHash? = r'.annexHash? ∧ r.outputHash? = r'.outputHash? ∧ r.leaf = r'.leaf := by
  have hn : r.annexHash?.isSome = r'.annexHash?.isSome := by rw [isSome_annexHash?, isSome_annexHash?, ha]
  have ho : r.outputHash?.isSome = r'.outputHash?.isSome := by
    rw [hc.isSome_outputHash?, hc'.isSome_outputHash?, ht]
  unfold back
  rw [List.append_eq_append_iff_of_size_eq_right (by simp [length_optional length_leafBytes, hl]),
    List.append_eq_append_iff_of_size_eq_right (by simp [length_optional FixedBytes.length_val, ho]),
    optional_inj Subtype.ext_iff.symm hn, optional_inj Subtype.ext_iff.symm ho, optional_inj leafBytes_inj hl,
    and_assoc]

/-- Messages say their hash type in the second byte. -/
theorem type_eq_of_layout_eq {own own' : Own} (h : r.layout own = r'.layout own') : r.type = r'.type := by
  have second (r : Request) (own : Own) : (r.layout own)[1]? = some r.type.byte := by simp [layout, front]
  have hb : r.type.byte = r'.type.byte := Option.some.inj (by rw [← second r own, h, second r' own'])
  rw [SighashType.mk.injEq r.type.byte r'.type.byte]
  exact hb

/-- The type is told first, which parts stand in front follows from it; then the
byte for annex and leaf, and which parts stand behind follows from both. What is
between is the field of the signed input. -/
theorem layout_eq_iff (hc : Complete r) (hc' : Complete r') {own own' : Own} (ho : r.own? = some own)
    (ho' : r'.own? = some own') : r.layout own = r'.layout own' ↔ Agree r r' := by
  constructor
  · intro h
    have type := type_eq_of_layout_eq h
    rw [layout, layout, List.append_assoc, List.append_assoc] at h
    obtain ⟨hf, h⟩ := List.append_inj h (by rw [length_front, length_front, type])
    obtain ⟨version, locktime, inputs, outputs, ha, hl⟩ := (front_eq_iff type).1 hf
    obtain ⟨hown, hb⟩ := List.append_inj' h (by rw [length_back hc, length_back hc', type, ha, hl])
    obtain ⟨annex, output, leaf⟩ := (back_eq_iff hc hc' type ha hl).1 hb
    have own : r.own? = r'.own? := by rw [ho, ho', Own.bytes_inj.1 hown]
    exact { type, version, locktime, inputs, outputs, own, annex, output, leaf }
  · intro h
    have ha : r.annex.isSome = r'.annex.isSome := by rw [← isSome_annexHash?, h.annex, isSome_annexHash?]
    have hl : r.leaf.isSome = r'.leaf.isSome := by rw [h.leaf]
    have hown : own = own' := Option.some.inj (ho.symm.trans (h.own.trans ho'))
    rw [layout, layout, hown, (front_eq_iff h.type).2 ⟨h.version, h.locktime, h.inputs, h.outputs, ha, hl⟩,
      (back_eq_iff hc hc' h.type ha hl).2 ⟨h.annex, h.output, h.leaf⟩]

end Request

/-! ## What does not matter -/

theorem InputHashes.of_eq {tx tx' : Transaction} (h : tx.inputs.map covered = tx'.inputs.map covered) :
    InputHashes.of tx = .of tx' := by
  have outpoints : tx.inputs.map Input.outpoint = tx'.inputs.map Input.outpoint := by
    simpa [Function.comp_def, covered] using congrArg (List.map Prod.fst) h
  have sequences : tx.inputs.map Input.sequence = tx'.inputs.map Input.sequence := by
    simpa [Function.comp_def, covered] using congrArg (List.map fun c => c.2.2) h
  have spent : (tx.inputs.filterMap Input.prevout).map Output.wire =
      (tx'.inputs.filterMap Input.prevout).map Output.wire := by
    simpa [List.filterMap_map, List.map_filterMap, Function.comp_def, covered] using
      congrArg (List.filterMap fun c => c.2.1) h
  have amounts := congrArg (List.flatMap fun w => littleEndian 8 w.1.toUInt64.toNat) spent
  have scripts := congrArg (List.flatMap fun w => CompactSize.counted w.2) spent
  rw [List.flatMap_map, List.flatMap_map] at amounts scripts
  simp only [Output.wire] at amounts scripts
  rw [of, of, Transaction.flatMap_outpoint_eq outpoints, Transaction.flatMap_sequence_eq sequences, amounts, scripts]

namespace Request.SameCovered

variable {r r' : Request}

theorem symm (h : SameCovered r r') : SameCovered r' r where
  version := h.version.symm
  locktime := h.locktime.symm
  type := h.type.symm
  annex := h.annex.symm
  leaf := h.leaf.symm
  index ht := (h.index (h.type ▸ ht)).symm
  inputs ht := (h.inputs (h.type ▸ ht)).symm
  input ht := (h.input (h.type ▸ ht)).symm
  outputs hc := (h.outputs (h.type ▸ hc)).symm
  output hc := (h.output (h.type ▸ hc)).symm

/-- The signed inputs are the same, as far as they can be covered. -/
theorem input_eq (h : SameCovered r r') :
    r.tx.inputs[r.index]?.map covered = r'.tx.inputs[r'.index]?.map covered := by
  cases ht : r.type.anyoneCanPay with
  | true => exact h.input ht
  | false => rw [← List.getElem?_map, h.inputs ht, h.index ht, List.getElem?_map]

theorem own_eq (h : SameCovered r r') : r.own? = r'.own? := by
  have through (r : Request) : r.own? = (r.tx.inputs[r.index]?.map covered).bind fun c =>
      if r.type.anyoneCanPay then c.2.1.map fun w => .input c.1 w c.2.2 else some (.place (.ofNat r.index)) := by
    unfold own?
    cases r.tx.inputs[r.index]? with
    | none => rfl
    | some i => simp [covered, Function.comp_def]
  rw [through r, through r', h.input_eq, ← h.type]
  cases ht : r.type.anyoneCanPay with
  | true => rfl
  | false => rw [h.index ht]

theorem inputHashes_eq (h : SameCovered r r') : r.inputHashes? = r'.inputHashes? := by
  unfold inputHashes?
  rw [← h.type]
  split
  · rfl
  · rename_i ht
    rw [InputHashes.of_eq (h.inputs (Bool.eq_false_iff.2 ht))]

theorem outputsHash_eq (h : SameCovered r r') : r.outputsHash? = r'.outputsHash? := by
  unfold outputsHash?
  rw [← h.type]
  split
  · rename_i hc
    rw [Output.flatMap_serialize_eq, h.outputs hc, ← Output.flatMap_serialize_eq]
  · rfl

theorem outputHash_eq (h : SameCovered r r') : r.outputHash? = r'.outputHash? := by
  have through (o : Option Output) : (o.map fun o => sha256 o.serialize) =
      (o.map Output.wire).map fun w => sha256 (Output.wireBytes w) := by
    cases o <;> rfl
  unfold outputHash?
  rw [← h.type]
  split
  · rename_i hc
    rw [through, through, h.output hc]
  · rfl

/-- Requests agree on every part if they differ in nothing that the type covers. -/
theorem agree (h : SameCovered r r') : Agree r r' where
  type := h.type
  version := h.version
  locktime := h.locktime
  inputs := h.inputHashes_eq
  outputs := h.outputsHash_eq
  own := h.own_eq
  annex := by rw [annexHash?, annexHash?, h.annex]
  output := h.outputHash_eq
  leaf := h.leaf

/-- What is not covered need not be there either. -/
theorem complete (h : SameCovered r r') (hc : Complete r) : Complete r' where
  type := h.type ▸ hc.type
  prevouts ht i hi := by
    rw [← h.type] at ht
    obtain ⟨j, hj, he⟩ := List.mem_map.1 (h.inputs ht ▸ List.mem_map_of_mem hi : covered i ∈ r.tx.inputs.map covered)
    have hs : (j.prevout.map Output.wire).isSome = (i.prevout.map Output.wire).isSome := congrArg (fun c => c.2.1.isSome) he
    rw [Option.isSome_map, Option.isSome_map] at hs
    rw [← hs]
    exact hc.prevouts ht j hj
  output hs := by
    rw [← h.type] at hs
    have ho := h.output hs
    rw [List.getElem?_eq_getElem (hc.output hs), Option.map_some] at ho
    obtain ⟨o', ho', -⟩ := Option.map_eq_some_iff.1 ho.symm
    exact (List.getElem?_eq_some_iff.1 ho').1

theorem message_eq_ok (h : SameCovered r r') {b : Bytes} (hb : r.message = .ok b) : r'.message = .ok b := by
  obtain ⟨hc, own, ho, rfl⟩ := Request.message_eq_ok.1 hb
  have ho' : r'.own? = some own := h.own_eq ▸ ho
  exact Request.message_eq_ok.2 ⟨h.complete hc, own, ho', ((layout_eq_iff hc (h.complete hc) ho ho').2 h.agree).symm⟩

theorem toOption_digest_eq (h : SameCovered r r') : r.digest.toOption = r'.digest.toOption := by
  have hm : r.message.toOption = r'.message.toOption := by
    ext b
    rw [toOption_eq_some_iff, toOption_eq_some_iff]
    exact ⟨h.message_eq_ok, h.symm.message_eq_ok⟩
  show (taggedHash "TapSighash" <$> r.message).toOption = (taggedHash "TapSighash" <$> r'.message).toOption
  rw [toOption_map, toOption_map, hm]

end Request.SameCovered

open Request

theorem Request.own?_of_fixed {r : Request} (ht : r.type.anyoneCanPay = false) {own : Own} (ho : r.own? = some own) :
    r.index < r.tx.inputs.length ∧ own = .place (.ofNat r.index) := by
  obtain ⟨i, hi, ho⟩ := Option.bind_eq_some_iff.1 ho
  rw [ht] at ho
  exact ⟨(List.getElem?_eq_some_iff.1 hi).1, (Option.some.inj ho).symm⟩

/-- The place of the signed input is said as a number of 32 bits. It tells the
input among no more than there are such numbers. -/
theorem Request.Agree.index_eq {r r' : Request} (h : Agree r r') {own : Own} (ho : r.own? = some own)
    (ht : r.type.anyoneCanPay = false) (hn : r.tx.inputs.length ≤ UInt32.size)
    (hn' : r'.tx.inputs.length ≤ UInt32.size) : r.index = r'.index := by
  obtain ⟨hi, rfl⟩ := own?_of_fixed ht ho
  obtain ⟨hi', hp⟩ := own?_of_fixed (h.type ▸ ht) (h.own ▸ ho)
  have hv := congrArg UInt32.toNat (Own.place.inj hp)
  rwa [UInt32.toNat_ofNat_of_lt' (Nat.lt_of_lt_of_le hi hn),
    UInt32.toNat_ofNat_of_lt' (Nat.lt_of_lt_of_le hi' hn')] at hv

/-- Messages are equal exactly if the requests agree on every part; the place of
an input is a part up to 32 bits. Of the transaction the message says nothing
that the hash type does not cover, so the digest is the same for requests that
differ in nothing else. -/
theorem message_commits :
    (∀ (r r' : Request) (b b' : Bytes), r.message = .ok b → r'.message = .ok b' → (b = b' ↔ Agree r r')) ∧
    (∀ (r r' : Request) (b : Bytes), r.message = .ok b → r'.message = .ok b → r.type.anyoneCanPay = false →
      r.tx.inputs.length ≤ UInt32.size → r'.tx.inputs.length ≤ UInt32.size → r.index = r'.index) ∧
    ∀ r r' : Request, SameCovered r r' → r.digest.toOption = r'.digest.toOption := by
  have agree (r r' : Request) (b b' : Bytes) (h : r.message = .ok b) (h' : r'.message = .ok b') :
      b = b' ↔ Agree r r' := by
    obtain ⟨hc, own, ho, rfl⟩ := message_eq_ok.1 h
    obtain ⟨hc', own', ho', rfl⟩ := message_eq_ok.1 h'
    exact layout_eq_iff hc hc' ho ho'
  refine ⟨agree, fun r r' b h h' ht hn hn' => ?_, fun r r' h => h.toOption_digest_eq⟩
  obtain ⟨-, own, ho, -⟩ := message_eq_ok.1 h
  exact ((agree r r' b b h h').1 rfl).index_eq ho ht hn hn'

/-- Spends an output and makes one. -/
def signedSpend : Transaction where
  version := 2
  locktime := 0
  inputs := [.make ⟨FixedBytes.zero 32, 1⟩ (some (.ofScript 50000 [0x51])) [] [[0x51]] 5]
  outputs := [.ofScript 40000 [0x51]]

/-- The same without its witness, behind an input with an unknown prevout and
another output. -/
def draftSpend : Transaction where
  version := 2
  locktime := 0
  inputs := [.make ⟨FixedBytes.zero 32, 2⟩ none [0x51] [] 7,
    .make ⟨FixedBytes.zero 32, 1⟩ (some { Output.ofScript 50000 [0x51] with type := .p2tr, address := none }) [] [] 5]
  outputs := [.ofScript (-1) [], { Output.ofScript 40000 [0x51] with asm := "" }]

theorem message_commits_draftSpend :
    (∃ b, Request.message ⟨signedSpend, 0, ⟨0x83⟩, some [0x50], some (.zero 32)⟩ = .ok b ∧
      Request.message ⟨draftSpend, 1, ⟨0x83⟩, some [0x50], some (.zero 32)⟩ = .ok b) ∧
    (Request.digest ⟨signedSpend, 0, ⟨0x83⟩, some [0x50], some (.zero 32)⟩).toOption =
      (Request.digest ⟨draftSpend, 1, ⟨0x83⟩, some [0x50], some (.zero 32)⟩).toOption := by
  have same : SameCovered ⟨signedSpend, 0, ⟨0x83⟩, some [0x50], some (.zero 32)⟩
      ⟨draftSpend, 1, ⟨0x83⟩, some [0x50], some (.zero 32)⟩ :=
    { version := rfl, locktime := rfl, type := rfl, annex := rfl, leaf := rfl, index := nofun, inputs := nofun,
      input := fun _ => rfl, outputs := nofun, output := fun _ => rfl }
  have complete : Complete ⟨signedSpend, 0, ⟨0x83⟩, some [0x50], some (.zero 32)⟩ :=
    { type := rfl, prevouts := nofun, output := fun _ => by decide }
  obtain ⟨equal, -, unchanged⟩ := message_commits
  have hb := (equal _ _ _ _ (message_eq_ok.2 ⟨complete, _, rfl, rfl⟩)
    (message_eq_ok.2 ⟨same.complete complete, _, rfl, rfl⟩)).2 same.agree
  exact ⟨⟨_, message_eq_ok.2 ⟨complete, _, rfl, hb⟩, message_eq_ok.2 ⟨same.complete complete, _, rfl, rfl⟩⟩,
    unchanged _ _ same⟩

end Bitcoin.Sighash.Taproot

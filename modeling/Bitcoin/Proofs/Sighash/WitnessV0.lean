import Bitcoin.Proofs.Wire.Fields
import Bitcoin.Sighash

/-!
# What digests of version 0 witnesses commit to

The signed message has one part of any length, the script code, and that can be
told from the length of the whole. So two requests for a digest have the same
message exactly if they agree on each part (`layout_eq_iff`). The hashes among
the parts leave out what the hash type does not cover (`Aggregates`), so
requests that differ in nothing else (`SameCovered`) have the same digest.
-/

namespace Bitcoin.Sighash

open Bytes

theorem littleEndian_byte_inj {t t' : SighashType} :
    littleEndian 4 t.byte.toNat = littleEndian 4 t'.byte.toNat ↔ t = t' := by
  rw [littleEndian_uint8_inj (by decide), SighashType.mk.injEq t.byte t'.byte]

namespace WitnessV0

/-- What a digest is asked for: the signed input, the script code, the amount and
the hash type. -/
structure Request where
  tx : Transaction
  index : Nat
  code : Bytes
  amount : Amount
  type : SighashType

namespace Request

/-- The message for a request. -/
def preimage (r : Request) : Except Error Bytes := WitnessV0.preimage r.tx r.index r.code r.amount r.type

/-- The digest for a request. -/
def digest (r : Request) : Except Error Hash256 := WitnessV0.digest r.tx r.index r.code r.amount r.type

/-- What the message says of the signed input, if there is one. -/
def own? (r : Request) : Option (OutPoint × UInt32) := r.tx.inputs[r.index]?.map fun i => (i.outpoint, i.sequence)

/-- Two requests agree on every part of the message. -/
structure Agree (r r' : Request) : Prop where
  version : r.tx.version = r'.tx.version
  prevouts : hashPrevouts r.tx r.type = hashPrevouts r'.tx r'.type
  sequences : hashSequences r.tx r.type = hashSequences r'.tx r'.type
  own : r.own? = r'.own?
  code : r.code = r'.code
  amount : r.amount = r'.amount
  outputs : hashOutputs r.tx r.index r.type = hashOutputs r'.tx r'.index r'.type
  locktime : r.tx.locktime = r'.tx.locktime
  type : r.type = r'.type

/-- Two requests differ in nothing that the hash type covers. -/
structure SameCovered (r r' : Request) : Prop where
  version : r.tx.version = r'.tx.version
  locktime : r.tx.locktime = r'.tx.locktime
  type : r.type = r'.type
  code : r.code = r'.code
  amount : r.amount = r'.amount
  own : r.own? = r'.own?
  outpoints : r.type.anyoneCanPay = false → r.tx.inputs.map Input.outpoint = r'.tx.inputs.map Input.outpoint
  sequences : r.type.anyoneCanPay = false → r.type.coverage = .all →
    r.tx.inputs.map Input.sequence = r'.tx.inputs.map Input.sequence
  outputs : r.type.coverage = .all → r.tx.outputs.map Output.wire = r'.tx.outputs.map Output.wire
  output : r.type.coverage = .single →
    r.tx.outputs[r.index]?.map Output.wire = r'.tx.outputs[r'.index]?.map Output.wire

variable {r r' : Request}

/-! ## The message -/

/-- The message, given what it says of the signed input. -/
def layout (r : Request) (own : OutPoint × UInt32) : Bytes :=
  r.tx.versionBytes ++ (hashPrevouts r.tx r.type).val ++ (hashSequences r.tx r.type).val ++ own.1.serialize ++
    r.code ++ littleEndian 8 r.amount.toUInt64.toNat ++ littleEndian 4 own.2.toNat ++
    (hashOutputs r.tx r.index r.type).val ++ r.tx.locktimeBytes ++ littleEndian 4 r.type.byte.toNat

/-- There is a message exactly if there is the input. -/
theorem toOption_preimage (r : Request) : r.preimage.toOption = r.own?.map r.layout := by
  unfold preimage WitnessV0.preimage Transaction.input own?
  cases r.tx.inputs[r.index]? <;> rfl

theorem preimage_eq_ok {b : Bytes} : r.preimage = .ok b ↔ ∃ own, r.own? = some own ∧ r.layout own = b := by
  rw [← Option.map_eq_some_iff, ← toOption_preimage, toOption_eq_some_iff]

theorem toOption_digest (r : Request) : r.digest.toOption = r.preimage.toOption.map doubleSha256 :=
  toOption_map doubleSha256 r.preimage

/-- The parts behind the script code and before it have the same lengths in all
messages, so it has too in messages that are equal. -/
theorem layout_eq_iff {own own' : OutPoint × UInt32} (ho : r.own? = some own) (ho' : r'.own? = some own') :
    r.layout own = r'.layout own' ↔ Agree r r' := by
  unfold layout
  -- from the last part to the script code, then from the last part before it to the first
  rw [List.append_eq_append_iff_of_size_eq_right (by simp), List.append_eq_append_iff_of_size_eq_right (by simp),
    List.append_eq_append_iff_of_size_eq_right (by simp), List.append_eq_append_iff_of_size_eq_right (by simp),
    List.append_eq_append_iff_of_size_eq_right (by simp), List.append_eq_append_iff_of_size_eq_left (by simp),
    List.append_eq_append_iff_of_size_eq_right (by simp), List.append_eq_append_iff_of_size_eq_right (by simp),
    List.append_eq_append_iff_of_size_eq_right (by simp), Transaction.versionBytes_inj, ← Subtype.ext_iff,
    ← Subtype.ext_iff, OutPoint.serialize_inj, littleEndian_int64_inj, littleEndian_uint32_inj, ← Subtype.ext_iff,
    Transaction.locktimeBytes_inj, littleEndian_byte_inj]
  constructor
  · intro ⟨⟨⟨⟨⟨⟨⟨⟨⟨version, prevouts⟩, sequences⟩, outpoint⟩, code⟩, amount⟩, sequence⟩, outputs⟩, locktime⟩, type⟩
    have own : r.own? = r'.own? := by rw [ho, ho', Prod.ext outpoint sequence]
    exact { version, prevouts, sequences, own, code, amount, outputs, locktime, type }
  · intro h
    have hown : own = own' := Option.some.inj (ho.symm.trans (h.own.trans ho'))
    exact ⟨⟨⟨⟨⟨⟨⟨⟨⟨h.version, h.prevouts⟩, h.sequences⟩, by rw [hown]⟩, h.code⟩, h.amount⟩, by rw [hown]⟩,
      h.outputs⟩, h.locktime⟩, h.type⟩

theorem Agree.toOption_preimage_eq (h : Agree r r') : r.preimage.toOption = r'.preimage.toOption := by
  rw [toOption_preimage, toOption_preimage]
  cases ho : r.own? with
  | none => rw [← h.own, ho, Option.map_none, Option.map_none]
  | some own =>
    have ho' := h.own.symm.trans ho
    rw [ho', Option.map_some, Option.map_some, (layout_eq_iff ho ho').2 h]

end Request

/-! ## The hashes over parts of the transaction -/

/-- What the hashes are over: the parts that the hash type covers. Those that it
does not have zeros for their hash. -/
structure Aggregates (tx : Transaction) (index : Nat) (t : SighashType) : Prop where
  prevouts : t.anyoneCanPay = false →
    hashPrevouts tx t = doubleSha256 (tx.inputs.flatMap fun i => i.outpoint.serialize)
  noPrevouts : t.anyoneCanPay = true → hashPrevouts tx t = .zero 32
  sequences : t.anyoneCanPay = false → t.coverage = .all →
    hashSequences tx t = doubleSha256 (tx.inputs.flatMap fun i => littleEndian 4 i.sequence.toNat)
  noSequences : t.anyoneCanPay = true ∨ t.coverage ≠ .all → hashSequences tx t = .zero 32
  outputs : t.coverage = .all → hashOutputs tx index t = doubleSha256 (tx.outputs.flatMap Output.serialize)
  output : t.coverage = .single → ∀ o, tx.outputs[index]? = some o →
    hashOutputs tx index t = doubleSha256 o.serialize
  noOutputs : t.coverage = .none ∨ t.coverage = .single ∧ tx.outputs.length ≤ index →
    hashOutputs tx index t = .zero 32

theorem aggregates (tx : Transaction) (index : Nat) (t : SighashType) : Aggregates tx index t where
  prevouts h := if_neg (by simp [h])
  noPrevouts h := if_pos h
  sequences h hc := if_neg (by simp [h, hc])
  noSequences h := if_pos h
  outputs h := by simp only [hashOutputs, h]
  output h o ho := by simp only [hashOutputs, h, ho]
  noOutputs h := by
    obtain h | ⟨h, ho⟩ := h
    · simp only [hashOutputs, h]
    · simp only [hashOutputs, h, List.getElem?_eq_none ho]

namespace Request

variable {r r' : Request}

theorem SameCovered.hashPrevouts_eq (h : SameCovered r r') : hashPrevouts r.tx r.type = hashPrevouts r'.tx r'.type := by
  rw [← h.type]
  cases ht : r.type.anyoneCanPay with
  | true => rw [(aggregates r.tx r.index r.type).noPrevouts ht, (aggregates r'.tx r'.index r.type).noPrevouts ht]
  | false =>
    rw [(aggregates r.tx r.index r.type).prevouts ht, (aggregates r'.tx r'.index r.type).prevouts ht,
      Transaction.flatMap_outpoint_eq (h.outpoints ht)]

theorem SameCovered.hashSequences_eq (h : SameCovered r r') :
    hashSequences r.tx r.type = hashSequences r'.tx r'.type := by
  rw [← h.type]
  by_cases ht : r.type.anyoneCanPay = true ∨ r.type.coverage ≠ .all
  · rw [(aggregates r.tx r.index r.type).noSequences ht, (aggregates r'.tx r'.index r.type).noSequences ht]
  · simp only [ne_eq, not_or, Bool.not_eq_true, Decidable.not_not] at ht
    rw [(aggregates r.tx r.index r.type).sequences ht.1 ht.2, (aggregates r'.tx r'.index r.type).sequences ht.1 ht.2,
      Transaction.flatMap_sequence_eq (h.sequences ht.1 ht.2)]

theorem SameCovered.hashOutputs_eq (h : SameCovered r r') :
    hashOutputs r.tx r.index r.type = hashOutputs r'.tx r'.index r'.type := by
  rw [← h.type]
  have table := aggregates r.tx r.index r.type
  have table' := aggregates r'.tx r'.index r.type
  cases hc : r.type.coverage with
  | all =>
    rw [table.outputs hc, table'.outputs hc, Output.flatMap_serialize_eq, h.outputs hc,
      ← Output.flatMap_serialize_eq]
  | none => rw [table.noOutputs (.inl hc), table'.noOutputs (.inl hc)]
  | single =>
    have ho := h.output hc
    cases hs : r.tx.outputs[r.index]? with
    | none =>
      rw [hs, Option.map_none, eq_comm, Option.map_eq_none_iff] at ho
      rw [table.noOutputs (.inr ⟨hc, List.getElem?_eq_none_iff.1 hs⟩),
        table'.noOutputs (.inr ⟨hc, List.getElem?_eq_none_iff.1 ho⟩)]
    | some o =>
      rw [hs, Option.map_some, eq_comm, Option.map_eq_some_iff] at ho
      obtain ⟨o', ho', hw⟩ := ho
      rw [table.output hc o hs, table'.output hc o' ho', ← o.wireBytes_wire, ← hw, o'.wireBytes_wire]

/-- Requests agree on every part if they differ in nothing that the type covers. -/
theorem SameCovered.agree (h : SameCovered r r') : Agree r r' where
  version := h.version
  prevouts := h.hashPrevouts_eq
  sequences := h.hashSequences_eq
  own := h.own
  code := h.code
  amount := h.amount
  outputs := h.hashOutputs_eq
  locktime := h.locktime
  type := h.type

end Request

open Request

/-- Messages are equal exactly if the requests agree on every part. Of the
transaction the message says, besides version, lock time and the signed input,
the hashes over what the type covers, so the digest is the same for requests
that differ in nothing else. -/
theorem preimage_commits :
    (∀ (r r' : Request) (b b' : Bytes), r.preimage = .ok b → r'.preimage = .ok b' → (b = b' ↔ Agree r r')) ∧
    (∀ tx index t, Aggregates tx index t) ∧
    ∀ r r' : Request, SameCovered r r' → r.digest.toOption = r'.digest.toOption := by
  refine ⟨fun r r' b b' h h' => ?_, aggregates, fun r r' h => ?_⟩
  · obtain ⟨own, ho, rfl⟩ := preimage_eq_ok.1 h
    obtain ⟨own', ho', rfl⟩ := preimage_eq_ok.1 h'
    exact layout_eq_iff ho ho'
  · rw [toOption_digest, toOption_digest, h.agree.toOption_preimage_eq]

/-- Spends an output and makes one. -/
def pairedSpend : Transaction where
  version := 2
  locktime := 0
  inputs := [.make ⟨FixedBytes.zero 32, 1⟩ (some (.ofScript 50000 [0x51])) [] [[0x51]] 5]
  outputs := [.ofScript 40000 [0x51]]

/-- The same with an input and an output in front, not signed yet and without
its prevouts. -/
def extendedSpend : Transaction where
  version := 2
  locktime := 0
  inputs := [.make ⟨FixedBytes.zero 32, 2⟩ none [0x51] [] 7, .make ⟨FixedBytes.zero 32, 1⟩ none [] [] 5]
  outputs := [.ofScript (-1) [], { Output.ofScript 40000 [0x51] with asm := "", type := .p2pkh }]

theorem preimage_commits_extendedSpend :
    (∃ b, Request.preimage ⟨pairedSpend, 0, [0x00], 50000, ⟨0x83⟩⟩ = .ok b ∧
      Request.preimage ⟨extendedSpend, 1, [0x00], 50000, ⟨0x83⟩⟩ = .ok b) ∧
    (Request.digest ⟨pairedSpend, 0, [0x00], 50000, ⟨0x83⟩⟩).toOption =
      (Request.digest ⟨extendedSpend, 1, [0x00], 50000, ⟨0x83⟩⟩).toOption := by
  have same : SameCovered ⟨pairedSpend, 0, [0x00], 50000, ⟨0x83⟩⟩ ⟨extendedSpend, 1, [0x00], 50000, ⟨0x83⟩⟩ :=
    { version := rfl, locktime := rfl, type := rfl, code := rfl, amount := rfl, own := rfl, outpoints := nofun,
      sequences := nofun, outputs := nofun, output := fun _ => rfl }
  obtain ⟨equal, -, unchanged⟩ := preimage_commits
  have hb := (equal _ _ _ _ (preimage_eq_ok.2 ⟨_, rfl, rfl⟩) (preimage_eq_ok.2 ⟨_, rfl, rfl⟩)).2 same.agree
  exact ⟨⟨_, preimage_eq_ok.2 ⟨_, rfl, hb⟩, preimage_eq_ok.2 ⟨_, rfl, rfl⟩⟩, unchanged _ _ same⟩

end WitnessV0

end Bitcoin.Sighash

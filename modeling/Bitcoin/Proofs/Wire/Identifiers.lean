import Mathlib.Algebra.GroupWithZero.Nat
import Bitcoin.Proofs.Wire.Shortest

/-!
# What identifiers and weights depend on

Identifiers are hashes of wire forms, and the weight is made of their lengths.
A wire form is read in one way only (`Takes.unique`), and what is read from it
is the transaction as its wire fields make it (`bare`): without prevouts,
scripts described by what they are. So transactions have the same form without
witnesses exactly if they agree in the fields it writes (`SameFields`), and the
same form with witnesses exactly if their witnesses are equal too. All else that
is said of inputs and outputs has no part in identifiers and weights.

The form with witnesses is the form without them and, where some input has a
witness, a marker, a flag and the witnesses of all inputs
(`length_serializeSegwit`). So it is never the shorter one, and the weight counts
the bytes of both, those of the form without witnesses three times
(`weight_counts_witnesses_once`). The four parts that every form has keep the
weight from being zero (`forty_le_weight`).
-/

namespace Bitcoin

open Read

namespace Input

/-- What the wire form without witnesses says of an input. -/
def wire (i : Input) : OutPoint × Bytes × UInt32 := (i.outpoint, i.scriptSig, i.sequence)

/-- The input as its wire fields make it. -/
def bare (i : Input) : Input := .make i.outpoint none i.scriptSig i.witness i.sequence

end Input

namespace Output

/-- The output as its wire fields make it. -/
def bare (o : Output) : Output := .ofScript o.value o.script

end Output

namespace Transaction

variable {t u tx : Transaction}

/-- The fields that both wire forms write agree. -/
structure SameFields (t u : Transaction) : Prop where
  version : t.version = u.version
  locktime : t.locktime = u.locktime
  inputs : t.inputs.map Input.wire = u.inputs.map Input.wire
  outputs : t.outputs.map Output.wire = u.outputs.map Output.wire

theorem SameFields.symm (h : SameFields t u) : SameFields u t :=
  ⟨h.version.symm, h.locktime.symm, h.inputs.symm, h.outputs.symm⟩

theorem SameFields.trans (h : SameFields t u) (h' : SameFields u tx) : SameFields t tx :=
  ⟨h.version.trans h'.version, h.locktime.trans h'.locktime, h.inputs.trans h'.inputs, h.outputs.trans h'.outputs⟩

/-- Each input has the same witness. -/
def SameWitnesses (t u : Transaction) : Prop := t.inputs.map Input.witness = u.inputs.map Input.witness

/-! ## The same fields make the same forms -/

theorem inputsBytes_eq_wire (tx : Transaction) : tx.inputsBytes =
    CompactSize.encode (tx.inputs.map Input.wire).length ++ (tx.inputs.map Input.wire).flatMap fun w =>
      w.1.serialize ++ CompactSize.counted w.2.1 ++ Bytes.littleEndian 4 w.2.2.toNat := by
  rw [List.length_map, List.flatMap_map]
  rfl

theorem outputsBytes_eq_wire (tx : Transaction) : tx.outputsBytes =
    CompactSize.encode (tx.outputs.map Output.wire).length ++ (tx.outputs.map Output.wire).flatMap Output.wireBytes := by
  rw [List.length_map, ← Output.flatMap_serialize_eq]
  rfl

theorem isSegwit_eq_any_witness (tx : Transaction) : tx.isSegwit = (tx.inputs.map Input.witness).any (!·.isEmpty) := by
  rw [List.any_map]
  rfl

theorem flatMap_witness_eq (tx : Transaction) : tx.inputs.flatMap Input.serializeWitness =
    (tx.inputs.map Input.witness).flatMap fun items =>
      CompactSize.encode items.length ++ items.flatMap CompactSize.counted := by
  rw [List.flatMap_map]
  rfl

theorem SameFields.serializeLegacy_eq (h : SameFields t u) : t.serializeLegacy = u.serializeLegacy := by
  rw [serializeLegacy, serializeLegacy, versionBytes_inj.2 h.version, locktimeBytes_inj.2 h.locktime,
    inputsBytes_eq_wire, inputsBytes_eq_wire, h.inputs, outputsBytes_eq_wire, outputsBytes_eq_wire, h.outputs]

theorem SameFields.serialize_eq (h : SameFields t u) (hw : SameWitnesses t u) : t.serialize = u.serialize := by
  rw [serialize, serialize, isSegwit_eq_any_witness, isSegwit_eq_any_witness, hw, h.serializeLegacy_eq]
  rw [serializeSegwit, serializeSegwit, versionBytes_inj.2 h.version, locktimeBytes_inj.2 h.locktime,
    inputsBytes_eq_wire, inputsBytes_eq_wire, h.inputs, outputsBytes_eq_wire, outputsBytes_eq_wire, h.outputs,
    flatMap_witness_eq, flatMap_witness_eq, hw]

/-! ## The same forms come of the same fields -/

/-- The transaction as its wire fields make it. -/
def bare (tx : Transaction) : Transaction :=
  { tx with inputs := tx.inputs.map Input.bare, outputs := tx.outputs.map Output.bare }

theorem sameFields_bare (tx : Transaction) : SameFields tx.bare tx where
  version := rfl
  locktime := rfl
  inputs := List.map_map
  outputs := List.map_map

theorem sameWitnesses_bare (tx : Transaction) : SameWitnesses tx.bare tx := List.map_map

theorem plain_bare (tx : Transaction) : tx.bare.Plain where
  inputs := List.forall_mem_map.2 fun _ _ => ⟨_, _, _, _, rfl⟩
  outputs := List.forall_mem_map.2 fun _ _ => ⟨_, _, rfl⟩

theorem Sized.bare (h : tx.Sized) : tx.bare.Sized where
  inputs := by simpa [Transaction.bare] using h.inputs
  outputs := by simpa [Transaction.bare] using h.outputs
  scriptSigs := List.forall_mem_map.2 h.scriptSigs
  witnesses := List.forall_mem_map.2 h.witnesses
  items := List.forall_mem_map.2 h.items
  scripts := List.forall_mem_map.2 h.scripts

theorem sameFields_withoutWitnesses (tx : Transaction) : SameFields tx.withoutWitnesses tx where
  version := rfl
  locktime := rfl
  inputs := List.map_map
  outputs := rfl

/-- A form without witnesses, read as such: the first byte behind the version may
be zero then. -/
theorem takes_unmarkedForm (hp : tx.Plain) (hs : tx.Sized) :
    Takes (int32 >>= fun version => readBehind version false) tx.serializeLegacy tx.withoutWitnesses := by
  unfold serializeLegacy
  simp only [List.append_assoc]
  exact (takes_int32 _).bind ((takes_inputs hp hs).bind ((takes_outputs hp hs).bind
    ((takes_uint32 _).bind_pure fun locktime => Transaction.mk _ locktime _ _)))

/-- Where there is an input, the two forms are told apart. -/
theorem takes_serialize (hn : tx.inputs ≠ []) (hp : tx.Plain) (hs : tx.Sized) : Takes readFront tx.serialize tx := by
  unfold serialize
  split
  · exact takes_serializeSegwit hp hs
  · rename_i hw
    have ht := takes_serializeLegacy hn hp hs
    rwa [withoutWitnesses_eq_self (Bool.eq_false_iff.2 hw)] at ht

theorem sameFields_of_serializeLegacy_eq (ht : t.Sized) (hu : u.Sized) (h : t.serializeLegacy = u.serializeLegacy) :
    SameFields t u := by
  have hb : t.bare.serializeLegacy ++ [] = u.bare.serializeLegacy ++ [] := by
    rw [(sameFields_bare t).serializeLegacy_eq, h, (sameFields_bare u).serializeLegacy_eq]
  have he : t.bare.withoutWitnesses = u.bare.withoutWitnesses :=
    ((takes_unmarkedForm (plain_bare t) ht.bare).unique (takes_unmarkedForm (plain_bare u) hu.bare) hb).1
  have hl := (sameFields_withoutWitnesses t.bare).trans (sameFields_bare t)
  have hr := (sameFields_withoutWitnesses u.bare).trans (sameFields_bare u)
  rw [he] at hl
  exact hl.symm.trans hr

theorem bare_eq_of_serialize_eq (hn : t.inputs ≠ []) (hm : u.inputs ≠ []) (ht : t.Sized) (hu : u.Sized)
    (h : t.serialize = u.serialize) : t.bare = u.bare := by
  have hb : t.bare.serialize ++ [] = u.bare.serialize ++ [] := by
    rw [(sameFields_bare t).serialize_eq (sameWitnesses_bare t), h,
      (sameFields_bare u).serialize_eq (sameWitnesses_bare u)]
  exact ((takes_serialize (mt List.map_eq_nil_iff.1 hn) (plain_bare t) ht.bare).unique
    (takes_serialize (mt List.map_eq_nil_iff.1 hm) (plain_bare u) hu.bare) hb).1

/-- The form without witnesses tells the fields that it writes and nothing else,
the other form the witnesses too if there are inputs. So the witnesses have no
part in the identifier, and nothing but those fields and the witnesses has a
part in the other identifier and in the weight. -/
theorem serialize_eq_iff_sameFields (ht : t.Sized) (hu : u.Sized) :
    (t.serializeLegacy = u.serializeLegacy ↔ SameFields t u) ∧
    (t.inputs ≠ [] → u.inputs ≠ [] → (t.serialize = u.serialize ↔ SameFields t u ∧ SameWitnesses t u)) ∧
    (SameFields t u → t.txid = u.txid) ∧
    (SameFields t u → SameWitnesses t u → t.wtxid = u.wtxid ∧ t.weight = u.weight) := by
  refine ⟨⟨sameFields_of_serializeLegacy_eq ht hu, fun h => h.serializeLegacy_eq⟩, fun hn hm => ⟨fun h => ?_, ?_⟩,
    fun h => ?_, fun h hw => ⟨?_, ?_⟩⟩
  · have hb := bare_eq_of_serialize_eq hn hm ht hu h
    have hl := sameFields_bare t
    have hw := sameWitnesses_bare t
    rw [hb] at hl hw
    exact ⟨hl.symm.trans (sameFields_bare u), hw.symm.trans (sameWitnesses_bare u)⟩
  · intro ⟨h, hw⟩
    exact h.serialize_eq hw
  · rw [txid, txid, h.serializeLegacy_eq]
  · rw [wtxid, wtxid, h.serialize_eq hw]
  · rw [weight, weight, h.serialize_eq hw, h.serializeLegacy_eq]

/-- A spend of the same wire fields and witnesses, of which all else is said otherwise. -/
def describedSpend : Transaction where
  version := -1
  locktime := 7
  inputs := mixedSpend.inputs.map fun i =>
    { i with prevout := some (.ofScript 90000 [0x51]), asm := "described", isCoinbase := true }
  outputs := mixedSpend.outputs.map fun o =>
    { o with asm := "described", type := .p2tr, address := some "described" }

theorem serialize_eq_iff_sameFields_mixedSpend :
    (mixedSpend.Sized ∧ mixedSpend.withoutWitnesses.Sized ∧ describedSpend.Sized) ∧
    (mixedSpend.txid = describedSpend.txid ∧ mixedSpend.wtxid = describedSpend.wtxid ∧
      mixedSpend.weight = describedSpend.weight) ∧
    mixedSpend.txid = mixedSpend.withoutWitnesses.txid ∧
    mixedSpend.serializeLegacy = mixedSpend.withoutWitnesses.serializeLegacy ∧
    mixedSpend.serialize ≠ mixedSpend.withoutWitnesses.serialize := by
  have mixed : mixedSpend.Sized := by constructor <;> decide
  have emptied : mixedSpend.withoutWitnesses.Sized := by constructor <;> decide
  have described : describedSpend.Sized := by constructor <;> decide
  have same : SameFields mixedSpend describedSpend := ⟨rfl, rfl, rfl, rfl⟩
  obtain ⟨-, -, hid, hwid⟩ := serialize_eq_iff_sameFields mixed described
  obtain ⟨hl, hs, hid', -⟩ := serialize_eq_iff_sameFields mixed emptied
  have less : SameFields mixedSpend mixedSpend.withoutWitnesses := (sameFields_withoutWitnesses _).symm
  refine ⟨⟨mixed, emptied, described⟩, ⟨hid same, hwid same rfl⟩, hid' less, hl.2 less, fun h => ?_⟩
  have hw : mixedSpend.inputs.map Input.witness = mixedSpend.withoutWitnesses.inputs.map Input.witness :=
    ((hs (List.cons_ne_nil _ _) (List.cons_ne_nil _ _)).1 h).2
  exact absurd hw (by decide)

end Transaction

/-! ## The weight -/

/-- How many bytes the shortest compact size of a number takes. -/
def CompactSize.width (n : Nat) : Nat :=
  if n < 0xfd then 1 else if n ≤ 0xffff then 3 else if n ≤ 0xffffffff then 5 else 9

theorem CompactSize.length_counted (b : Bytes) : (counted b).length = width b.length + b.length := by
  rw [counted, List.length_append, length_encode, width]

namespace Input

/-- How many bytes the witness of an input takes: its number of items, and each
item behind its length. -/
def witnessSize (i : Input) : Nat :=
  CompactSize.width i.witness.length +
    (i.witness.map fun item => CompactSize.width item.length + item.length).sum

theorem length_serializeWitness (i : Input) : i.serializeWitness.length = i.witnessSize := by
  rw [serializeWitness, List.length_append, CompactSize.length_encode, List.length_flatMap]
  simp only [CompactSize.length_counted]
  rfl

end Input

namespace Transaction

variable {tx : Transaction}

theorem isSegwit_iff : tx.isSegwit ↔ ∃ i ∈ tx.inputs, i.witness ≠ [] := by
  simp [isSegwit, Input.hasWitness]

theorem length_serializeSegwit (tx : Transaction) : tx.serializeSegwit.length =
    tx.serializeLegacy.length + 2 + (tx.inputs.map Input.witnessSize).sum := by
  have hw : (tx.inputs.flatMap Input.serializeWitness).length = (tx.inputs.map Input.witnessSize).sum := by
    rw [List.length_flatMap]
    simp only [Input.length_serializeWitness]
  rw [serializeSegwit, serializeLegacy]
  simp only [List.length_append, List.length_cons, List.length_nil, hw]
  omega

theorem serialize_of_isSegwit (h : tx.isSegwit) : tx.serialize = tx.serializeSegwit := if_pos h

theorem serialize_of_not_isSegwit (h : ¬ tx.isSegwit) : tx.serialize = tx.serializeLegacy := if_neg h

theorem length_serializeLegacy_le (tx : Transaction) : tx.serializeLegacy.length ≤ tx.serialize.length := by
  by_cases h : tx.isSegwit
  · rw [serialize_of_isSegwit h, length_serializeSegwit]
    omega
  · exact Nat.le_of_eq (congrArg List.length (serialize_of_not_isSegwit h).symm)

/-- The bytes that only the form with witnesses has are counted once for it, and
all others once for it and three times more. -/
theorem weight_eq (tx : Transaction) : tx.weight = 3 * tx.serializeLegacy.length + tx.serialize.length := by
  have h := tx.length_serializeLegacy_le
  show 4 * tx.serializeLegacy.length + (tx.serialize.length - tx.serializeLegacy.length) = _
  omega

/-- Version and lock time take four bytes each, and either number at least one. -/
theorem ten_le_length_serializeLegacy (tx : Transaction) : 10 ≤ tx.serializeLegacy.length := by
  have pos (n : Nat) : 1 ≤ (CompactSize.encode n).length := by
    rw [CompactSize.length_encode]
    grind
  have hi := pos tx.inputs.length
  have ho := pos tx.outputs.length
  simp only [serializeLegacy, inputsBytes, outputsBytes, List.length_append, length_versionBytes, length_locktimeBytes]
  omega

theorem forty_le_weight (tx : Transaction) : 40 ≤ tx.weight := by
  have hb := tx.ten_le_length_serializeLegacy
  have ht := tx.length_serializeLegacy_le
  rw [weight_eq]
  omega

/-- The weight is three times the length of the form without witnesses and once
that of the other. The two differ by the marker, the flag and the witnesses of
all inputs if there is a witness, and else not at all. The weight is never zero,
so that there is always a fee for each unit of it. -/
theorem weight_counts_witnesses_once (tx : Transaction) :
    tx.weight = 3 * tx.serializeLegacy.length + tx.serialize.length ∧
    ((∃ i ∈ tx.inputs, i.witness ≠ []) →
      tx.serialize.length = tx.serializeLegacy.length + 2 + (tx.inputs.map Input.witnessSize).sum) ∧
    ((∀ i ∈ tx.inputs, i.witness = []) → tx.serialize = tx.serializeLegacy ∧ tx.wtxid = tx.txid) ∧
    tx.serializeLegacy.length ≤ tx.serialize.length ∧ 40 ≤ tx.weight ∧
    tx.feeRate = Float.ofInt tx.fee.toInt / Float.ofNat tx.weight := by
  refine ⟨tx.weight_eq, fun h => ?_, fun h => ?_, tx.length_serializeLegacy_le, tx.forty_le_weight, ?_⟩
  · rw [serialize_of_isSegwit (isSegwit_iff.2 h), length_serializeSegwit]
  · have hn : ¬ tx.isSegwit := by
      rw [isSegwit_iff]
      exact fun ⟨i, hi, hw⟩ => hw (h i hi)
    have he := serialize_of_not_isSegwit hn
    exact ⟨he, by rw [wtxid, txid, he]⟩
  · have hw : tx.weight ≠ 0 := by
      have := tx.forty_le_weight
      omega
    rw [feeRate, if_neg hw]

/-- Two inputs of which one has a witness, of two items, and the same two without. -/
theorem weight_counts_witnesses_once_mixedSpend :
    let emptied := mixedSpend.withoutWitnesses
    ((∃ i ∈ mixedSpend.inputs, i.witness ≠ []) ∧
      mixedSpend.serialize.length = mixedSpend.serializeLegacy.length + 2 + (1 + (1 + 0) + (1 + 2) + 1)) ∧
    (∀ i ∈ emptied.inputs, i.witness = []) ∧ emptied.serialize = emptied.serializeLegacy ∧ emptied.wtxid = emptied.txid := by
  intro emptied
  have witnessed : ∃ i ∈ mixedSpend.inputs, i.witness ≠ [] := by decide
  have stripped : ∀ i ∈ emptied.inputs, i.witness = [] := by decide
  have longer := (weight_counts_witnesses_once mixedSpend).2.1 witnessed
  exact ⟨⟨witnessed, longer⟩, stripped, (weight_counts_witnesses_once emptied).2.2.1 stripped⟩

end Transaction

end Bitcoin

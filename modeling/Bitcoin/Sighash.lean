import Bitcoin.Transaction

/-!
# Digests to be signed

The byte behind a signature says which parts of the transaction it commits to:
its low five bits say which outputs, its highest bit whether the other inputs
may change. The digest over those parts is made in one of three ways, by the
kind of spend.
-/

/-! ## Hash types -/

namespace Bitcoin

/-- The outputs that a signature commits to. -/
inductive Coverage where
  | all
  | none
  | single
  deriving Repr, DecidableEq

/-- The byte behind a signature. -/
structure SighashType where
  byte : UInt8
  deriving Repr, DecidableEq

namespace SighashType

/-- Whether inputs other than the signed one may change. -/
def anyoneCanPay (t : SighashType) : Bool := t.byte &&& 0x80 != 0

/-- The outputs committed to; every code but those of none and single, the
default among them, means all. -/
def coverage (t : SighashType) : Coverage :=
  if t.byte &&& 0x1f = 0x02 then .none else if t.byte &&& 0x1f = 0x03 then .single else .all

/-- Whether taproot signatures may have the type. -/
def isTaproot (t : SighashType) : Bool := t.byte ≤ 0x03 || 0x81 ≤ t.byte && t.byte ≤ 0x83

end SighashType

end Bitcoin

/-!
## Digests of legacy signatures

A legacy signature is for the hash of the transaction as it would be with all
scripts of inputs emptied but the signed one's, which holds the script that
checks the signature, and with the parts left out that the hash type does not
cover. Where the type covers the single output of the signed input's place and
there is none, the digest is the number one.
-/

namespace Bitcoin.Sighash.Legacy

/-- The digest where a single output is covered that does not exist. -/
def one : Hash256 := ⟨0x01 :: List.replicate 31 0, rfl⟩

/-- The inputs as they are signed: the signed one with its script, the others
without, and without their sequence numbers unless all outputs are covered. -/
def inputsBytes (tx : Transaction) (index : Nat) (script : Bytes) (t : SighashType) : Bytes :=
  if t.anyoneCanPay then
    CompactSize.encode 1 ++ (tx.inputs[index]?.toList.flatMap fun i => i.serializeWith script i.sequence)
  else
    CompactSize.encode tx.inputs.length ++ tx.inputs.zipIdx.flatMap fun (i, k) =>
      if k = index then i.serializeWith script i.sequence
      else i.serializeWith [] (if t.coverage = .all then i.sequence else 0)

/-- An output without its contents: the amount -1 and no script. -/
def blankOutput : Bytes := Bytes.littleEndian 8 (-1 : Amount).toUInt64.toNat ++ CompactSize.counted []

/-- The outputs as they are signed. -/
def outputsBytes (tx : Transaction) (index : Nat) (t : SighashType) : Bytes :=
  match t.coverage with
  | .all => tx.outputsBytes
  | .none => CompactSize.encode 0
  | .single =>
    CompactSize.encode (index + 1) ++ (List.replicate index blankOutput).flatten ++
      tx.outputs[index]?.toList.flatMap Output.serialize

/-- What is hashed: the transaction as it is signed and the hash type. -/
def preimage (tx : Transaction) (index : Nat) (script : Bytes) (t : SighashType) : Bytes :=
  tx.versionBytes ++ inputsBytes tx index script t ++ outputsBytes tx index t ++ tx.locktimeBytes ++
    Bytes.littleEndian 4 t.byte.toNat

/-- The digest that a legacy signature of an input is for. -/
def digest (tx : Transaction) (index : Nat) (script : Bytes) (t : SighashType) : Except Error Hash256 := do
  let _ ← tx.input index
  if t.coverage = .single ∧ tx.outputs.length ≤ index then return one
  return doubleSha256 (preimage tx index script t)

end Bitcoin.Sighash.Legacy

/-!
## Digests of version 0 witnesses

The signed message commits to the spent amount and to hashes over all outpoints,
all sequence numbers and the outputs; the hash type replaces those that it does
not cover by zeros.
-/

namespace Bitcoin.Sighash.WitnessV0

/-- The script that signatures under a key hash are for, behind its length. -/
def keyHashCode (key : Bytes) : Bytes := CompactSize.counted (Script.payToKeyHash (hash160 key).val)

/-- The script that signatures within a witness script are for, behind its
length. -/
def scriptCode (script : Bytes) : Bytes := CompactSize.counted script

/-- The hash over all outpoints. -/
def hashPrevouts (tx : Transaction) (t : SighashType) : Hash256 :=
  if t.anyoneCanPay then .zero 32 else doubleSha256 (tx.inputs.flatMap fun i => i.outpoint.serialize)

/-- The hash over all sequence numbers. -/
def hashSequences (tx : Transaction) (t : SighashType) : Hash256 :=
  if t.anyoneCanPay ∨ t.coverage ≠ .all then .zero 32
  else doubleSha256 (tx.inputs.flatMap fun i => Bytes.littleEndian 4 i.sequence.toNat)

/-- The hash over the outputs covered. -/
def hashOutputs (tx : Transaction) (index : Nat) (t : SighashType) : Hash256 :=
  match t.coverage with
  | .all => doubleSha256 (tx.outputs.flatMap Output.serialize)
  | .none => .zero 32
  | .single =>
    match tx.outputs[index]? with
    | some o => doubleSha256 o.serialize
    | none => .zero 32

/-- What is hashed; the script comes with its length in front. -/
def preimage (tx : Transaction) (index : Nat) (code : Bytes) (amount : Amount) (t : SighashType) :
    Except Error Bytes := do
  let i ← tx.input index
  return tx.versionBytes ++ (hashPrevouts tx t).val ++ (hashSequences tx t).val ++ i.outpoint.serialize ++
    code ++ Bytes.littleEndian 8 amount.toUInt64.toNat ++ Bytes.littleEndian 4 i.sequence.toNat ++
    (hashOutputs tx index t).val ++ tx.locktimeBytes ++ Bytes.littleEndian 4 t.byte.toNat

/-- The digest that a signature in a version 0 witness is for. -/
def digest (tx : Transaction) (index : Nat) (code : Bytes) (amount : Amount) (t : SighashType) :
    Except Error Hash256 :=
  doubleSha256 <$> preimage tx index code amount t

end Bitcoin.Sighash.WitnessV0

/-!
## Digests of taproot spends

The signed message commits to the amounts and scripts of all outputs spent, or
of the signed input's alone, to the annex, and in a script path to the script's
leaf. Its parts have fixed lengths or are hashed, but for the script of a lone
input, which has its length in front.
-/

namespace Bitcoin.Sighash.Taproot

/-- The prevouts of all inputs; an error names the first input without one. -/
def prevouts (tx : Transaction) : Except Error (List Output) :=
  match tx.inputs.findIdx? fun i => i.prevout.isNone with
  | some index => .error (.missingPrevout index)
  | none => .ok (tx.inputs.filterMap Input.prevout)

/-- The hashes over all inputs: outpoints, amounts, scripts and sequence
numbers. -/
def inputHashes (tx : Transaction) (spent : List Output) : Bytes :=
  (sha256 (tx.inputs.flatMap fun i => i.outpoint.serialize)).val ++
  (sha256 (spent.flatMap fun o => Bytes.littleEndian 8 o.value.toUInt64.toNat)).val ++
  (sha256 (spent.flatMap fun o => CompactSize.counted o.script)).val ++
  (sha256 (tx.inputs.flatMap fun i => Bytes.littleEndian 4 i.sequence.toNat)).val

/-- The part about all inputs. -/
def commonInputs (tx : Transaction) (t : SighashType) : Except Error Bytes := do
  if t.anyoneCanPay then return []
  return inputHashes tx (← prevouts tx)

/-- The part about all outputs. -/
def commonOutputs (tx : Transaction) (t : SighashType) : Bytes :=
  if t.coverage = .all then (sha256 (tx.outputs.flatMap Output.serialize)).val else []

/-- The byte that says whether there are an annex and a leaf. -/
def spendByte (annex : Option Bytes) (leaf : Option Hash256) : UInt8 :=
  (if leaf.isSome then 2 else 0) + (if annex.isSome then 1 else 0)

/-- The part about the signed input. -/
def ownInput (tx : Transaction) (index : Nat) (i : Input) (t : SighashType) : Except Error Bytes := do
  if t.anyoneCanPay then
    let o ← tx.prevout index
    return i.outpoint.serialize ++ o.serialize ++ Bytes.littleEndian 4 i.sequence.toNat
  return Bytes.littleEndian 4 index

/-- The part about the annex: its hash behind its length. -/
def annexHash (annex : Option Bytes) : Bytes :=
  match annex with
  | some a => (sha256 (CompactSize.counted a)).val
  | none => []

/-- The part about the output of the signed input's place. -/
def ownOutput (tx : Transaction) (index : Nat) (t : SighashType) : Except Error Bytes :=
  if t.coverage = .single then
    match tx.outputs[index]? with
    | some o => .ok (sha256 o.serialize).val
    | none => .error (.signature (.singleWithoutOutput index))
  else .ok []

/-- The part about the leaf: its hash, the key version, and that no code
separator was met. -/
def leafPart (leaf : Option Hash256) : Bytes :=
  match leaf with
  | some h => h.val ++ 0x00 :: Bytes.littleEndian 4 0xffffffff
  | none => []

/-- The message that is signed. -/
def message (tx : Transaction) (index : Nat) (t : SighashType) (annex : Option Bytes)
    (leaf : Option Hash256) : Except Error Bytes := do
  unless t.isTaproot do throw (.signature (.taprootType t.byte))
  let i ← tx.input index
  let inputs ← commonInputs tx t
  let own ← ownInput tx index i t
  let output ← ownOutput tx index t
  return [0x00, t.byte] ++ tx.versionBytes ++ tx.locktimeBytes ++ inputs ++ commonOutputs tx t ++
    [spendByte annex leaf] ++ own ++ annexHash annex ++ output ++ leafPart leaf

/-- The digest that a signature in a taproot spend is for. -/
def digest (tx : Transaction) (index : Nat) (t : SighashType) (annex : Option Bytes)
    (leaf : Option Hash256) : Except Error Hash256 :=
  taggedHash "TapSighash" <$> message tx index t annex leaf

end Bitcoin.Sighash.Taproot

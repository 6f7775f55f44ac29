import Bitcoin.Address
import Bitcoin.Cursor
import Bitcoin.Script

/-!
# Transactions

A transaction spends outputs of earlier ones and makes new outputs. Its inputs
may carry the output they spend (`prevout`), which is not part of the wire
form; outputs carry what a record says of them besides their wire fields. All
else is computed from these: the two wire forms, `serializeLegacy` without
witnesses and `serialize` with them, from those the identifiers and the weight,
the fee, and how each input spends.
-/

/-!
## Amounts

Amounts of satoshis are signed numbers of 64 bits; negative ones occur in
malformed transactions only. Sums of them either stop at the bounds
(`saturatingSum`) or fail where a partial sum leaves them (`checkedSum?`).
-/

namespace Bitcoin

/-- An amount of satoshis. -/
abbrev Amount := Int64

namespace Amount

/-- The amount nearest to a number. -/
def saturate (n : Int) : Amount :=
  Int64.ofInt (max Int64.minValue.toInt (min n Int64.maxValue.toInt))

/-- A number as an amount, if it is one. -/
def ofInt? (n : Int) : Option Amount :=
  if Int64.minValue.toInt ≤ n ∧ n ≤ Int64.maxValue.toInt then some (Int64.ofInt n) else none

/-- The sum of amounts in order, stopping at a bound when it would pass it. -/
def saturatingSum (xs : List Amount) : Amount :=
  xs.foldl (fun sum x => saturate (sum.toInt + x.toInt)) 0

/-- The sum of amounts in order, if no partial sum passes a bound. -/
def checkedSum? (xs : List Amount) : Option Amount :=
  xs.foldlM (fun sum x => ofInt? (sum.toInt + x.toInt)) 0

end Amount

/-! ## Inputs, outputs and wire forms -/

/-- A reference to an output of a transaction, whose identifier is in display
order. -/
structure OutPoint where
  txid : Hash256
  vout : UInt32
  deriving Repr, DecidableEq, Hashable

/-- The wire form: the identifier in the order it is hashed in, and the index. -/
def OutPoint.serialize (o : OutPoint) : Bytes := o.txid.reverse.val ++ Bytes.littleEndian 4 o.vout.toNat

/-- The identifier in hexadecimal and the index, with a colon between. -/
def OutPoint.text (o : OutPoint) : String := Hex.encode o.txid.val ++ ":" ++ toString o.vout.toNat

/-- The reference that coinbase inputs hold. -/
def OutPoint.null : OutPoint := ⟨FixedBytes.zero 32, 0xffffffff⟩

/-- An output: an amount and the script that locks it, with the text, type and
address declared for the script. -/
structure Output where
  value : Amount
  script : Bytes
  asm : String
  type : OutputType
  address : Option String
  deriving Repr, DecidableEq

namespace Output

/-- The output of a bare script, with the text, type and address it has. -/
def ofScript (value : Amount) (script : Bytes) : Output :=
  let type := OutputType.classify script
  { value, script, asm := Script.asm script, type, address := (Address.encode type script).toOption }

/-- The wire form. -/
def serialize (o : Output) : Bytes :=
  Bytes.littleEndian 8 o.value.toUInt64.toNat ++ CompactSize.counted o.script

end Output

/-- An input: the output it spends, by reference and, if known, itself, and
what unlocks it. -/
structure Input where
  outpoint : OutPoint
  prevout : Option Output
  scriptSig : Bytes
  asm : String
  witness : List Bytes
  isCoinbase : Bool
  sequence : UInt32
  deriving Repr, DecidableEq

namespace Input

/-- The input with the text of its script; the null reference makes it a
coinbase input. -/
def make (outpoint : OutPoint) (prevout : Option Output) (scriptSig : Bytes) (witness : List Bytes)
    (sequence : UInt32) : Input :=
  { outpoint, prevout, scriptSig, asm := Script.asm scriptSig, witness,
    isCoinbase := outpoint = OutPoint.null, sequence }

/-- Whether there is a witness. -/
def hasWitness (i : Input) : Bool := !i.witness.isEmpty

/-- The wire form with another script and sequence number. -/
def serializeWith (i : Input) (scriptSig : Bytes) (sequence : UInt32) : Bytes :=
  i.outpoint.serialize ++ CompactSize.counted scriptSig ++ Bytes.littleEndian 4 sequence.toNat

/-- The wire form without witness. -/
def serialize (i : Input) : Bytes := i.serializeWith i.scriptSig i.sequence

/-- The wire form of the witness: the number of items and the items. -/
def serializeWitness (i : Input) : Bytes :=
  CompactSize.encode i.witness.length ++ i.witness.flatMap CompactSize.counted

end Input

/-- A transaction. -/
structure Transaction where
  version : Int32
  locktime : UInt32
  inputs : List Input
  outputs : List Output
  deriving Repr, DecidableEq

namespace Transaction

/-- Whether an input carries a witness. -/
def isSegwit (tx : Transaction) : Bool := tx.inputs.any Input.hasWitness

/-- Whether an input's sequence number allows replacement. -/
def signalsReplacement (tx : Transaction) : Bool := tx.inputs.any fun i => i.sequence < 0xfffffffe

/-- Whether the only input is a coinbase input. -/
def isCoinbase (tx : Transaction) : Bool :=
  match tx.inputs with
  | [i] => i.isCoinbase
  | _ => false

/-- The wire form of the version. -/
def versionBytes (tx : Transaction) : Bytes := Bytes.littleEndian 4 tx.version.toUInt32.toNat

/-- The wire form of the lock time. -/
def locktimeBytes (tx : Transaction) : Bytes := Bytes.littleEndian 4 tx.locktime.toNat

/-- The wire form of all inputs behind their number. -/
def inputsBytes (tx : Transaction) : Bytes :=
  CompactSize.encode tx.inputs.length ++ tx.inputs.flatMap Input.serialize

/-- The wire form of all outputs behind their number. -/
def outputsBytes (tx : Transaction) : Bytes :=
  CompactSize.encode tx.outputs.length ++ tx.outputs.flatMap Output.serialize

/-- The wire form without witnesses. -/
def serializeLegacy (tx : Transaction) : Bytes :=
  tx.versionBytes ++ tx.inputsBytes ++ tx.outputsBytes ++ tx.locktimeBytes

/-- The wire form with witnesses: a marker and a flag follow the version, and
the witnesses of all inputs stand before the lock time. -/
def serializeSegwit (tx : Transaction) : Bytes :=
  tx.versionBytes ++ [0x00, 0x01] ++ tx.inputsBytes ++ tx.outputsBytes ++
    tx.inputs.flatMap Input.serializeWitness ++ tx.locktimeBytes

/-- The wire form, with witnesses if there are any. -/
def serialize (tx : Transaction) : Bytes := if tx.isSegwit then tx.serializeSegwit else tx.serializeLegacy

/-- The identifier: the hash of the form without witnesses, in display order. -/
def txid (tx : Transaction) : Hash256 := (doubleSha256 tx.serializeLegacy).reverse

/-- The identifier of the transaction and its witnesses, in display order. -/
def wtxid (tx : Transaction) : Hash256 := (doubleSha256 tx.serialize).reverse

/-- The weight: bytes that only the form with witnesses has count once, all
others four times. -/
def weight (tx : Transaction) : Nat :=
  let base := tx.serializeLegacy.length
  4 * base + (tx.serialize.length - base)

/-- The input at a place. -/
def input (tx : Transaction) (index : Nat) : Except Error Input :=
  match tx.inputs[index]? with
  | some i => .ok i
  | none => .error (.input (.inputIndex index))

/-- The output that the input at a place spends. -/
def prevout (tx : Transaction) (index : Nat) : Except Error Output := do
  let i ← tx.input index
  match i.prevout with
  | some o => return o
  | none => throw (.missingPrevout index)

end Transaction

end Bitcoin

/-!
## Fees

The fee of a transaction is what its known prevouts hold beyond its outputs.
`fee` stops at the bounds of amounts; `checkAmounts` refuses transactions for
which a partial sum or the fee passes them. Fee rates are double-precision
numbers and ordered by `rateKey`.
-/

namespace Bitcoin.Transaction

/-- The amounts of the known prevouts. -/
def inputValues (tx : Transaction) : List Amount :=
  tx.inputs.filterMap fun i => i.prevout.map Output.value

/-- The amounts of the outputs. -/
def outputValues (tx : Transaction) : List Amount := tx.outputs.map Output.value

/-- The fee. -/
def fee (tx : Transaction) : Amount :=
  .saturate ((Amount.saturatingSum tx.inputValues).toInt - (Amount.saturatingSum tx.outputValues).toInt)

/-- The transaction, if no sum of its amounts passes the bounds. -/
def checkAmounts (tx : Transaction) : Except Error Transaction :=
  match Amount.checkedSum? tx.inputValues, Amount.checkedSum? tx.outputValues with
  | some a, some b =>
    match Amount.ofInt? (a.toInt - b.toInt) with
    | some _ => .ok tx
    | none => .error (.input .fee)
  | _, _ => .error (.input .valueSum)

/-- The fee for each unit of weight. -/
def feeRate (tx : Transaction) : Float :=
  if tx.weight = 0 then 0 else Float.ofInt tx.fee.toInt / Float.ofNat tx.weight

/-- A number that orders double-precision numbers by value, negative zero
below zero: the bits, with those of negative numbers counted downwards. -/
def floatKey (x : Float) : Int :=
  let bits := x.toBits.toNat
  if bits < 0x8000000000000000 then bits else (0x7fffffffffffffff : Int) - bits

/-- The place of a transaction in the order of fee rates. -/
def rateKey (tx : Transaction) : Int := floatKey tx.feeRate

/-- The sum of the fees of some transactions, which stops at the bounds. -/
def totalFee (txs : List Transaction) : Amount := .saturatingSum (txs.map fee)

/-- The sum of the weights of some transactions. -/
def totalWeight (txs : List Transaction) : Nat := txs.foldl (fun sum tx => sum + tx.weight) 0

end Bitcoin.Transaction

/-!
## How inputs spend

The way an input spends its prevout follows from the declared type of the
prevout; a script hash that is spent with a witness wraps a witness program,
which shows in the length of the unlocking script.
-/

namespace Bitcoin

/-- How an output is spent. -/
inductive SpendType where
  | p2pkh
  | p2sh
  | p2shP2wpkh
  | p2shP2wsh
  | p2wpkh
  | p2wsh
  | p2tr
  deriving Repr, DecidableEq

/-- Whether signatures are for the digest of version 0 witnesses. -/
def SpendType.usesWitnessV0 : SpendType → Bool
  | p2wpkh | p2wsh | p2shP2wpkh | p2shP2wsh => true
  | _ => false

/-- How the input at a place spends its prevout. -/
def Transaction.spendType (tx : Transaction) (index : Nat) : Except Error SpendType := do
  let i ← tx.input index
  let o ← tx.prevout index
  match o.type with
  | .p2pkh => return .p2pkh
  | .p2wpkh => return .p2wpkh
  | .p2wsh => return .p2wsh
  | .p2tr => return .p2tr
  | .p2sh =>
    if !i.hasWitness then return .p2sh
    else if i.scriptSig.length = 23 then return .p2shP2wpkh
    else if i.scriptSig.length = 35 then return .p2shP2wsh
    else throw (.input (.wrappedScriptSigLength index i.scriptSig.length))
  | .opReturn | .other _ => throw (.input (.unspendable index o.type))

end Bitcoin

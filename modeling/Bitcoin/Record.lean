import Bitcoin.Json.Fields
import Bitcoin.Transaction

/-!
# Transaction records

Records describe transactions in JSON: amounts, scripts in hexadecimal, and
for each output the type, text and address that it declares. A document holds
one record or a list of them. `toTransaction` decodes the hexadecimal fields
and takes all declarations as they are.
-/

namespace Bitcoin.Record

/-- The record of an output. -/
structure Output where
  script : String
  asm : String
  type : OutputType
  address : Option String
  value : Int64
  deriving Repr, DecidableEq

/-- The record of an input. -/
structure Input where
  txid : String
  vout : UInt32
  prevout : Option Output
  scriptSig : String
  asm : String
  witness : Option (List String)
  isCoinbase : Bool
  sequence : UInt32
  redeemScriptAsm : Option String
  witnessScriptAsm : Option String
  deriving Repr, DecidableEq

/-- The record of a transaction. -/
structure Transaction where
  version : Int32
  locktime : UInt32
  inputs : List Input
  outputs : List Output
  deriving Repr, DecidableEq

namespace Output

/-- The names of the fields, in order. -/
def fieldNames : List String :=
  ["scriptpubkey", "scriptpubkey_asm", "scriptpubkey_type", "scriptpubkey_address", "value"]

/-- The record in a value. -/
def ofJson? (v : Json) : Option Output := do
  let field ← v.fields? fieldNames
  return {
    script := ← Json.required Json.text? (field "scriptpubkey")
    asm := ← Json.defaulted "" Json.text? (field "scriptpubkey_asm")
    type := OutputType.ofName (← Json.required Json.text? (field "scriptpubkey_type"))
    address := ← Json.optional Json.text? (field "scriptpubkey_address")
    value := ← Json.required Json.int64? (field "value") }

/-- The value that writes a record. -/
def toJson (o : Output) : Json :=
  .ofMembers (fieldNames.zip
    [.ofString o.script, .ofString o.asm, .ofString o.type.name, o.address.elim .null .ofString,
     .ofInt o.value.toInt])

/-- The output that a record describes. -/
def toOutput (o : Output) : Except Error Bitcoin.Output := do
  return { value := o.value, script := ← bytesOfHex o.script, asm := o.asm, type := o.type, address := o.address }

end Output

namespace Input

/-- The names of the fields, in order. -/
def fieldNames : List String :=
  ["txid", "vout", "prevout", "scriptsig", "scriptsig_asm", "witness", "is_coinbase", "sequence",
   "inner_redeemscript_asm", "inner_witnessscript_asm"]

/-- The record in a value. -/
def ofJson? (v : Json) : Option Input := do
  let field ← v.fields? fieldNames
  return {
    txid := ← Json.required Json.text? (field "txid")
    vout := ← Json.required Json.uint32? (field "vout")
    prevout := ← Json.optional Output.ofJson? (field "prevout")
    scriptSig := ← Json.required Json.text? (field "scriptsig")
    asm := ← Json.defaulted "" Json.text? (field "scriptsig_asm")
    witness := ← Json.optional (Json.list? Json.text?) (field "witness")
    isCoinbase := ← Json.required Json.bool? (field "is_coinbase")
    sequence := ← Json.required Json.uint32? (field "sequence")
    redeemScriptAsm := ← Json.optional Json.text? (field "inner_redeemscript_asm")
    witnessScriptAsm := ← Json.optional Json.text? (field "inner_witnessscript_asm") }

/-- The value that writes a record; the last two fields are left out if they
have no value. -/
def toJson (i : Input) : Json :=
  let inner (name : String) (value : Option String) : List (String × Json) :=
    (value.map fun s => (name, .ofString s)).toList
  .ofMembers (fieldNames.zip
    [.ofString i.txid, .ofNat i.vout.toNat, i.prevout.elim .null Output.toJson, .ofString i.scriptSig,
     .ofString i.asm, i.witness.elim .null fun ws => .array (ws.map .ofString), .bool i.isCoinbase,
     .ofNat i.sequence.toNat] ++
    inner "inner_redeemscript_asm" i.redeemScriptAsm ++ inner "inner_witnessscript_asm" i.witnessScriptAsm)

/-- The input that a record describes. The record may declare an input a
coinbase input, but not deny that one with the null reference is; its text for
the script is taken if there is one. -/
def toInput (i : Input) : Except Error Bitcoin.Input := do
  let prevout ← i.prevout.mapM Output.toOutput
  let witness ← (i.witness.getD []).mapM bytesOfHex
  let txid ← hashOfHex i.txid
  let scriptSig ← bytesOfHex i.scriptSig
  let input := Bitcoin.Input.make ⟨txid, i.vout⟩ prevout scriptSig witness i.sequence
  return { input with
    isCoinbase := input.isCoinbase || i.isCoinbase
    asm := if i.asm.isEmpty then input.asm else i.asm }

end Input

namespace Transaction

/-- The names of the fields, in order. -/
def fieldNames : List String := ["version", "locktime", "vin", "vout"]

/-- The record in a value. -/
def ofJson? (v : Json) : Option Transaction := do
  let field ← v.fields? fieldNames
  return {
    version := ← Json.required Json.int32? (field "version")
    locktime := ← Json.required Json.uint32? (field "locktime")
    inputs := ← Json.required (Json.list? Input.ofJson?) (field "vin")
    outputs := ← Json.required (Json.list? Output.ofJson?) (field "vout") }

/-- The value that writes a record. -/
def toJson (t : Transaction) : Json :=
  .ofMembers (fieldNames.zip
    [.ofInt t.version.toInt, .ofNat t.locktime.toNat, .array (t.inputs.map Input.toJson),
     .array (t.outputs.map Output.toJson)])

/-- The transaction that a record describes. -/
def toTransaction (t : Transaction) : Except Error Bitcoin.Transaction := do
  let inputs ← t.inputs.mapM Input.toInput
  let outputs ← t.outputs.mapM Output.toOutput
  Bitcoin.Transaction.checkAmounts { version := t.version, locktime := t.locktime, inputs, outputs }

/-- The record that a text writes. -/
def parse (text : String) : Except Error Transaction :=
  match (Json.parse? text).bind ofJson? with
  | some t => .ok t
  | none => .error .malformedDocument

end Transaction

/-- Why a document of records cannot be loaded. -/
inductive LoadFault where
  | malformed
  /-- A field of the record at a place cannot be decoded. -/
  | undecodable (index : Nat) (cause : Error)
  deriving Repr, DecidableEq

/-- The wording of a fault; the cause is not part of it. -/
def LoadFault.message : LoadFault → String
  | .malformed => "malformed transaction record"
  | .undecodable index _ => s!"record {index} has undecodable fields"

/-- The cause of a fault, if it has one. -/
def LoadFault.cause? : LoadFault → Option Error
  | .malformed => none
  | .undecodable _ cause => some cause

/-- The records of a document: the value itself is one, or it is a list of
them. -/
def ofDocument? (v : Json) : Option (List Transaction) :=
  if !v.isSound then none
  else
    match Transaction.ofJson? v with
    | some t => some [t]
    | none => Json.list? Transaction.ofJson? v

/-- The transactions that a document describes. -/
def load (text : String) : Except LoadFault (List Bitcoin.Transaction) :=
  match (Json.parse? text).bind ofDocument? with
  | none => .error .malformed
  | some ts => ts.zipIdx.mapM fun (t, index) => t.toTransaction.mapError (.undecodable index)

end Bitcoin.Record

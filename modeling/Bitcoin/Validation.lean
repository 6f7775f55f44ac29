import Bitcoin.Script.Interpreter

/-!
# Validation

A transaction is valid if none of four checks has anything against it and all
can be carried out. The verdict on an invalid one names the first check that
has, in the order scripts, metadata, hashes, signatures.

A check looks at the inputs that spend outputs, one after the other, and stops
at the first to which it objects. An objection is something against the
transaction; an error means that the check could not be carried out.
-/

/-! ## Objections -/

namespace Bitcoin.Validation

/-- Something against a transaction. -/
inductive Objection where
  | scriptFalse (index : Nat)
  | emptyScript (index : Nat)
  | unspendable (index : Nat) (type : OutputType)
  | scriptLength (index : Nat) (type : OutputType) (length expected : Nat)
  | witnessItems (index count : Nat)
  | noAddress (index : Nat)
  | addressMismatch (index : Nat) (address : String)
  | negativeFee (fee : Amount)
  | wrappedProgram (index : Nat)
  | unlockingHash (index : Nat) (type : OutputType)
  | noSignatureAndKey (index : Nat)
  | scriptPathTooShort (index : Nat)
  | signatureFalse (index : Nat)
  deriving Repr, DecidableEq

/-- The wording of an objection. -/
def Objection.message : Objection → String
  | scriptFalse index => s!"input {index} script evaluated to false"
  | emptyScript index => s!"input {index} prevout has empty scriptPubKey"
  | unspendable index type => s!"input {index} spends unspendable " ++ type.name ++ " output"
  | scriptLength index type length expected =>
    s!"input {index} " ++ type.name ++ s!" scriptPubKey is {length} bytes, expected {expected}"
  | witnessItems index count => s!"input {index} P2WPKH witness has {count} items"
  | noAddress index => s!"input {index} prevout has no address"
  | addressMismatch index address => s!"input {index} address {address} does not match scriptPubKey"
  | negativeFee fee => "negative fee " ++ toString fee.toInt
  | wrappedProgram index => s!"input {index} wrapped witness program does not match witness"
  | unlockingHash index type =>
    s!"input {index} unlocking data does not hash to the " ++ type.name ++ " scriptPubKey"
  | noSignatureAndKey index => s!"input {index} scriptSig lacks signature and key"
  | scriptPathTooShort index => s!"input {index} script path too short"
  | signatureFalse index => s!"input {index} signature does not verify"

/-- The inputs that spend outputs, with their places; coinbase inputs do not. -/
def spendingInputs (tx : Transaction) : List (Input × Nat) := tx.inputs.zipIdx.filter fun (i, _) => !i.isCoinbase

/-- What there is against the first of some inputs to which a judge objects.
The judge gets the place of the input, the input and its prevout. -/
def firstObjection (judge : Nat → Input → Output → Check (Option Objection)) :
    List (Input × Nat) → Check (Option Objection)
  | [] => return none
  | (i, index) :: rest => do
    match i.prevout with
    | none => throw (.missingPrevout index)
    | some o =>
      match ← judge index i o with
      | some objection => return some objection
      | none => firstObjection judge rest

/-- A witness item. -/
def witnessItem (i : Input) (place : Nat) : Except Error Bytes :=
  match i.witness[place]? with
  | some item => .ok item
  | none => .error (.input (.missingWitnessItem place))

/-- The items of a witness before its script, and the script. -/
def witnessScript (i : Input) : Except Error (List Bytes × Bytes) :=
  match i.witness.getLast? with
  | some script => .ok (i.witness.dropLast, script)
  | none => .error (.input .emptyWitness)

/-!
## The script check

Runs the scripts of inputs that spend script hashes and witness script hashes.
A script hash is spent by running the unlocking script and the locking script
on one stack, and then the script that the hash is of: for a bare script hash
on the other items that the unlocking script pushed, and for a wrapped witness
program on the witness.
-/

/-- Runs a script on some items, the last of them on top, and nothing else. -/
def runOn (context : Script.Context) (items : List Bytes) (script : Bytes) : Script.Run Bool := do
  modify Script.Machine.clear
  items.forM Script.Run.push
  Script.executeBool (some context) script

/-- The key hash in a redeem script that is a witness program. -/
def keyHashProgram (redeem : Bytes) : Except Error Bytes :=
  if redeem.length = 22 then .ok (redeem.drop 2) else .error (.input .keyHashProgram)

/-- Runs the top item as a script on the items below it. -/
def runTop (context : Script.Context) : List Bytes → Script.Run Bool
  | redeem :: items => runOn context items.reverse redeem
  | [] => throw (.stackUnderflow "P2SH redeem script")

/-- Runs the script that unlocks a script hash, given the items that the
unlocking script left, top first. -/
def runRedeemed (context : Script.Context) (i : Input) (o : Output) (type : SpendType)
    (unlocking : List Bytes) : Script.Run Bool := do
  let segwit := { context with version := .witnessV0 o.value }
  match type with
  | .p2shP2wpkh =>
    let redeem ← Script.Run.ofExcept (Script.lastPushed i.scriptSig)
    let program ← Script.Run.ofExcept (keyHashProgram redeem)
    let sig ← Script.Run.ofExcept (witnessItem i 0)
    let key ← Script.Run.ofExcept (witnessItem i 1)
    runOn segwit [sig, key] (Script.payToKeyHash program)
  | .p2shP2wsh =>
    let (items, script) ← Script.Run.ofExcept (witnessScript i)
    runOn segwit items script
  | _ => runTop context unlocking

/-- Whether the scripts of an input hold. Spends of keys have none to run. -/
def runInput (tx : Transaction) (v : Verifier) (index : Nat) (i : Input) (o : Output) (type : SpendType) :
    Script.Run Bool := do
  let context : Script.Context := ⟨tx, index, v, .base⟩
  match type with
  | .p2pkh | .p2wpkh | .p2tr => return true
  | .p2wsh =>
    let (items, script) ← Script.Run.ofExcept (witnessScript i)
    runOn { context with version := .witnessV0 o.value } items script
  | .p2sh | .p2shP2wpkh | .p2shP2wsh =>
    let _ ← Script.execute (some context) i.scriptSig
    let m ← get
    if ← Script.executeBool (some context) o.script then runRedeemed context i o type m.stack
    else return false

/-- What there is against the scripts of one input. -/
def judgeScripts (tx : Transaction) (v : Verifier) (index : Nat) (i : Input) (o : Output) :
    Check (Option Objection) := do
  let type ← Check.ofExcept (tx.spendType index)
  let holds ← (runInput tx v index i o type).toCheck
  return if holds then none else some (.scriptFalse index)

/-- The script check. -/
def checkScripts (tx : Transaction) (v : Verifier) : Check (Option Objection) :=
  firstObjection (judgeScripts tx v) (spendingInputs tx)

/-!
## The metadata check

What is declared of a prevout has to fit its script: the type allows its
length, the address decodes to it. The fee must not be negative.
-/

/-- What there is against the declarations of one prevout. -/
def judgeMetadata (index : Nat) (i : Input) (o : Output) : Check (Option Objection) := do
  if o.script.isEmpty then return some (.emptyScript index)
  match o.type.scriptLength? with
  | none => return some (.unspendable index o.type)
  | some expected =>
    if o.script.length ≠ expected then return some (.scriptLength index o.type o.script.length expected)
    if o.type = .p2wpkh ∧ i.witness.length ≠ 2 then return some (.witnessItems index i.witness.length)
    match o.address with
    | none => return some (.noAddress index)
    | some address =>
      let script ← Check.ofExcept (Address.decode address)
      return if script = o.script then none else some (.addressMismatch index address)

/-- The metadata check. -/
def checkMetadata (tx : Transaction) : Check (Option Objection) := do
  match ← firstObjection judgeMetadata (spendingInputs tx) with
  | some objection => return some objection
  | none => return if tx.fee < 0 then some (.negativeFee tx.fee) else none

/-!
## The hash check

What unlocks an output has to hash to its locking script: the key to the key
hash, the redeem script to the script hash, the witness script to the witness
program, which may itself be the redeem script. Taproot outputs hold keys and
are left to the signature check.
-/

/-- The locking script of a witness program of version 0. -/
def programV0 (program : Bytes) : Bytes := Script.payToProgram 0 program

/-- The locking script that an input unlocks, where it is a hash; an objection
if it wraps a witness program that is not of the witness. -/
def unlockedScript (index : Nat) (i : Input) (type : SpendType) :
    Except Error (Except Objection (Option Bytes)) := do
  match type with
  | .p2tr => return .ok none
  | .p2pkh =>
    let key ← Script.lastPushed i.scriptSig
    return .ok (some (Script.payToKeyHash (hash160 key).val))
  | .p2wpkh =>
    let key ← witnessItem i 1
    return .ok (some (programV0 (hash160 key).val))
  | .p2wsh =>
    let (_, script) ← witnessScript i
    return .ok (some (programV0 (sha256 script).val))
  | .p2sh =>
    let redeem ← Script.lastPushed i.scriptSig
    return .ok (some (Script.payToScriptHash (hash160 redeem).val))
  | .p2shP2wpkh =>
    let redeem ← Script.lastPushed i.scriptSig
    let key ← witnessItem i 1
    if redeem ≠ programV0 (hash160 key).val then return .error (.wrappedProgram index)
    return .ok (some (Script.payToScriptHash (hash160 redeem).val))
  | .p2shP2wsh =>
    let redeem ← Script.lastPushed i.scriptSig
    let (_, script) ← witnessScript i
    if redeem ≠ programV0 (sha256 script).val then return .error (.wrappedProgram index)
    return .ok (some (Script.payToScriptHash (hash160 redeem).val))

/-- What there is against the hashes of one input. -/
def judgeHashes (tx : Transaction) (index : Nat) (i : Input) (o : Output) : Check (Option Objection) := do
  let type ← Check.ofExcept (tx.spendType index)
  match ← Check.ofExcept (unlockedScript index i type) with
  | .error objection => return some objection
  | .ok none => return none
  | .ok (some script) => return if script = o.script then none else some (.unlockingHash index o.type)

/-- The hash check. -/
def checkHashes (tx : Transaction) : Check (Option Objection) :=
  firstObjection (judgeHashes tx) (spendingInputs tx)

/-!
## The signature check

Verifies the signatures of inputs that spend a key, and the commitment of
taproot script paths. Signatures within scripts are left to the script check.
-/

/-- Verifies a script signature under a key, for a digest that depends on the
hash type. -/
def verifyDer (v : Verifier) (sig key : Bytes) (digest : SighashType → Except Error Hash256) : Check Bool := do
  let (der, type) ← Check.ofExcept (Signature.splitHashType sig)
  let pair ← Check.ofExcept (Signature.compact der)
  Check.ecdsa v key (← Check.ofExcept (digest ⟨type⟩)) pair

/-- Verifies the signature of a witness that is a signature and a key. -/
def verifyKeyWitness (tx : Transaction) (v : Verifier) (index : Nat) (i : Input) (o : Output) : Check Bool := do
  let sig ← Check.ofExcept (witnessItem i 0)
  let key ← Check.ofExcept (witnessItem i 1)
  verifyDer v sig key (Sighash.WitnessV0.digest tx index (Sighash.WitnessV0.keyHashCode key) o.value)

/-- The objection to an input, unless it verifies. -/
def unlessVerified (index : Nat) (verified : Bool) : Option Objection :=
  if verified then none else some (.signatureFalse index)

/-- What there is against the signature of one input. -/
def judgeSignature (tx : Transaction) (v : Verifier) (index : Nat) (i : Input) (o : Output) :
    Check (Option Objection) := do
  match ← Check.ofExcept (tx.spendType index) with
  | .p2pkh =>
    match ← Check.ofExcept (Script.pushedItems i.scriptSig) with
    | sig :: key :: rest =>
      let key := (key :: rest).getLastD key
      return unlessVerified index (← verifyDer v sig key (Sighash.Legacy.digest tx index o.script))
    | _ => return some (.noSignatureAndKey index)
  | .p2wpkh | .p2shP2wpkh => return unlessVerified index (← verifyKeyWitness tx v index i o)
  | .p2tr =>
    if Taproot.isKeyPath i.witness then
      return unlessVerified index (← Taproot.verifyKeyPath tx index v)
    match Taproot.outputKey? o.script with
    | none => throw (.input .taprootOutput)
    | some key =>
      match Taproot.scriptAndControl? (Taproot.splitAnnex i.witness).1 with
      | none => return some (.scriptPathTooShort index)
      | some (script, control) =>
        return unlessVerified index (← Taproot.verifyScriptPath key script control v)
  | .p2sh | .p2wsh | .p2shP2wsh => return none

/-- The signature check. -/
def checkSignatures (tx : Transaction) (v : Verifier) : Check (Option Objection) :=
  firstObjection (judgeSignature tx v) (spendingInputs tx)

end Bitcoin.Validation

/-! ## Verdicts -/

namespace Bitcoin

namespace Validation

/-- One of the four checks. -/
inductive Kind where
  | script
  | metadata
  | hash
  | signature
  deriving Repr, DecidableEq

/-- The name of a check. -/
def Kind.name : Kind → String
  | script => "script"
  | metadata => "metadata"
  | hash => "hash"
  | signature => "signature"

/-- A check of the given kind. -/
def check (tx : Transaction) (v : Verifier) : Kind → Check (Option Objection)
  | .script => checkScripts tx v
  | .metadata => checkMetadata tx
  | .hash => checkHashes tx
  | .signature => checkSignatures tx v

/-- What a check comes to. -/
inductive Finding where
  | valid
  | objection (o : Objection)
  | error (e : Error)
  deriving Repr, DecidableEq

/-- What a computation that may object comes to. -/
def Finding.ofCheck (c : Check (Option Objection)) : Finding :=
  match c.run.1 with
  | .ok none => valid
  | .ok (some o) => objection o
  | .error e => error e

/-- The reason why a finding is not `valid`. -/
def Finding.reason? : Finding → Option String
  | valid => none
  | objection o => some o.message
  | error e => some e.message

end Validation

/-- The verdict on a transaction. -/
inductive Verdict where
  | valid
  /-- The first check that has something against it, and what that is. -/
  | invalid (check : Validation.Kind) (finding : Validation.Finding)
  deriving Repr, DecidableEq

/-- Whether a verdict is `valid`. -/
def Verdict.isValid : Verdict → Bool
  | valid => true
  | invalid .. => false

/-- The wording of a verdict against a transaction. -/
def Verdict.reason? : Verdict → Option String
  | valid => none
  | invalid check finding => finding.reason?.map fun reason => check.name ++ " check: " ++ reason

/-- The verdict of the checks on a transaction. -/
def Transaction.validate (tx : Transaction) (v : Verifier) : Verdict :=
  let findings := [.script, .metadata, .hash, .signature].map fun k =>
    (k, Validation.Finding.ofCheck (Validation.check tx v k))
  match findings.find? fun (_, f) => f ≠ .valid with
  | some (k, f) => .invalid k f
  | none => .valid

end Bitcoin

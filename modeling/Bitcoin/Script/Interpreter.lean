import Bitcoin.Script.Machine
import Bitcoin.Taproot

/-!
# Running scripts

Instructions run one after the other. Those that open, turn and close
conditional blocks always count; any other runs only while all open blocks are
taken. A run succeeds if the script can be read to its end and all blocks are
closed; its result is then the item on top.
-/

/-!
## Signature checks within scripts

A script that unlocks an input checks signatures for a digest of the
transaction; which digest, depends on the kind of spend.
-/

namespace Bitcoin.Script

/-- The digest that signatures in a script are for. -/
inductive SigVersion where
  | base
  /-- The digest of version 0 witnesses, with the amount spent. -/
  | witnessV0 (amount : Amount)
  /-- The digest of a taproot script path, with the hash of the leaf. -/
  | tapscript (leaf : Hash256)
  deriving Repr, DecidableEq

/-- What a script is run for. -/
structure Context where
  tx : Transaction
  index : Nat
  verifier : Verifier
  version : SigVersion

/-- Whether a script is run for a taproot script path. -/
def inTapscript : Option Context → Bool
  | some c =>
    match c.version with
    | .tapscript _ => true
    | _ => false
  | none => false

/-- Whether a signature verifies under a key, for the digest of the script that
checks it. An empty signature does not, whatever the key. -/
def checkSignature (context : Option Context) (sig key script : Bytes) : Check Bool := do
  match context with
  | none => throw (.script (.noTransaction "signature check"))
  | some c =>
    if sig.isEmpty then return false
    match c.version with
    | .base =>
      let (der, type) ← Check.ofExcept (Signature.splitHashType sig)
      let pair ← Check.ofExcept (Signature.compact der)
      let digest ← Check.ofExcept (Sighash.Legacy.digest c.tx c.index script ⟨type⟩)
      Check.ecdsa c.verifier key digest pair
    | .witnessV0 amount =>
      let (der, type) ← Check.ofExcept (Signature.splitHashType sig)
      let pair ← Check.ofExcept (Signature.compact der)
      let code := Sighash.WitnessV0.scriptCode script
      let digest ← Check.ofExcept (Sighash.WitnessV0.digest c.tx c.index code amount ⟨type⟩)
      Check.ecdsa c.verifier key digest pair
    | .tapscript leaf =>
      match FixedBytes.ofBytes? 32 key with
      | none => throw (.signature (.tapscriptKeyLength key.length))
      | some key =>
        let (sig, type) ← Check.ofExcept (Signature.splitSchnorr sig)
        let i ← Check.ofExcept (c.tx.input c.index)
        let annex := (Taproot.splitAnnex i.witness).2
        let digest ← Check.ofExcept (Sighash.Taproot.digest c.tx c.index ⟨type⟩ annex (some leaf))
        Check.schnorr c.verifier key digest sig

/-- Whether all signatures verify, each under a key behind the one before it:
keys are tried in order, and one that does not fit is passed over. -/
def matchKeys (check : Bytes → Bytes → Check Bool) : List Bytes → List Bytes → Check Bool
  | [], _ => return true
  | _ :: _, [] => return false
  | sig :: sigs, key :: keys => do
    if ← check sig key then matchKeys check sigs keys else matchKeys check (sig :: sigs) keys

/-! ## Runs of scripts -/

/-- The most keys of a multisignature check. -/
def maxKeys : Int := 20

/-- The hash that an operation computes. -/
def Digest.apply : Digest → Bytes → Bytes
  | ripemd160, b => (Bitcoin.ripemd160 b).val
  | sha1, b => (Bitcoin.sha1 b).val
  | sha256, b => (Bitcoin.sha256 b).val
  | hash160, b => (Bitcoin.hash160 b).val
  | hash256, b => (doubleSha256 b).val

/-- Opens a block; the condition is taken from the stack only where the block
could be taken. -/
def openBlock (b : Branch) (wanted : Bool) : Run Unit := do
  let m ← get
  if m.executing then
    let condition ← Run.pop (Opcode.branch b).label
    modify fun m => { m with flags := (isTrue condition == wanted) :: m.flags }
  else
    modify fun m => { m with flags := false :: m.flags }

/-- Runs an operation on conditional blocks. -/
def runBranch : Branch → Run Unit
  | .whenTrue => openBlock .whenTrue true
  | .whenFalse => openBlock .whenFalse false
  | .otherwise => do
    let m ← get
    match m.flags with
    | taken :: outer => set { m with flags := (!taken) :: outer }
    | [] => throw (.script .elseOutsideIf)
  | .close => do
    let m ← get
    match m.flags with
    | _ :: outer => set { m with flags := outer }
    | [] => throw (.script .endIfOutsideIf)

/-- Checks a signature under a key, both taken from the stack. -/
def popAndCheck (context : Option Context) (script : Bytes) (label : String) : Run Bool := do
  let key ← Run.pop label
  let sig ← Run.pop label
  Run.ofCheck (checkSignature context sig key script)

/-- Checks signatures under keys: on the stack are, from the bottom, one item
without use, the signatures and their number, the keys and their number. -/
def checkMultisig (context : Option Context) (script : Bytes) : Run Unit := do
  let label := Opcode.checkMultisig.label
  if inTapscript context then throw (.script .multisigInTapscript)
  let n ← Run.ofExcept (Number.decode 4 (← Run.pop label))
  if n < 0 ∨ maxKeys < n then throw (.multisig (.keyCount n))
  let keys ← Run.popMany label n.toNat
  let m ← Run.ofExcept (Number.decode 4 (← Run.pop label))
  if m < 0 ∨ n < m then throw (.multisig (.signatureCount m n))
  let sigs ← Run.popMany label m.toNat
  let _ ← Run.pop (label ++ " dummy")
  let verified ← Run.ofCheck
    (matchKeys (fun sig key => checkSignature context sig key script) sigs.reverse keys.reverse)
  Run.push (ofBool verified)

/-- The context of a script, for an operation that needs one. -/
def needContext (context : Option Context) (op : Opcode) : Run Context :=
  match context with
  | some c => pure c
  | none => throw (.script (.noTransaction op.label))

/-- Fails unless the number on top is between zero and a limit. -/
def checkTime (op : Opcode) (limit : UInt32) : Run Unit := do
  let required ← Run.ofExcept (Number.decode 5 (← Run.top op.label))
  if required < 0 ∨ (limit.toNat : Int) < required then throw (.verifyFailed op.label)

/-- Runs an operation where all open blocks are taken. -/
def runOpcode (context : Option Context) (script : Bytes) (op : Opcode) : Run Unit := do
  match op with
  | .pushEmpty => Run.push []
  | .pushNegOne => Run.push (Number.encode (-1))
  | .pushSmall n => Run.push [UInt8.ofNat (n.val + 1)]
  | .nop => return ()
  | .branch b => runBranch b
  | .verify =>
    if !isTrue (← Run.pop op.label) then throw (.verifyFailed op.label)
  | .opReturn => throw (.script .returned)
  | .ifDup => Run.rearrange op.label fun
    | a :: rest => some (if isTrue a then a :: a :: rest else a :: rest)
    | [] => none
  | .drop =>
    let _ ← Run.pop op.label
  | .dup => Run.rearrange op.label fun
    | a :: rest => some (a :: a :: rest)
    | [] => none
  | .dupBelow => Run.rearrange op.label fun
    | a :: b :: rest => some (b :: a :: b :: rest)
    | _ => none
  | .rot => Run.rearrange op.label fun
    | a :: b :: c :: rest => some (c :: a :: b :: rest)
    | _ => none
  | .swap => Run.rearrange op.label fun
    | a :: b :: rest => some (b :: a :: rest)
    | _ => none
  | .size => Run.rearrange op.label fun
    | a :: rest => some (Number.encode a.length :: a :: rest)
    | [] => none
  | .equal =>
    let b ← Run.pop op.label
    let a ← Run.pop op.label
    Run.push (ofBool (a == b))
  | .equalVerify =>
    let b ← Run.pop op.label
    let a ← Run.pop op.label
    if a ≠ b then throw (.verifyFailed op.label)
  | .addOne =>
    let n ← Run.ofExcept (Number.decode 4 (← Run.pop op.label))
    Run.push (Number.encode (n + 1))
  | .greaterThan =>
    let b ← Run.ofExcept (Number.decode 4 (← Run.pop op.label))
    let a ← Run.ofExcept (Number.decode 4 (← Run.pop op.label))
    Run.push (ofBool (b < a))
  | .digest d =>
    let item ← Run.pop op.label
    Run.push (d.apply item)
  | .checkSig =>
    let verified ← popAndCheck context script op.label
    Run.push (ofBool verified)
  | .checkSigVerify =>
    let verified ← popAndCheck context script op.label
    if !verified then throw (.verifyFailed op.label)
  | .checkMultisig => checkMultisig context script
  | .checkLockTime =>
    let c ← needContext context op
    checkTime op c.tx.locktime
  | .checkSequence =>
    let c ← needContext context op
    let i ← Run.ofExcept (c.tx.input c.index)
    checkTime op i.sequence

/-- Runs one instruction of a script. -/
def step (context : Option Context) (script : Bytes) (i : Instruction) : Run Unit := do
  let m ← get
  match i with
  | .push _ data => if m.executing then Run.push data
  | .op byte =>
    match Opcode.ofByte? byte with
    | some (.branch b) => runBranch b
    | some op => if m.executing then runOpcode context script op
    | none => if m.executing then throw (.notImplemented byte)

/-- The item on top at the end of a script, or the empty byte string if there
is none; no block may be open then. -/
def finish : Run Bytes := do
  let m ← get
  if m.flags.isEmpty then return m.stack.headD [] else throw (.script .unbalancedConditional)

/-- Runs a script and gives the item then on top, or the empty byte string if
there is none. Blocks left open by a script before it are forgotten; its items
are not. -/
def execute (context : Option Context) (script : Bytes) : Run Bytes := do
  modify fun m => { m with flags := [] }
  let d := decode script
  d.instructions.forM (step context script)
  match d.fault with
  | some e => throw e
  | none => finish

/-- Runs a script and takes the result for a truth value. -/
def executeBool (context : Option Context) (script : Bytes) : Run Bool := isTrue <$> execute context script

end Bitcoin.Script

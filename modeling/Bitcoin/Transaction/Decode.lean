import Bitcoin.Transaction

/-!
# Decoding transactions

`decode` reads either wire form. A zero byte where the number of inputs would
stand marks the form with witnesses. Prevouts are not part of the wire form,
so decoded inputs have none.
-/

namespace Bitcoin.Transaction

/-- An input without its witness. -/
def readInput : Read Input := do
  let txid ← Read.bytes 32
  let vout ← Read.uint32
  let scriptSig ← Read.counted
  let sequence ← Read.uint32
  return .make ⟨txid.reverse, vout⟩ none scriptSig [] sequence

/-- An output. -/
def readOutput : Read Output := do
  let value ← Read.int64
  let script ← Read.counted
  return .ofScript value script

/-- Takes the marker and the flag of the form with witnesses, if the marker is
there, and says whether it was. -/
def readMarker : Read Bool := do
  if (← Read.peek) = some 0x00 then
    let _ ← Read.uint8
    let flag ← Read.uint8
    if flag = 0x01 then return true else throw (.decode (.witnessFlag flag))
  else return false

/-- The witnesses of some inputs, in order, behind the inputs already done,
which are kept in reverse. -/
def readWitnesses : List Input → List Input → Read (List Input)
  | [], done => pure done.reverse
  | i :: is, done => do
    let witness ← Read.list Read.counted
    readWitnesses is ({ i with witness } :: done)

/-- The inputs with their witnesses, if the form has any. -/
def readMarked (marked : Bool) (inputs : List Input) : Read (List Input) :=
  if marked then readWitnesses inputs [] else return inputs

/-- A transaction, whatever stands behind it. -/
def readFront : Read Transaction := do
  let version ← Read.int32
  let marked ← readMarker
  let inputs ← Read.list readInput
  let outputs ← Read.list readOutput
  let inputs ← readMarked marked inputs
  let locktime ← Read.uint32
  return { version, locktime, inputs, outputs }

/-- A transaction with nothing behind it. -/
def read : Read Transaction := do
  let tx ← readFront
  let c ← Read.cursor
  if c.rest.isEmpty then return tx else throw (.decode (.trailingBytes c.rest.length))

/-- The transaction with a wire form. -/
def decode (bytes : Bytes) : Except Error Transaction := do
  let (tx, _) ← Read.run read bytes
  tx.checkAmounts

end Bitcoin.Transaction

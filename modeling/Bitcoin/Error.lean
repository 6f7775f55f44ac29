import Bitcoin.OutputType
import Bitcoin.Text

/-!
# Errors

An error is its cause: one type for each area, and `Error` over them all. The
wording of every cause stands here, in the `message` functions, and nowhere
else.
-/

namespace Bitcoin

/-- Why bytes or their text could not be decoded. -/
inductive DecodeFault where
  /-- `wanted` bytes were to be read at `offset`, where `left` remain. -/
  | unexpectedEnd (wanted offset left : Nat)
  /-- A push of `wanted` bytes at `offset` of a script runs past its end. -/
  | pushPastEnd (wanted offset : Nat)
  | numberTooLong (size limit : Nat)
  | witnessFlag (flag : UInt8)
  | trailingBytes (count : Nat)
  | hex (fault : Hex.Fault)
  | hashLength (length : Nat)
  deriving Repr, DecidableEq

/-- Why a script stopped. -/
inductive ScriptFault where
  | unbalancedConditional
  | elseOutsideIf
  | endIfOutsideIf
  | returned
  /-- Something that needs a transaction ran without one. -/
  | noTransaction (what : String)
  | multisigInTapscript
  | notAPush (opcode : UInt8)
  deriving Repr, DecidableEq

/-- Why a signature, or the key it is for, is malformed. -/
inductive SignatureFault where
  | notASequence
  | tooShort (length : Nat)
  | notAnInteger
  | integerTruncated
  | integerTooLong (length : Nat)
  | empty
  | schnorrLength (length : Nat)
  | tapscriptKeyLength (length : Nat)
  | taprootType (type : UInt8)
  | singleWithoutOutput (index : Nat)
  | internalKey
  | tweakTooLarge
  | tweakFailed
  deriving Repr, DecidableEq

/-- Why a multisignature check is malformed. -/
inductive MultisigFault where
  | keyCount (n : Int)
  | signatureCount (m n : Int)
  deriving Repr, DecidableEq

/-- Why a text is no address, or a script has none. -/
inductive AddressFault where
  | noForm (type : OutputType) (length : Nat)
  | base58 (fault : Base58.Fault)
  | payloadLength (length : Nat)
  | unknownVersion (version : UInt8)
  | notSegwit
  | humanPart (found : String)
  /-- A witness program of a length its version does not allow. -/
  | programLength (taproot : Bool)
  deriving Repr, DecidableEq

/-- Why an input to the library does not make sense. -/
inductive InputFault where
  | oddHexLength (length : Nat)
  | inputIndex (index : Nat)
  | wrappedScriptSigLength (index length : Nat)
  | unspendable (index : Nat) (type : OutputType)
  | valueSum
  | fee
  | missingWitnessItem (index : Nat)
  | emptyWitness
  | emptyScriptSig
  | keyHashProgram
  | notTaproot (index : Nat)
  | keyPathItems (count : Nat)
  | taprootOutput
  | controlBlockLength (length : Nat)
  | scriptPathItems
  | merkleRootOfNothing
  | subsidyAndFees (fees : Int)
  | emptyPayout
  deriving Repr, DecidableEq

/-- Everything that can go wrong, by area. -/
inductive Error where
  | decode (fault : DecodeFault)
  | script (fault : ScriptFault)
  /-- The operation with this label found too few items on the stack. -/
  | stackUnderflow (label : String)
  /-- The verification with this label came out false. -/
  | verifyFailed (label : String)
  | notImplemented (opcode : UInt8)
  | signature (fault : SignatureFault)
  | missingPrevout (index : Nat)
  | multisig (fault : MultisigFault)
  | address (fault : AddressFault)
  | input (fault : InputFault)
  /-- A document is not of the form it should have. -/
  | malformedDocument
  deriving Repr, DecidableEq

/-- The wording of a decoding fault. -/
def DecodeFault.message : DecodeFault → String
  | .unexpectedEnd wanted offset left =>
    s!"unexpected end of data: wanted {wanted} bytes at offset {offset}, {left} left"
  | .pushPastEnd wanted offset => s!"push of {wanted} bytes at offset {offset} runs past end of script"
  | .numberTooLong size limit => s!"script number of {size} bytes exceeds {limit}"
  | .witnessFlag flag => "invalid segwit flag 0x" ++ Hex.byte flag
  | .trailingBytes count => s!"{count} trailing bytes after locktime"
  | .hex fault => "invalid hex: " ++ fault.message
  | .hashLength length => s!"expected 32 bytes, got {length}"

/-- The wording of a script fault. -/
def ScriptFault.message : ScriptFault → String
  | .unbalancedConditional => "unbalanced conditional"
  | .elseOutsideIf => "OP_ELSE without OP_IF"
  | .endIfOutsideIf => "OP_ENDIF without OP_IF"
  | .returned => "OP_RETURN encountered"
  | .noTransaction what => s!"{what} requires a transaction context"
  | .multisigInTapscript => "OP_CHECKMULTISIG is disabled in tapscript"
  | .notAPush opcode => "non-push opcode 0x" ++ Hex.byte opcode ++ " in push-only script"

/-- The wording of a signature fault. -/
def SignatureFault.message : SignatureFault → String
  | .notASequence => "DER signature must start with 0x30"
  | .tooShort length => s!"DER signature too short ({length} bytes)"
  | .notAnInteger => "expected DER integer"
  | .integerTruncated => "DER integer truncated"
  | .integerTooLong length => s!"DER integer of {length} bytes does not fit 32"
  | .empty => "empty signature"
  | .schnorrLength length => s!"schnorr signature of {length} bytes"
  | .tapscriptKeyLength length => s!"tapscript pubkey of {length} bytes"
  | .taprootType type => "invalid taproot sighash type 0x" ++ Hex.byte type
  | .singleWithoutOutput index => s!"SIGHASH_SINGLE without output {index}"
  | .internalKey => "invalid internal key: malformed public key"
  | .tweakTooLarge => "tweak exceeds curve order"
  | .tweakFailed => "tweak failed: bad tweak"

/-- The wording of a multisignature fault. -/
def MultisigFault.message : MultisigFault → String
  | .keyCount n => s!"pubkey count {n} out of range"
  | .signatureCount m n => s!"{m} signatures required of {n} keys"

/-- The wording of an address fault. -/
def AddressFault.message : AddressFault → String
  | .noForm type length => "no address form for " ++ type.name ++ s!" script of {length} bytes"
  | .base58 fault => "base58check: " ++ fault.message
  | .payloadLength length => s!"base58 payload of {length} bytes"
  | .unknownVersion version => "unknown address version 0x" ++ Hex.byte version
  | .notSegwit => "bech32 decode: decoding segwit address failed"
  | .humanPart found => s!"unexpected hrp {found}"
  | .programLength false => "bech32 encode: witness length"
  | .programLength true => "bech32m encode: witness length"

/-- The wording of an input fault. -/
def InputFault.message : InputFault → String
  | .oddHexLength length => s!"cannot reverse odd-length hex string ({length} chars)"
  | .inputIndex index => s!"input index {index} out of range"
  | .wrappedScriptSigLength index length =>
    s!"P2SH input {index} with witness has unexpected scriptSig length {length}"
  | .unspendable index type => s!"input {index} spends unspendable output type " ++ type.name
  | .valueSum => "value sum overflows i64"
  | .fee => "fee overflows i64"
  | .missingWitnessItem index => s!"missing witness item {index}"
  | .emptyWitness => "empty witness"
  | .emptyScriptSig => "empty scriptSig"
  | .keyHashProgram => "bad P2WPKH program"
  | .notTaproot index => s!"input {index} prevout is not a taproot output"
  | .keyPathItems count => s!"key-path spend with {count} witness items"
  | .taprootOutput => "malformed taproot output"
  | .controlBlockLength length => s!"invalid control block length {length}"
  | .scriptPathItems => "script-path witness needs script and control block"
  | .merkleRootOfNothing => "merkle root of an empty list"
  | .subsidyAndFees fees => s!"subsidy plus {fees} sat fees overflows"
  | .emptyPayout => "empty payout script"

/-- The text of an error: its area and the wording of its cause. -/
def Error.message : Error → String
  | .decode fault => "Decode error: " ++ fault.message
  | .script fault => "Script execution failed: " ++ fault.message
  | .stackUnderflow label => "Stack underflow executing " ++ label
  | .verifyFailed label => "Verify failed: " ++ label
  | .notImplemented opcode => "Opcode not implemented: 0x" ++ Hex.byte opcode
  | .signature fault => "Invalid signature: " ++ fault.message
  | .missingPrevout index => s!"Missing prevout for input {index}"
  | .multisig fault => "Invalid multisig: " ++ fault.message
  | .address fault => "Address error: " ++ fault.message
  | .input fault => "Invalid input: " ++ fault.message
  | .malformedDocument => "Malformed document"

/-!
## Data in hexadecimal fields

Byte strings and hashes that a document gives as hexadecimal text, with the
errors of such fields.
-/

/-- The byte string of a field. -/
def bytesOfHex (text : String) : Except Error Bytes :=
  (Hex.decode text).mapError fun fault => .decode (.hex fault)

/-- The hash of a field. -/
def hashOfHex (text : String) : Except Error Hash256 := do
  let b ← bytesOfHex text
  match FixedBytes.ofBytes? 32 b with
  | some h => return h
  | none => throw (.decode (.hashLength b.length))

/-- The field with its bytes in the opposite order, as between the two orders
of an identifier. -/
def reverseHex (text : String) : Except Error String := do
  if text.utf8ByteSize % 2 ≠ 0 then throw (.input (.oddHexLength text.utf8ByteSize))
  let b ← bytesOfHex text
  return Hex.encode b.reverse

end Bitcoin

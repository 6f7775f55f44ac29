import Bitcoin.Error
import Bitcoin.Json.Fields

/-!
# Configuration of a miner

How blocks are put together and mined. A document may set any of the fields;
those that it does not set keep their defaults. Hashes and scripts are kept as
the text they are given in and decoded when they are used.
-/

namespace Bitcoin

/-- The configuration of a miner. -/
structure MinerConfig where
  blockVersion : Int32
  /-- The hash of the previous block as it is written into the header. -/
  previousHash : String
  bits : UInt32
  /-- The number that block hashes have to be below. -/
  target : String
  timestamp : UInt32
  maxNonce : UInt32
  maxBlockWeight : UInt64
  /-- Weight kept free for the header and the coinbase. -/
  reservedWeight : UInt64
  blockSubsidy : Int64
  coinbaseScriptSig : String
  payoutScript : String
  deriving Repr, DecidableEq

namespace MinerConfig

/-- The default target. -/
def defaultTarget : String := "0000ffff00000000000000000000000000000000000000000000000000000000"

/-- The defaults at a point in time. -/
def defaults (now : UInt32) : MinerConfig where
  blockVersion := 4
  previousHash := defaultTarget
  bits := 0x1f00ffff
  target := defaultTarget
  timestamp := now
  maxNonce := 0xffffffff
  maxBlockWeight := 4000000
  reservedWeight := 4000
  blockSubsidy := 1250000000
  coinbaseScriptSig := "03233708"
  payoutScript := "76a914edf10a7fac6b32e24daa5305c723f3de58db1bc888ac"

/-- The names of the fields in documents, in order. -/
def fieldNames : List String :=
  ["block_version", "prev_block_hash", "bits", "target", "timestamp", "max_nonce", "max_block_weight",
   "reserved_weight", "block_subsidy", "coinbase_script_sig", "payout_script_pubkey"]

/-- The configuration of a document over some defaults. -/
def ofJson? (d : MinerConfig) (v : Json) : Option MinerConfig := do
  let field ← v.fields? fieldNames
  return {
    blockVersion := ← Json.defaulted d.blockVersion Json.int32? (field "block_version")
    previousHash := ← Json.defaulted d.previousHash Json.text? (field "prev_block_hash")
    bits := ← Json.defaulted d.bits Json.uint32? (field "bits")
    target := ← Json.defaulted d.target Json.text? (field "target")
    timestamp := ← Json.defaulted d.timestamp Json.uint32? (field "timestamp")
    maxNonce := ← Json.defaulted d.maxNonce Json.uint32? (field "max_nonce")
    maxBlockWeight := ← Json.defaulted d.maxBlockWeight Json.uint64? (field "max_block_weight")
    reservedWeight := ← Json.defaulted d.reservedWeight Json.uint64? (field "reserved_weight")
    blockSubsidy := ← Json.defaulted d.blockSubsidy Json.int64? (field "block_subsidy")
    coinbaseScriptSig := ← Json.defaulted d.coinbaseScriptSig Json.text? (field "coinbase_script_sig")
    payoutScript := ← Json.defaulted d.payoutScript Json.text? (field "payout_script_pubkey") }

/-- The configuration of a document's text. -/
def parse (d : MinerConfig) (text : String) : Except Error MinerConfig :=
  match (Json.parse? text).bind (ofJson? d) with
  | some c => .ok c
  | none => .error .malformedDocument

/-- The document with all fields. -/
def toJson (c : MinerConfig) : Json :=
  .ofMembers (fieldNames.zip
    [.ofInt c.blockVersion.toInt, .ofString c.previousHash, .ofNat c.bits.toNat, .ofString c.target,
     .ofNat c.timestamp.toNat, .ofNat c.maxNonce.toNat, .ofNat c.maxBlockWeight.toNat,
     .ofNat c.reservedWeight.toNat, .ofInt c.blockSubsidy.toInt, .ofString c.coinbaseScriptSig,
     .ofString c.payoutScript])

/-- The weight there is for transactions other than the coinbase. -/
def weightBudget (c : MinerConfig) : Nat := c.maxBlockWeight.toNat - c.reservedWeight.toNat

/-- The target. -/
def targetHash (c : MinerConfig) : Except Error Hash256 := hashOfHex c.target

/-- The hash of the previous block. -/
def previousBlock (c : MinerConfig) : Except Error Hash256 := hashOfHex c.previousHash

/-- The script of the coinbase input. -/
def coinbaseScript (c : MinerConfig) : Except Error Bytes := bytesOfHex c.coinbaseScriptSig

/-- The script that the block's reward is paid to. -/
def payout (c : MinerConfig) : Except Error Bytes := do
  let script ← bytesOfHex c.payoutScript
  if script.isEmpty then throw (.input .emptyPayout)
  return script

end MinerConfig

end Bitcoin

import Bitcoin.MinerConfig
import Bitcoin.Transaction

/-!
# Blocks

A template is a block without its proof of work: the coinbase transaction,
which pays the subsidy and all fees and commits to the witnesses, the chosen
transactions, and a header over them. Mining looks for the least nonce with
which the header meets the target.
-/

/-!
## Merkle roots

The root of a list of hashes: neighbours are hashed together level by level
until one hash is left. The last of an odd number is paired with itself.
-/

namespace Bitcoin.Merkle

/-- The node over two others. -/
def node (a b : Hash256) : Hash256 := doubleSha256 (a.val ++ b.val)

/-- The level above a level. -/
def level : List Hash256 → List Hash256
  | a :: b :: rest => node a b :: level rest
  | [a] => [node a a]
  | [] => []

theorem length_level (hs : List Hash256) : (level hs).length = (hs.length + 1) / 2 := by
  fun_induction level hs with
  | case1 a b rest ih => simp only [List.length_cons, ih]; omega
  | case2 => simp
  | case3 => simp

/-- The root over a level, if it has one. -/
def root? : List Hash256 → Option Hash256
  | [] => none
  | [h] => some h
  | a :: b :: rest => root? (level (a :: b :: rest))
termination_by hs => hs.length
decreasing_by
  rw [length_level]
  simp only [List.length_cons]
  omega

/-- The root of a list of hashes; the empty list has none. -/
def root (hs : List Hash256) : Except Error Hash256 :=
  match root? hs with
  | some h => .ok h
  | none => .error (.input .merkleRootOfNothing)

end Bitcoin.Merkle

/-!
## Witness commitments

The coinbase transaction of a block commits to the witnesses of the others: an
output holds the hash of the Merkle root over their identifiers with witnesses
and of a reserved value. In the root, zeros stand for the coinbase itself.
-/

namespace Bitcoin.WitnessCommitment

/-- The value reserved in the coinbase's witness. -/
def reserved : Hash256 := .zero 32

/-- The bytes that mark a commitment. -/
def header : Bytes := [0xaa, 0x21, 0xa9, 0xed]

/-- The Merkle root over the transactions behind the coinbase. -/
def root (txs : List Transaction) : Except Error Hash256 :=
  Merkle.root (.zero 32 :: txs.map fun tx => tx.wtxid.reverse)

/-- The commitment to the transactions behind the coinbase. -/
def compute (txs : List Transaction) : Except Error Hash256 := do
  let r ← root txs
  return doubleSha256 (r.val ++ reserved.val)

/-- The script of an output that holds a commitment. -/
def script (commitment : Hash256) : Bytes := [0x6a, 0x24] ++ header ++ commitment.val

/-- The commitment in a script, if it is one that holds a commitment and
nothing else. -/
def ofScript? (script : Bytes) : Option Hash256 :=
  if script.take 6 = [0x6a, 0x24] ++ header then FixedBytes.ofBytes? 32 (script.drop 6) else none

/-- The commitment of a coinbase transaction: that of the last output with one. -/
def ofCoinbase? (coinbase : Transaction) : Option Hash256 :=
  coinbase.outputs.reverse.findSome? fun o => ofScript? o.script

/-- Whether a coinbase transaction holds the commitment to the transactions
behind it. -/
def isHeld (coinbase : Transaction) (txs : List Transaction) : Except Error Bool := do
  let expected ← compute txs
  return ofCoinbase? coinbase = some expected

end Bitcoin.WitnessCommitment

/-!
## Block headers

The 80 bytes whose hash is a block's proof of work. Hashes stand in them in the
order they are hashed in; the block's own hash is given in display order.
-/

namespace Bitcoin

/-- The header of a block. -/
structure BlockHeader where
  version : Int32
  previous : Hash256
  merkleRoot : Hash256
  timestamp : UInt32
  bits : UInt32
  nonce : UInt32
  deriving Repr, DecidableEq

namespace BlockHeader

/-- The wire form before the nonce. -/
def serializeBody (h : BlockHeader) : Bytes :=
  Bytes.littleEndian 4 h.version.toUInt32.toNat ++ h.previous.val ++ h.merkleRoot.val ++
    Bytes.littleEndian 4 h.timestamp.toNat ++ Bytes.littleEndian 4 h.bits.toNat

/-- The wire form. -/
def serialize (h : BlockHeader) : Bytes := h.serializeBody ++ Bytes.littleEndian 4 h.nonce.toNat

/-- The hash of the block, in display order. -/
def hash (h : BlockHeader) : Hash256 := (doubleSha256 h.serialize).reverse

/-- The header with another nonce. -/
def withNonce (h : BlockHeader) (nonce : UInt32) : BlockHeader := { h with nonce }

/-- Whether the hash, as a number, is below a target. -/
def meets (h : BlockHeader) (target : Hash256) : Bool := h.hash.lt target

/-- The first of `count` nonces from `first` on with which a header meets a
target. -/
def searchFrom (h : BlockHeader) (target : Hash256) : Nat → Nat → Option UInt32
  | _, 0 => none
  | first, count + 1 =>
    if (h.withNonce (UInt32.ofNat first)).meets target then some (UInt32.ofNat first)
    else searchFrom h target (first + 1) count

/-- The least nonce up to a limit with which a header meets a target. -/
def search (h : BlockHeader) (target : Hash256) (maxNonce : UInt32) : Option UInt32 :=
  searchFrom h target 0 (maxNonce.toNat + 1)

end BlockHeader

/-! ## Templates -/

/-- The coinbase transaction that claims some fees and holds a commitment. -/
def coinbaseTransaction (c : MinerConfig) (fees : Amount) (commitment : Hash256) :
    Except Error Transaction := do
  let scriptSig ← c.coinbaseScript
  match Amount.ofInt? (c.blockSubsidy.toInt + fees.toInt) with
  | none => throw (.input (.subsidyAndFees fees.toInt))
  | some reward =>
    let payout ← c.payout
    return {
      version := 0
      locktime := 0
      inputs := [.make .null none scriptSig [WitnessCommitment.reserved.val] 0]
      outputs := [.ofScript reward payout, .ofScript 0 (WitnessCommitment.script commitment)] }

/-- A block that may lack its proof of work. -/
structure Block where
  header : BlockHeader
  coinbase : Transaction
  transactions : List Transaction
  deriving Repr, DecidableEq

/-- A block and the target its hash has to be below. -/
structure BlockTemplate where
  block : Block
  target : Hash256
  deriving Repr, DecidableEq

namespace Block

/-- The texts that publish a block: the header, the coinbase transaction, and
the identifiers of all transactions. -/
def lines (b : Block) : List String :=
  Hex.encode b.header.serialize :: Hex.encode b.coinbase.serialize ::
    (b.coinbase :: b.transactions).map fun tx => Hex.encode tx.txid.val

end Block

namespace BlockTemplate

/-- The template of a block with the given transactions. -/
def create (c : MinerConfig) (txs : List Transaction) : Except Error BlockTemplate := do
  let commitment ← WitnessCommitment.compute txs
  let coinbase ← coinbaseTransaction c (Transaction.totalFee txs) commitment
  let previous ← c.previousBlock
  let merkleRoot ← Merkle.root ((coinbase :: txs).map fun tx => tx.txid.reverse)
  let header : BlockHeader :=
    { version := c.blockVersion, previous, merkleRoot, timestamp := c.timestamp, bits := c.bits, nonce := 0 }
  return { block := ⟨header, coinbase, txs⟩, target := ← c.targetHash }

/-- The block with the least nonce up to a limit that meets the target. -/
def mine? (t : BlockTemplate) (maxNonce : UInt32) : Option Block :=
  (t.block.header.search t.target maxNonce).map fun nonce =>
    { t.block with header := t.block.header.withNonce nonce }

end BlockTemplate

end Bitcoin

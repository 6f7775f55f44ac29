import Bitcoin.Sighash
import Bitcoin.Signature

/-!
# Taproot

A taproot output commits to a tree of scripts: leaves and branches have tagged
hashes, and the root tweaks the internal key. A control block holds the
internal key and the path from a leaf up to the root.

The witness of a taproot spend, less its annex, is one signature under the
output key (`verifyKeyPath`), or ends in a script and a control block that show
the script to be committed to by the output key (`verifyScriptPath`).
-/

/-! ## Commitments -/

namespace Bitcoin.Taproot

/-- The hash of a leaf: its version and its script behind its length. -/
def leafHash (version : UInt8) (script : Bytes) : Hash256 :=
  taggedHash "TapLeaf" (version :: CompactSize.counted script)

/-- The hash of a branch over two nodes, the lesser of them first. -/
def branchHash (a b : Hash256) : Hash256 :=
  taggedHash "TapBranch" (if b.lt a then b.val ++ a.val else a.val ++ b.val)

/-- The tweak of an internal key for a root, or for no tree. -/
def tweakHash (key : FixedBytes 32) (root : Option Hash256) : Hash256 :=
  taggedHash "TapTweak" (key.val ++ (root.elim [] Subtype.val))

/-- The path from a leaf to the root, with the internal key. -/
structure ControlBlock where
  leafVersion : UInt8
  /-- Whether the output key is odd. -/
  odd : Bool
  internalKey : FixedBytes 32
  path : List Hash256
  deriving Repr, DecidableEq

namespace ControlBlock

/-- The most nodes a path may have. -/
def maxNodes : Nat := 128

/-- A byte string of whole hashes as these hashes. -/
def hashes? : Nat → Bytes → Option (List Hash256)
  | 0, b => if b.isEmpty then some [] else none
  | n + 1, b => do
    let (h, rest) ← Bytes.split? 32 b
    return h :: (← hashes? n rest)

/-- The parts of a control block: a byte with version and parity, the key, and
at most 128 nodes. -/
def parse? (b : Bytes) : Option ControlBlock :=
  match b with
  | [] => none
  | head :: rest => do
    let (internalKey, rest) ← Bytes.split? 32 rest
    guard (rest.length / 32 ≤ maxNodes)
    let path ← hashes? (rest.length / 32) rest
    return { leafVersion := head &&& 0xfe, odd := head &&& 0x01 != 0, internalKey, path }

/-- The control block of a byte string. -/
def parse (b : Bytes) : Except Error ControlBlock :=
  match parse? b with
  | some c => .ok c
  | none => .error (.input (.controlBlockLength b.length))

/-- The root above a leaf. -/
def root (c : ControlBlock) (leaf : Hash256) : Hash256 := c.path.foldl branchHash leaf

end ControlBlock

/-! ## Spends -/

/-- The output key of a taproot script. -/
def outputKey? (script : Bytes) : Option (FixedBytes 32) :=
  match script with
  | 0x51 :: 0x20 :: key => FixedBytes.ofBytes? 32 key
  | _ => none

/-- The witness without its annex, and the annex: the last of at least two
items, if it starts with `0x50`. -/
def splitAnnex (witness : List Bytes) : List Bytes × Option Bytes :=
  match witness.getLast? with
  | some last =>
    if 2 ≤ witness.length ∧ last.head? = some 0x50 then (witness.dropLast, some last) else (witness, none)
  | none => (witness, none)

/-- Whether a witness, less its annex, is a single item. -/
def isKeyPath (witness : List Bytes) : Bool := (splitAnnex witness).1.length = 1

/-- The last two items of a witness: a script and a control block. -/
def scriptAndControl? (items : List Bytes) : Option (Bytes × Bytes) :=
  match items.reverse with
  | control :: script :: _ => some (script, control)
  | _ => none

/-- Whether the control block shows the output key to commit to the script. -/
def verifyScriptPath (outputKey : FixedBytes 32) (script control : Bytes) (v : Verifier) : Check Bool := do
  let c ← Check.ofExcept (ControlBlock.parse control)
  let root := c.root (leafHash c.leafVersion script)
  let t := tweakHash c.internalKey (some root)
  if Secp256k1.n ≤ Bytes.ofBigEndian t.val then return false
  let (key, odd) ← Check.tweak v c.internalKey t
  return key = outputKey && odd = c.odd

/-- Whether the witness of an input is a signature under its output key. -/
def verifyKeyPath (tx : Transaction) (index : Nat) (v : Verifier) : Check Bool := do
  let i ← Check.ofExcept (tx.input index)
  let o ← Check.ofExcept (tx.prevout index)
  match outputKey? o.script with
  | none => throw (.input (.notTaproot index))
  | some key =>
    match splitAnnex i.witness with
    | ([sig], annex) =>
      let (sig, type) ← Check.ofExcept (Signature.splitSchnorr sig)
      let digest ← Check.ofExcept (Sighash.Taproot.digest tx index ⟨type⟩ annex none)
      Check.schnorr v key digest sig
    | (items, _) => throw (.input (.keyPathItems items.length))

/-- The hash of the leaf that a witness spends. -/
def leafOfWitness (witness : List Bytes) : Except Error Hash256 :=
  match scriptAndControl? (splitAnnex witness).1 with
  | none => .error (.input .scriptPathItems)
  | some (script, control) => do
    let c ← ControlBlock.parse control
    return leafHash c.leafVersion script

end Bitcoin.Taproot

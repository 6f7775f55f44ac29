import Bitcoin.Error

/-!
# Addresses

The main-network addresses of locking scripts: key and script hashes in Base58
with a version byte and a checksum, witness programs in Bech32 or Bech32m.
`encode` goes by the type that an output declares, `decode` by the text.
-/

/-!
## Bech32 text

A Bech32 text is a human-readable part, the separator `1`, and groups of five
bits written one character each, of which the last six are a checksum. Two
checksums are in use, which differ in one constant. `decode?` takes texts that
are all lower or all upper case and at most 90 characters long; `toGroups` and
`ofGroups?` cut bytes into groups of five bits and back.
-/

namespace Bitcoin.Bech32

/-- The constant a checksum is compared with. -/
inductive Checksum where
  | bech32
  | bech32m
  deriving Repr, DecidableEq

/-- The constant itself. -/
def Checksum.constant : Checksum → UInt32
  | .bech32 => 1
  | .bech32m => 0x2bc830a3

/-- The 32 characters of groups. -/
def alphabet : List Char := "qpzry9x8gf2tvdw0s3jn54khce6mua7l".toList

/-- Coefficients of the checksum's generator. -/
def generator : List UInt32 := [0x3b6a57b2, 0x26508e6d, 0x1ea119fa, 0x3d4233dd, 0x2a1462b3]

/-- The remainder with one more group taken in. -/
def polymodStep (r : UInt32) (group : Nat) : UInt32 :=
  let shifted := (r &&& 0x1ffffff) <<< 5 ^^^ UInt32.ofNat group
  (generator.zipIdx).foldl (fun acc (g, i) => if (r >>> 25).toNat.testBit i then acc ^^^ g else acc) shifted

/-- The remainder of a list of groups. -/
def polymod (groups : List Nat) : UInt32 := groups.foldl polymodStep 1

/-- The human-readable part as groups: the high bits of all characters, a
zero, and their low bits. -/
def expand (human : List Char) : List Nat :=
  human.map (fun c => c.toNat / 32) ++ 0 :: human.map fun c => c.toNat % 32

/-- The six groups of the checksum. -/
def checksum (kind : Checksum) (human : List Char) (groups : List Nat) : List Nat :=
  let r := polymod (expand human ++ groups ++ List.replicate 6 0) ^^^ kind.constant
  [25, 20, 15, 10, 5, 0].map fun (shift : UInt32) => (r >>> shift &&& 31).toNat

/-- The text of groups under a human-readable part. -/
def encode (kind : Checksum) (human : String) (groups : List Nat) : String :=
  human ++ "1" ++
    String.ofList ((groups ++ checksum kind human.toList groups).map fun g => alphabet.getD g 'q')

/-- A character that may stand in a human-readable part. -/
def isHuman (c : Char) : Bool := 33 ≤ c.toNat && c.toNat ≤ 126

/-- The text before the last separator and the groups after it, checksum
included, in lower case. -/
def parts? (text : String) : Option (List Char × List Nat) := do
  let cs := text.toList
  guard (cs.length ≤ 90)
  guard (!(cs.any Char.isLower && cs.any Char.isUpper))
  let tail := cs.reverse.takeWhile (· != '1')
  let human := cs.take (cs.length - tail.length - 1)
  guard (tail.length < cs.length ∧ human ≠ [] ∧ human.all isHuman)
  let groups ← tail.reverse.mapM fun c => alphabet.idxOf? c.toLower
  return (human, groups)

/-- Whether the groups end in their checksum. -/
def verifies (kind : Checksum) (human : List Char) (groups : List Nat) : Bool :=
  polymod (expand (human.map Char.toLower) ++ groups) == kind.constant

/-- The lowest `w` bits of a number, most significant first. -/
def bits (w n : Nat) : List Bool := (List.range w).reverse.map n.testBit

/-- The number of some bits, most significant first. -/
def ofBits (bs : List Bool) : Nat := bs.foldl (fun n b => 2 * n + b.toNat) 0

/-- Bits in groups of five, the last one filled up with zeros. -/
def fives : List Bool → List Nat
  | a :: b :: c :: d :: e :: rest => ofBits [a, b, c, d, e] :: fives rest
  | [] => []
  | rest => [ofBits (rest ++ List.replicate (5 - rest.length) false)]

/-- Bits in bytes, and those left over. -/
def eights : List Bool → Bytes × List Bool
  | a :: b :: c :: d :: e :: f :: g :: h :: rest =>
    let (bytes, left) := eights rest
    (UInt8.ofNat (ofBits [a, b, c, d, e, f, g, h]) :: bytes, left)
  | left => ([], left)

/-- Bytes as groups of five bits. -/
def toGroups (b : Bytes) : List Nat := fives (b.flatMap fun x => bits 8 x.toNat)

/-- Groups of five bits as bytes; what is left over must be fewer than five
bits, all zero. -/
def ofGroups? (groups : List Nat) : Option Bytes :=
  let (bytes, left) := eights (groups.flatMap (bits 5))
  if left.length < 5 ∧ left.all (! ·) then some bytes else none

end Bitcoin.Bech32

/-!
## Addresses of witness programs

The groups of such an address are the version, the program in groups of five
bits, and the checksum, which is Bech32 for version 0 and Bech32m for the
versions up to 16. A program has 2 to 40 bytes; one of version 0 has 20 or 32.
-/

namespace Bitcoin.Segwit

/-- The human-readable part of addresses of the main network. -/
def mainnet : String := "bc"

/-- The checksum of a version. -/
def checksumKind (version : Nat) : Bech32.Checksum := if version = 0 then .bech32 else .bech32m

/-- Whether a version allows programs of a length. -/
def allowsLength (version length : Nat) : Bool :=
  if version = 0 then length = 20 || length = 32 else 2 ≤ length && length ≤ 40

/-- The address of a program, if its length is allowed. -/
def encode? (version : Nat) (program : Bytes) : Option String :=
  if allowsLength version program.length then
    some (Bech32.encode (checksumKind version) mainnet (version :: Bech32.toGroups program))
  else none

/-- The human-readable part, version and program of an address. -/
def decode? (address : String) : Option (String × Nat × Bytes) := do
  let (human, groups) ← Bech32.parts? address
  let version ← groups.head?
  guard (version ≤ 16 ∧ 6 < groups.length)
  guard (Bech32.verifies (checksumKind version) human groups)
  let program ← Bech32.ofGroups? ((groups.take (groups.length - 6)).drop 1)
  guard (allowsLength version program.length)
  return (String.ofList human, version, program)

end Bitcoin.Segwit

/-! ## Addresses of locking scripts -/

namespace Bitcoin.Address

/-- The version byte of key hashes. -/
def keyHashVersion : UInt8 := 0x00

/-- The version byte of script hashes. -/
def scriptHashVersion : UInt8 := 0x05

/-- The address of a witness program. -/
def encodeProgram (version : Nat) (program : Bytes) : Except Error String :=
  match Segwit.encode? version program with
  | some text => .ok text
  | none => .error (.address (.programLength (version != 0)))

/-- The address of a script that is of the given type. -/
def encode (type : OutputType) (script : Bytes) : Except Error String :=
  let noForm : Except Error String := .error (.address (.noForm type script.length))
  match type with
  | .p2pkh =>
    if script.length = 25 then .ok (Base58.encodeCheck (keyHashVersion :: (script.drop 3).take 20)) else noForm
  | .p2sh =>
    if script.length = 23 then .ok (Base58.encodeCheck (scriptHashVersion :: (script.drop 2).take 20))
    else noForm
  | .p2wpkh | .p2wsh => if 2 < script.length then encodeProgram 0 (script.drop 2) else noForm
  | .p2tr => if 2 < script.length then encodeProgram 1 (script.drop 2) else noForm
  | .opReturn | .other _ => noForm

/-- The script of a witness program's address. -/
def decodeProgram (address : String) : Except Error Bytes :=
  match Segwit.decode? address with
  | none => .error (.address .notSegwit)
  | some (human, version, program) =>
    if human = Segwit.mainnet then .ok (Script.payToProgram version program)
    else .error (.address (.humanPart human))

/-- The script of a hash's address. -/
def decodeHash (address : String) : Except Error Bytes :=
  match Base58.decodeCheck address with
  | .error fault => .error (.address (.base58 fault))
  | .ok payload =>
    match payload with
    | version :: hash =>
      if hash.length ≠ 20 then .error (.address (.payloadLength payload.length))
      else if version = keyHashVersion then .ok (Script.payToKeyHash hash)
      else if version = scriptHashVersion then .ok (Script.payToScriptHash hash)
      else .error (.address (.unknownVersion version))
    | [] => .error (.address (.payloadLength 0))

/-- The script that an address stands for. -/
def decode (address : String) : Except Error Bytes :=
  if Segwit.mainnet.toList.isPrefixOf address.toList then decodeProgram address else decodeHash address

end Bitcoin.Address

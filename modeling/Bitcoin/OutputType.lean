import Bitcoin.Bytes

/-!
# Standard locking scripts

The scripts that pay to a key hash, to a script hash and to a witness program,
and the types of outputs by their locking scripts. Records declare the type by
name (`ofName`), and validation takes their word for it; an output read from
wire bytes declares none and is classified by its template (`classify`).
-/

namespace Bitcoin.Script

/-- Pays to the key with this hash. -/
def payToKeyHash (h : Bytes) : Bytes := [0x76, 0xa9, 0x14] ++ h ++ [0x88, 0xac]

/-- Pays to the script with this hash. -/
def payToScriptHash (h : Bytes) : Bytes := [0xa9, 0x14] ++ h ++ [0x87]

/-- Pays to a witness program of a version up to 16. -/
def payToProgram (version : Nat) (program : Bytes) : Bytes :=
  (if version = 0 then 0x00 else UInt8.ofNat (0x50 + version)) :: UInt8.ofNat program.length :: program

end Bitcoin.Script

/-! ## Types of outputs -/

namespace Bitcoin

/-- The type of an output, by its locking script. -/
inductive OutputType where
  | p2pkh
  | p2sh
  | p2wpkh
  | p2wsh
  | p2tr
  | opReturn
  /-- Any other type, under the name it was given. -/
  | other (name : String)
  deriving Repr, DecidableEq

namespace OutputType

/-- The name of a type in records. -/
def name : OutputType → String
  | p2pkh => "p2pkh"
  | p2sh => "p2sh"
  | p2wpkh => "v0_p2wpkh"
  | p2wsh => "v0_p2wsh"
  | p2tr => "v1_p2tr"
  | opReturn => "op_return"
  | other name => name

/-- The type with a name. -/
def ofName (name : String) : OutputType :=
  if name = "p2pkh" then p2pkh
  else if name = "p2sh" then p2sh
  else if name = "v0_p2wpkh" then p2wpkh
  else if name = "v0_p2wsh" then p2wsh
  else if name = "v1_p2tr" then p2tr
  else if name = "op_return" then opReturn
  else other name

/-- The length of the locking scripts of a spendable type. -/
def scriptLength? : OutputType → Option Nat
  | p2pkh => some 25
  | p2sh => some 23
  | p2wpkh => some 22
  | p2wsh => some 34
  | p2tr => some 34
  | opReturn | other _ => none

/-- Whether the type is a witness program. -/
def isSegwit : OutputType → Bool
  | p2wpkh | p2wsh | p2tr => true
  | _ => false

/-- The type whose template a script fits: its length, its first bytes and its
last ones. -/
def classify (script : Bytes) : OutputType :=
  if script.length = 25 ∧ script.take 3 = [0x76, 0xa9, 0x14] ∧ script.drop 23 = [0x88, 0xac] then p2pkh
  else if script.length = 23 ∧ script.take 2 = [0xa9, 0x14] ∧ script.drop 22 = [0x87] then p2sh
  else if script.length = 22 ∧ script.take 2 = [0x00, 0x14] then p2wpkh
  else if script.length = 34 ∧ script.take 2 = [0x00, 0x20] then p2wsh
  else if script.length = 34 ∧ script.take 2 = [0x51, 0x20] then p2tr
  else if script.take 1 = [0x6a] then opReturn
  else other "unknown"

end OutputType

end Bitcoin

import Bitcoin.Error

/-!
# Scripts

A script is read as a list of pushes of data and other operations. A push says
its length in its opcode or in one, two or four bytes behind it; if its data
run past the end of the script, reading stops there with a fault. `encode`
writes instructions back.
-/

/-!
## Opcodes

The operations that scripts may use besides pushes of data, grouped by what
they do. `ofByte?` reads the byte of an operation, `name` is its name in
records and `label` its name in errors.
-/

namespace Bitcoin.Script

/-- The hash an operation replaces its operand by. -/
inductive Digest where
  | ripemd160
  | sha1
  | sha256
  | hash160
  | hash256
  deriving Repr, DecidableEq

/-- The operations that open, turn and close conditional blocks. -/
inductive Branch where
  /-- Takes the block if the condition is true. -/
  | whenTrue
  /-- Takes the block if the condition is false. -/
  | whenFalse
  | otherwise
  | close
  deriving Repr, DecidableEq

/-- An operation. -/
inductive Opcode where
  /-- Pushes the empty byte string. -/
  | pushEmpty
  | pushNegOne
  /-- Pushes the number `n + 1`. -/
  | pushSmall (n : Fin 16)
  | nop
  | branch (b : Branch)
  | verify
  | opReturn
  | ifDup
  | drop
  | dup
  /-- Copies the item below the top onto the top. -/
  | dupBelow
  | rot
  | swap
  | size
  | equal
  | equalVerify
  | addOne
  | greaterThan
  | digest (d : Digest)
  | checkSig
  | checkSigVerify
  | checkMultisig
  | checkLockTime
  | checkSequence
  deriving Repr, DecidableEq

namespace Opcode

/-- The operations other than the small numbers, with their bytes. -/
def table : List (UInt8 × Opcode) :=
  [(0x00, pushEmpty), (0x4f, pushNegOne), (0x61, nop),
   (0x63, branch .whenTrue), (0x64, branch .whenFalse), (0x67, branch .otherwise), (0x68, branch .close),
   (0x69, verify), (0x6a, opReturn), (0x73, ifDup), (0x75, drop), (0x76, dup), (0x78, dupBelow),
   (0x7b, rot), (0x7c, swap), (0x82, size), (0x87, equal), (0x88, equalVerify), (0x8b, addOne),
   (0xa0, greaterThan), (0xa6, digest .ripemd160), (0xa7, digest .sha1), (0xa8, digest .sha256),
   (0xa9, digest .hash160), (0xaa, digest .hash256), (0xac, checkSig), (0xad, checkSigVerify),
   (0xae, checkMultisig), (0xb1, checkLockTime), (0xb2, checkSequence)]

/-- The operation of a byte, if it has one. -/
def ofByte? (b : UInt8) : Option Opcode :=
  if 0x51 ≤ b ∧ b ≤ 0x60 then some (pushSmall (Fin.ofNat 16 (b.toNat - 0x51)))
  else (table.find? (·.1 == b)).map (·.2)

/-- The name of an operation in records. -/
def name : Opcode → String
  | pushEmpty => "OP_0"
  | pushNegOne => "OP_PUSHNUM_NEG1"
  | pushSmall n => s!"OP_PUSHNUM_{n.val + 1}"
  | nop => "OP_NOP"
  | branch .whenTrue => "OP_IF"
  | branch .whenFalse => "OP_NOTIF"
  | branch .otherwise => "OP_ELSE"
  | branch .close => "OP_ENDIF"
  | verify => "OP_VERIFY"
  | opReturn => "OP_RETURN"
  | ifDup => "OP_IFDUP"
  | drop => "OP_DROP"
  | dup => "OP_DUP"
  | dupBelow => "OP_OVER"
  | rot => "OP_ROT"
  | swap => "OP_SWAP"
  | size => "OP_SIZE"
  | equal => "OP_EQUAL"
  | equalVerify => "OP_EQUALVERIFY"
  | addOne => "OP_1ADD"
  | greaterThan => "OP_GREATERTHAN"
  | digest .ripemd160 => "OP_RIPEMD160"
  | digest .sha1 => "OP_SHA1"
  | digest .sha256 => "OP_SHA256"
  | digest .hash160 => "OP_HASH160"
  | digest .hash256 => "OP_HASH256"
  | checkSig => "OP_CHECKSIG"
  | checkSigVerify => "OP_CHECKSIGVERIFY"
  | checkMultisig => "OP_CHECKMULTISIG"
  | checkLockTime => "OP_CLTV"
  | checkSequence => "OP_CSV"

/-- The name of an operation in errors, where the lock times are written out. -/
def label : Opcode → String
  | checkLockTime => "OP_CHECKLOCKTIMEVERIFY"
  | checkSequence => "OP_CHECKSEQUENCEVERIFY"
  | op => op.name

end Opcode

/-! ## Instructions -/

/-- How a push gives the length of its data. -/
inductive PushForm where
  /-- The opcode, from 1 to 75, is the length. -/
  | direct
  | size1
  | size2
  | size4
  deriving Repr, DecidableEq

/-- How many bytes of length stand behind the opcode. -/
def PushForm.width : PushForm → Nat
  | direct => 0
  | size1 => 1
  | size2 => 2
  | size4 => 4

/-- The form of the pushes with an opcode, if it pushes data. -/
def PushForm.ofByte? (b : UInt8) : Option PushForm :=
  if 0x01 ≤ b ∧ b ≤ 0x4b then some direct
  else if b = 0x4c then some size1
  else if b = 0x4d then some size2
  else if b = 0x4e then some size4
  else none

/-- The opcode of a push of `length` bytes. -/
def PushForm.opcode (length : Nat) : PushForm → UInt8
  | direct => UInt8.ofNat length
  | size1 => 0x4c
  | size2 => 0x4d
  | size4 => 0x4e

/-- One element of a script. -/
inductive Instruction where
  | push (form : PushForm) (data : Bytes)
  | op (byte : UInt8)
  deriving Repr, DecidableEq

namespace Instruction

/-- The bytes of an instruction. -/
def encode : Instruction → Bytes
  | push form data => form.opcode data.length :: (Bytes.littleEndian form.width data.length ++ data)
  | op byte => [byte]

/-- Whether an instruction is one that reading yields: a push has a length that
its form can say, and any other opcode is no push. -/
def WellFormed : Instruction → Prop
  | push .direct data => 1 ≤ data.length ∧ data.length ≤ 75
  | push form data => data.length < Nat.pow 256 form.width
  | op byte => PushForm.ofByte? byte = none

end Instruction

/-- What reading a script yields: its instructions and, if it ends within a
push, the fault that stopped it. -/
structure Decoded where
  instructions : List Instruction
  fault : Option Error
  deriving Repr, DecidableEq

/-- The next `n` bytes of a push, at `offset` of the script. -/
def takePush (n offset : Nat) (s : Bytes) : Except Error (FixedBytes n × Bytes) :=
  match Bytes.split? n s with
  | some r => .ok r
  | none => .error (.decode (.pushPastEnd n offset))

/-- The data of a push with opcode `b`, of which the bytes from `offset` on are
left, and what follows them. -/
def pushData (form : PushForm) (b : UInt8) (offset : Nat) (s : Bytes) : Except Error (Bytes × Bytes) := do
  let (size, s) ← takePush form.width offset s
  let n := if form = .direct then b.toNat else Bytes.ofLittleEndian size.val
  let (data, s) ← takePush n (offset + form.width) s
  return (data.val, s)

theorem length_of_pushData {form : PushForm} {b : UInt8} {offset : Nat} {s rest data : Bytes}
    (h : pushData form b offset s = .ok (data, rest)) : rest.length ≤ s.length := by
  unfold pushData takePush at h
  simp only [bind, Except.bind, pure, Except.pure] at h
  split at h
  · cases h
  · rename_i r hr
    split at hr
    · rename_i q hq
      cases hr
      split at h
      · cases h
      · rename_i r' hr'
        split at hr'
        · rename_i q' hq'
          cases hr'
          cases h
          have h1 := Bytes.length_of_split? hq
          have h2 := Bytes.length_of_split? hq'
          omega
        · cases hr'
    · cases hr

/-- Reads the script from `offset` on, after instructions already read, which
are kept in reverse. -/
def decodeFrom (offset : Nat) (done : List Instruction) : Bytes → Decoded
  | [] => ⟨done.reverse, none⟩
  | b :: s =>
    match PushForm.ofByte? b with
    | none => decodeFrom (offset + 1) (.op b :: done) s
    | some form =>
      match h : pushData form b (offset + 1) s with
      | .error e => ⟨done.reverse, some e⟩
      | .ok (data, rest) =>
        decodeFrom (offset + 1 + form.width + data.length) (.push form data :: done) rest
termination_by s => s.length
decreasing_by
  · simp
  · have := length_of_pushData h
    simp only [List.length_cons]
    omega

/-- The instructions of a script. -/
def decode (script : Bytes) : Decoded := decodeFrom 0 [] script

/-- The data of one instruction of a script that only pushes; the empty push
is the one operation it may hold. -/
def Instruction.item : Instruction → Except Error Bytes
  | push _ data => .ok data
  | op byte => if byte = 0 then .ok [] else .error (.script (.notAPush byte))

/-- The items that a script of pushes leaves. -/
def pushedItems (script : Bytes) : Except Error (List Bytes) := do
  let d := decode script
  let items ← d.instructions.mapM Instruction.item
  match d.fault with
  | some e => throw e
  | none => return items

/-- The last item that a script of pushes leaves. -/
def lastPushed (script : Bytes) : Except Error Bytes := do
  let items ← pushedItems script
  match items.getLast? with
  | some item => return item
  | none => throw (.input .emptyScriptSig)

/-!
## Scripts as text

The text of a script names its operations and writes pushed data in
hexadecimal behind the name of the push, all with single spaces between.
-/

/-- The name of a push of `length` bytes. -/
def PushForm.name (length : Nat) : PushForm → String
  | direct => s!"OP_PUSHBYTES_{length}"
  | size1 => "OP_PUSHDATA1"
  | size2 => "OP_PUSHDATA2"
  | size4 => "OP_PUSHDATA4"

/-- The words of an instruction. -/
def Instruction.words : Instruction → List String
  | push form data => [form.name data.length, Hex.encode data]
  | op byte =>
    match Opcode.ofByte? byte with
    | some o => [o.name]
    | none => ["OP_UNKNOWN_0x" ++ Hex.byte byte]

/-- The word for a push whose data are cut off. -/
def pastEnd : String := "<push past end>"

/-- The words of a script. -/
def words (script : Bytes) : List String :=
  let d := decode script
  d.instructions.flatMap Instruction.words ++ (if d.fault.isSome then [pastEnd] else [])

/-- The text of a script. -/
def asm (script : Bytes) : String := " ".intercalate (words script)

end Bitcoin.Script

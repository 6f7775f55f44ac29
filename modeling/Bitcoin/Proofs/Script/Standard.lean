import Bitcoin.Proofs.Script.Balance
import Bitcoin.Proofs.Script.Decoding

/-!
# Scripts of pushes and standard locking scripts, run

A script that only pushes data has a reading without a machine: its items
(`pushedItems`). Running it comes to the same thing: it leaves these items on
the stack, the last on top, and does nothing else (`execute_of_pushedItems`).
Items of up to 75 bytes have such a script (`pushedItems_directPushes`).

The locking scripts of key hashes and script hashes are read as instructions and
run on any machine (`execute_payToKeyHash`, `execute_payToScriptHash`). That of
a key hash takes the item on top for the key and the one below for the
signature, and whether it verifies is what it leaves
(`executeBool_payToKeyHash`); that of a script hash compares the hash of the
item on top (`executeBool_payToScriptHash`). Neither looks further down.
-/

namespace Bitcoin.Script

/-- Whether an instruction is a push, be it of the empty byte string. -/
def Instruction.IsPush : Instruction → Prop
  | push .. => True
  | op byte => byte = 0x00

/-- A script can be read to its end and has no instructions but pushes. -/
structure PushOnly (script : Bytes) : Prop where
  whole : (decode script).fault = none
  pushes : ∀ i ∈ (decode script).instructions, i.IsPush

/-! ## What is pushed -/

variable {script : Bytes} {items : List Bytes}

theorem Instruction.isPush_iff {i : Instruction} : i.IsPush ↔ ∃ data, i.item = .ok data := by
  cases i with
  | push form data => exact iff_of_true trivial ⟨data, rfl⟩
  | op byte =>
    show byte = 0x00 ↔ ∃ data, (if byte = 0x00 then .ok [] else .error _) = Except.ok data
    by_cases hb : byte = 0x00
    · exact iff_of_true hb ⟨[], if_pos hb⟩
    · simp [hb]

theorem forall_isPush_iff (is : List Instruction) :
    (∀ i ∈ is, i.IsPush) ↔ ∃ items, is.mapM Instruction.item = .ok items := by
  induction is with
  | nil => exact iff_of_true nofun ⟨[], rfl⟩
  | cons i is ih =>
    rw [List.forall_mem_cons, ih, Instruction.isPush_iff]
    constructor
    · intro ⟨⟨data, hd⟩, rest, hr⟩
      exact ⟨_, mapM_cons_eq_ok.2 ⟨data, rest, hd, hr, rfl⟩⟩
    · intro ⟨items, h⟩
      obtain ⟨data, rest, hd, hr, -⟩ := mapM_cons_eq_ok.1 h
      exact ⟨⟨data, hd⟩, rest, hr⟩

theorem pushedItems_eq_ok : pushedItems script = .ok items ↔
    (decode script).fault = none ∧ (decode script).instructions.mapM Instruction.item = .ok items := by
  rw [pushedItems, bind_eq_ok]
  constructor
  · intro ⟨read, hr, h⟩
    split at h <;> cases h
    exact ⟨‹_›, hr⟩
  · intro ⟨hf, h⟩
    exact ⟨items, h, by rw [hf]; rfl⟩

/-- The scripts that are read as items are those of pushes. -/
theorem pushOnly_iff : PushOnly script ↔ ∃ items, pushedItems script = .ok items := by
  simp only [pushedItems_eq_ok, exists_and_left, ← forall_isPush_iff]
  exact ⟨fun ⟨hf, hp⟩ => ⟨hf, hp⟩, fun ⟨hf, hp⟩ => ⟨hf, hp⟩⟩

theorem lastPushed_eq_ok {item : Bytes} :
    lastPushed script = .ok item ↔ ∃ front, pushedItems script = .ok (front ++ [item]) := by
  rw [lastPushed, bind_eq_ok]
  constructor
  · intro ⟨items, hp, h⟩
    split at h <;> cases h
    rename_i hl
    obtain ⟨front, rfl⟩ := List.getLast?_eq_some_iff.1 hl
    exact ⟨front, hp⟩
  · intro ⟨front, hp⟩
    exact ⟨_, hp, by rw [List.getLast?_append]; rfl⟩

/-! ## Running pushes -/

variable {context : Option Context} {m : Machine}

theorem step_of_item {i : Instruction} {data : Bytes} (h : i.item = .ok data) (hm : m.executing = true) :
    step context script i m = .ok () (m.push data) := by
  cases i with
  | push form bytes =>
    cases h
    rw [step_of_plain rfl, if_pos hm]
    rfl
  | op byte =>
    obtain rfl : byte = 0x00 := Instruction.isPush_iff.2 ⟨data, h⟩
    cases h
    rw [step_of_plain rfl, if_pos hm]
    rfl

/-- The steps of some pushes, by induction on them. -/
theorem steps_of_items {is : List Instruction} (h : is.mapM Instruction.item = .ok items)
    (hm : m.executing = true) :
    steps context script is m = .ok () { m with stack := items.reverse ++ m.stack } := by
  induction is generalizing items m with
  | nil =>
    cases h
    rfl
  | cons i is ih =>
    obtain ⟨data, rest, hd, hr, rfl⟩ := mapM_cons_eq_ok.1 h
    have hs := ih hr (m := m.push data) hm
    rw [steps_cons_of_ok (step_of_item hd hm), hs, List.reverse_cons, List.append_assoc]
    rfl

/-- Running a script of pushes leaves its items on the stack. -/
theorem execute_of_pushedItems (h : pushedItems script = .ok items) (context : Option Context) (m : Machine) :
    execute context script m = .ok ((items.reverse ++ m.stack).headD [])
      { m with stack := items.reverse ++ m.stack, flags := [] } := by
  obtain ⟨hf, hi⟩ := pushedItems_eq_ok.1 h
  rw [execute_eq, bind_of_ok (steps_of_items hi rfl), hf]
  rfl

/-! ## Reading one push -/

theorem decodeFrom_direct {data : Bytes} (h : 1 ≤ data.length ∧ data.length ≤ 75) (offset : Nat)
    (done : List Instruction) (rest : Bytes) :
    decodeFrom offset done (UInt8.ofNat data.length :: (data ++ rest)) =
      decodeFrom (offset + 1 + data.length) (.push .direct data :: done) rest := by
  have hd := decodeFrom_encode (i := .push .direct data) h offset done rest
  rwa [show (Instruction.push .direct data).encode = UInt8.ofNat data.length :: data from rfl, List.length_cons,
    Nat.add_comm data.length, ← Nat.add_assoc] at hd

/-- The script that pushes some items of up to 75 bytes. -/
def directPushes (items : List Bytes) : Bytes := items.flatMap fun item => UInt8.ofNat item.length :: item

theorem exists_decodeFrom_directPushes {items : List Bytes} (h : ∀ item ∈ items, item.length ≤ 75) (offset : Nat)
    (done : List Instruction) : ∃ is, decodeFrom offset done (directPushes items) = ⟨done.reverse ++ is, none⟩ ∧
      is.mapM Instruction.item = .ok items := by
  induction items generalizing offset done with
  | nil => exact ⟨[], by rw [directPushes, List.flatMap_nil, decodeFrom, List.append_nil], rfl⟩
  | cons item items ih =>
    obtain ⟨hi, hr⟩ := List.forall_mem_cons.1 h
    have hp : directPushes (item :: items) = UInt8.ofNat item.length :: (item ++ directPushes items) := rfl
    rw [hp]
    cases item with
    | nil =>
      obtain ⟨is, hd, his⟩ := ih hr (offset + 1) (.op 0x00 :: done)
      refine ⟨.op 0x00 :: is, ?_, mapM_cons_eq_ok.2 ⟨[], items, rfl, his, rfl⟩⟩
      rw [show UInt8.ofNat ([] : Bytes).length = 0x00 from rfl, decodeFrom_op (by decide), List.nil_append, hd]
      simp
    | cons b data =>
      obtain ⟨is, hd, his⟩ := ih hr (offset + 1 + (b :: data).length) (.push .direct (b :: data) :: done)
      refine ⟨.push .direct (b :: data) :: is, ?_, mapM_cons_eq_ok.2 ⟨b :: data, items, rfl, his, rfl⟩⟩
      rw [decodeFrom_direct ⟨by simp, hi⟩, hd]
      simp

/-- Items of up to 75 bytes are read back from the script that pushes them. -/
theorem pushedItems_directPushes {items : List Bytes} (h : ∀ item ∈ items, item.length ≤ 75) :
    pushedItems (directPushes items) = .ok items := by
  obtain ⟨is, hd, hi⟩ := exists_decodeFrom_directPushes h 0 []
  exact pushedItems_eq_ok.2 (by rw [decode, hd]; exact ⟨rfl, hi⟩)

/-- A script that is one push of up to 75 bytes leaves them. -/
theorem lastPushed_direct {data : Bytes} (h : data.length ≤ 75) :
    lastPushed (UInt8.ofNat data.length :: data) = .ok data := by
  have hp : directPushes [data] = UInt8.ofNat data.length :: data := by simp [directPushes]
  exact lastPushed_eq_ok.2 ⟨[], hp ▸ pushedItems_directPushes (by simpa using h)⟩

/-! ## Standard locking scripts -/

theorem map_congr_at {α β : Type} {x y : Run α} {m n : Machine} (h : x m = y n) (f : α → β) :
    (f <$> x) m = (f <$> y) n := by
  show EStateM.map f x m = EStateM.map f y n
  rw [EStateM.map, EStateM.map, h]

theorem decode_payToKeyHash (h : Hash160) :
    decode (payToKeyHash h.val) = ⟨[.op 0x76, .op 0xa9, .push .direct h.val, .op 0x88, .op 0xac], none⟩ := by
  have hl : payToKeyHash h.val = 0x76 :: 0xa9 :: UInt8.ofNat h.val.length :: (h.val ++ [0x88, 0xac]) := by
    rw [h.property]
    rfl
  rw [hl, decode, decodeFrom_op (by decide), decodeFrom_op (by decide),
    decodeFrom_direct (by rw [h.property]; decide), decodeFrom_op (by decide), decodeFrom_op (by decide), decodeFrom]
  rfl

theorem decode_payToScriptHash (h : Hash160) :
    decode (payToScriptHash h.val) = ⟨[.op 0xa9, .push .direct h.val, .op 0x87], none⟩ := by
  have hl : payToScriptHash h.val = 0xa9 :: UInt8.ofNat h.val.length :: (h.val ++ [0x87]) := by
    rw [h.property]
    rfl
  rw [hl, decode, decodeFrom_op (by decide), decodeFrom_direct (by rw [h.property]; decide),
    decodeFrom_op (by decide), decodeFrom]
  rfl

/-- What the locking script of a key hash does: the key on top has to have the
hash, and whether the signature below verifies under it is left in their place. -/
def unlockKeyHash (context : Option Context) (h : Bytes) : Run Bytes := do
  let key ← Run.top Opcode.dup.label
  if (hash160 key).val = h then
    let verified ← popAndCheck context (payToKeyHash h) Opcode.checkSig.label
    Run.push (ofBool verified)
    return ofBool verified
  else throw (.verifyFailed Opcode.equalVerify.label)

/-- What the locking script of a script hash does: whether the item on top has
the hash is left in its place. -/
def unlockScriptHash (h : Bytes) : Run Bytes := do
  let item ← Run.pop (Opcode.digest .hash160).label
  let same := ofBool ((hash160 item).val == h)
  Run.push same
  return same

theorem execute_payToScriptHash (h : Hash160) (m : Machine) :
    execute context (payToScriptHash h.val) m = unlockScriptHash h.val (m.withFlags []) := by
  rw [execute_eq, decode_payToScriptHash]
  obtain ⟨_ | ⟨item, rest⟩, flags, calls⟩ := m <;> rfl

/-- Where all blocks are taken, an operation that is not one on blocks runs. -/
theorem step_of_opcode {script : Bytes} {byte : UInt8} (op : Opcode) (ho : Opcode.ofByte? byte = some op)
    (hb : ∀ b, op ≠ .branch b) {m : Machine} (hm : m.executing = true) :
    step context script (.op byte) m = runOpcode context script op m := by
  have hi : (Instruction.op byte).branch? = none := by
    unfold Instruction.branch?
    cases op <;> simp_all
  rw [step_of_plain hi, if_pos hm, Instruction.run, ho]

/-- A check of a signature at the end of a script. -/
theorem steps_checkSig_finish {script : Bytes} {m : Machine} (hm : m.flags = []) :
    (steps context script [.op 0xac] >>= fun _ => finish) m =
      (popAndCheck context script Opcode.checkSig.label >>= fun verified => do
        Run.push (ofBool verified)
        return ofBool verified) m := by
  have hs : step context script (.op 0xac) m =
      (popAndCheck context script Opcode.checkSig.label >>= fun verified => Run.push (ofBool verified)) m :=
    step_of_opcode .checkSig rfl nofun (by rw [Machine.executing, hm]; rfl)
  rw [steps_cons, bind_assoc, bind_congr_at hs, bind_assoc]
  cases hr : popAndCheck context script Opcode.checkSig.label m with
  | error e s => rw [bind_of_error hr, bind_of_error hr]
  | ok verified s =>
    have hf : s.flags = [] := ((composed_popAndCheck _ _ _).blind.flags_eq hr).trans hm
    rw [bind_of_ok hr, bind_of_ok hr]
    exact finish_of_closed (m := s.push (ofBool verified)) hf

theorem execute_payToKeyHash (h : Hash160) (m : Machine) :
    execute context (payToKeyHash h.val) m = unlockKeyHash context h.val (m.withFlags []) := by
  rw [execute_eq, decode_payToKeyHash]
  obtain ⟨_ | ⟨key, rest⟩, flags, calls⟩ := m
  · rfl
  have hd : steps context (payToKeyHash h.val) [.op 0x76, .op 0xa9, .push .direct h.val] ⟨key :: rest, [], calls⟩ =
      .ok () ⟨h.val :: (hash160 key).val :: key :: rest, [], calls⟩ := rfl
  have he : step context (payToKeyHash h.val) (.op 0x88) ⟨h.val :: (hash160 key).val :: key :: rest, [], calls⟩ =
      (if (hash160 key).val ≠ h.val then throw (.verifyFailed Opcode.equalVerify.label) else pure () : Run Unit)
        ⟨key :: rest, [], calls⟩ :=
    step_of_opcode .equalVerify rfl nofun rfl
  show (steps context (payToKeyHash h.val) ([.op 0x76, .op 0xa9, .push .direct h.val] ++ [.op 0x88, .op 0xac]) >>=
    fun _ => finish) ⟨key :: rest, [], calls⟩ = (if (hash160 key).val = h.val then _ else _ : Run Bytes) _
  rw [steps_append, bind_assoc, bind_of_ok hd, steps_cons, bind_assoc]
  by_cases hk : (hash160 key).val = h.val
  · rw [if_neg (not_not_intro hk)] at he
    rw [bind_of_ok he, if_pos hk, steps_checkSig_finish rfl]
    rfl
  · rw [if_pos hk] at he
    rw [bind_of_error he, if_neg hk]
    rfl

/-! ## Truth values -/

theorem isTrue_ofBool (b : Bool) : isTrue (ofBool b) = b := by
  cases b <;> rfl

theorem valueOf_executeBool {script : Bytes} {m : Machine} :
    valueOf (executeBool context script m) = .ok true ↔ ∃ m', executeBool context script m = .ok true m' := by
  cases executeBool context script m <;> simp [valueOf]

/-- Leaves on the stack whether a check holds. -/
def leaveVerified (check : Check Bool) : Run Bool := do
  let verified ← Run.ofCheck check
  Run.push (ofBool verified)
  return verified

theorem leaveVerified_eq (check : Check Bool) (rest : List Bytes) (flags : List Bool) (calls : List Call) :
    leaveVerified check ⟨rest, flags, calls⟩ = match check calls with
      | .ok verified calls => .ok verified ⟨ofBool verified :: rest, flags, calls⟩
      | .error e calls => .error e ⟨rest, flags, calls⟩ := by
  have hc : Run.ofCheck check ⟨rest, flags, calls⟩ = match check calls with
      | .ok verified calls => .ok verified ⟨rest, flags, calls⟩
      | .error e calls => .error e ⟨rest, flags, calls⟩ := by
    rw [Run.ofCheck]
    cases check calls <;> rfl
  cases hv : check calls <;> simp only [hv] at hc
  · exact bind_of_ok hc
  · exact bind_of_error hc

theorem toCheck_leaveVerified (check : Check Bool) : (leaveVerified check).toCheck = check := by
  funext calls
  have hl := leaveVerified_eq check [] [] calls
  rw [Run.toCheck, Machine.empty, hl]
  cases check calls <;> rfl

theorem valueOf_leaveVerified {check : Check Bool} (hf : check.LogFree) (m : Machine) :
    valueOf (leaveVerified check m) = check.outcome := by
  rw [← Check.valueOf_eq_outcome hf m.calls, leaveVerified_eq]
  cases check m.calls <;> rfl

/-! ## Unlocking -/

section Unlock

variable {h : Hash160} {key : Bytes} {flags : List Bool} {calls : List Call}

theorem executeBool_payToScriptHash (h : Hash160) (item : Bytes) (rest : List Bytes) :
    executeBool context (payToScriptHash h.val) ⟨item :: rest, flags, calls⟩ =
      .ok ((hash160 item).val == h.val) ⟨ofBool ((hash160 item).val == h.val) :: rest, [], calls⟩ := by
  have hr : executeBool context (payToScriptHash h.val) ⟨item :: rest, flags, calls⟩ =
      (isTrue <$> unlockScriptHash h.val) ⟨item :: rest, [], calls⟩ :=
    map_congr_at (execute_payToScriptHash h _) isTrue
  have hu : (isTrue <$> unlockScriptHash h.val) ⟨item :: rest, [], calls⟩ =
      .ok (isTrue (ofBool ((hash160 item).val == h.val))) ⟨ofBool ((hash160 item).val == h.val) :: rest, [], calls⟩ :=
    rfl
  rw [hr, hu, isTrue_ofBool]

theorem unlockKeyHash_of_hash (hk : hash160 key = h) (sig : Bytes) (rest : List Bytes) :
    unlockKeyHash context h.val ⟨key :: sig :: rest, flags, calls⟩ =
      (ofBool <$> leaveVerified (checkSignature context sig key (payToKeyHash h.val))) ⟨rest, flags, calls⟩ := by
  show (if (hash160 key).val = h.val then _ else _ : Run Bytes) _ = _
  rw [if_pos (congrArg Subtype.val hk), leaveVerified, map_eq_pure_bind, bind_assoc]
  rfl

/-- The script needs a key of the hash on top and another item below it. -/
theorem exists_of_unlockKeyHash {m s : Machine} {top : Bytes} (hu : unlockKeyHash context h.val m = .ok top s) :
    ∃ key sig rest, m.stack = key :: sig :: rest ∧ hash160 key = h := by
  obtain ⟨_ | ⟨key, rest⟩, flags, calls⟩ := m
  · cases hu
  change (if (hash160 key).val = h.val then _ else _ : Run Bytes) _ = _ at hu
  by_cases hk : (hash160 key).val = h.val
  · rw [if_pos hk] at hu
    cases rest with
    | nil => cases hu
    | cons sig rest => exact ⟨key, sig, rest, rfl, Subtype.ext hk⟩
  · rw [if_neg hk] at hu
    cases hu

/-- With a key of the hash on top, the script comes to the check of the signature
below it. -/
theorem executeBool_payToKeyHash (hk : hash160 key = h) (sig : Bytes) (rest : List Bytes) :
    executeBool context (payToKeyHash h.val) ⟨key :: sig :: rest, flags, calls⟩ =
      leaveVerified (checkSignature context sig key (payToKeyHash h.val)) ⟨rest, [], calls⟩ := by
  have hr : executeBool context (payToKeyHash h.val) ⟨key :: sig :: rest, flags, calls⟩ = _ :=
    map_congr_at ((execute_payToKeyHash h _).trans (unlockKeyHash_of_hash hk sig rest)) isTrue
  rw [hr, ← comp_map, show isTrue ∘ ofBool = id from funext isTrue_ofBool, id_map]

theorem exists_of_executeBool_payToKeyHash {m s : Machine} {b : Bool}
    (he : executeBool context (payToKeyHash h.val) m = .ok b s) :
    ∃ key sig rest, m.stack = key :: sig :: rest ∧ hash160 key = h := by
  rw [executeBool, map_eq_pure_bind] at he
  obtain ⟨top, t, ht, -⟩ := exists_of_bind_eq_ok he
  exact exists_of_unlockKeyHash (m := m.withFlags []) ((execute_payToKeyHash h m).symm.trans ht)

end Unlock

end Bitcoin.Script

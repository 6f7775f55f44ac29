import Bitcoin.Proofs.Script.Standard

/-!
# Opcodes for numbers

Besides data, scripts push minus one and the numbers from one to sixteen, each
by an opcode of its own. A script that does nothing but push runs to its end and
leaves one item for each instruction (`execute_of_pushesOnly`). The reading of
scripts without a machine does not know the opcodes for numbers: it reads the
items that a run leaves, but of the scripts that only push it refuses those with
such an opcode, and no others (`readsAsRun_iff`).
-/

namespace Bitcoin.Script

namespace Instruction

/-- Whether an instruction is the opcode for minus one, or for one to sixteen. -/
def IsNumeral : Instruction → Prop
  | push .. => False
  | op byte => byte = 0x4f ∨ 0x51 ≤ byte ∧ byte ≤ 0x60

/-- What an instruction that pushes leaves. -/
def pushed : Instruction → Bytes
  | push _ data => data
  | op byte => if byte = 0x00 then [] else if byte = 0x4f then [0x81] else [byte - 0x50]

theorem IsNumeral.not_isPush {i : Instruction} (h : i.IsNumeral) : ¬i.IsPush := by
  cases i with
  | push form data => exact h.elim
  | op byte =>
    rintro rfl
    exact absurd (show (0x00 : UInt8) = 0x4f ∨ _ from h) (by decide)

end Instruction

/-- A script can be read to its end and all its instructions push, be it data or
a number. -/
structure PushesOnly (script : Bytes) : Prop where
  whole : (decode script).fault = none
  pushes : ∀ i ∈ (decode script).instructions, i.IsPush ∨ i.IsNumeral

theorem PushOnly.pushesOnly {script : Bytes} (h : PushOnly script) : PushesOnly script :=
  ⟨h.whole, fun i hi => .inl (h.pushes i hi)⟩

/-! ## Running pushes of numbers -/

section Run

variable {context : Option Context} {script : Bytes} {m : Machine}

/-- The opcode for a number up to sixteen, with the number it is for. -/
theorem exists_ofByte?_pushSmall {byte : UInt8} (h : 0x51 ≤ byte ∧ byte ≤ 0x60) :
    ∃ n : Fin 16, Opcode.ofByte? byte = some (.pushSmall n) ∧ UInt8.ofNat (n.val + 1) = byte - 0x50 := by
  refine ⟨Fin.ofNat 16 (byte.toNat - 0x51), by rw [Opcode.ofByte?, if_pos h], ?_⟩
  obtain ⟨hl, hu⟩ := h
  rw [UInt8.le_iff_toNat_le] at hl hu
  change 0x51 ≤ byte.toNat at hl
  change byte.toNat ≤ 0x60 at hu
  apply UInt8.toNat_inj.1
  rw [UInt8.toNat_sub_of_le byte 0x50 (UInt8.le_iff_toNat_le.2 (show 0x50 ≤ byte.toNat by omega)), UInt8.toNat_ofNat']
  simp only [Fin.ofNat]
  show _ = byte.toNat - 0x50
  omega

theorem step_of_pushes {i : Instruction} (h : i.IsPush ∨ i.IsNumeral) (hm : m.executing = true) :
    step context script i m = .ok () (m.push i.pushed) := by
  cases i with
  | push form data => exact step_of_item rfl hm
  | op byte =>
    rcases h with rfl | rfl | hn
    · exact step_of_item rfl hm
    · have hs : step context script (.op 0x4f) m = .ok () (m.push (Number.encode (-1))) :=
        step_of_opcode .pushNegOne rfl nofun hm
      rw [hs, show Number.encode (-1) = [0x81] by decide +kernel]
      rfl
    · obtain ⟨n, ho, hv⟩ := exists_ofByte?_pushSmall hn
      have h0 : byte ≠ 0x00 := by rintro rfl; exact absurd hn (by decide)
      have h1 : byte ≠ 0x4f := by rintro rfl; exact absurd hn (by decide)
      rw [step_of_opcode _ ho nofun hm, Instruction.pushed, if_neg h0, if_neg h1, ← hv]
      rfl

/-- The steps of some pushes, by induction on them. -/
theorem steps_of_pushes {is : List Instruction} (h : ∀ i ∈ is, i.IsPush ∨ i.IsNumeral) (hm : m.executing = true) :
    steps context script is m = .ok () { m with stack := (is.map Instruction.pushed).reverse ++ m.stack } := by
  induction is generalizing m with
  | nil => rfl
  | cons i is ih =>
    obtain ⟨hi, his⟩ := List.forall_mem_cons.1 h
    rw [steps_cons_of_ok (step_of_pushes hi hm), ih (m := m.push i.pushed) his hm, List.map_cons, List.reverse_cons,
      List.append_assoc]
    rfl

/-- A script that only pushes leaves one item for each instruction. -/
theorem execute_of_pushesOnly (h : PushesOnly script) (context : Option Context) (m : Machine) :
    ∃ top, execute context script m =
      .ok top ⟨((decode script).instructions.map Instruction.pushed).reverse ++ m.stack, [], m.calls⟩ := by
  rw [execute_eq, bind_of_ok (steps_of_pushes h.pushes rfl), h.whole]
  exact ⟨_, rfl⟩

end Run

/-! ## Reading and running -/

/-- The reading of a script agrees with running it: the scripts that can be read
are those that only push, and what is read is what a run on an empty stack leaves. -/
structure ReadsAsRun (context : Option Context) (script : Bytes) : Prop where
  reads_iff : (∃ items, pushedItems script = .ok items) ↔ PushesOnly script
  left : ∀ items, pushedItems script = .ok items →
    ∃ top, execute context script .empty = .ok top ⟨items.reverse, [], []⟩

/-- A script that only pushes leaves one item for each instruction; reading it
agrees with that exactly if there is no opcode for a number. Of other scripts
there is nothing to read. -/
theorem readsAsRun_iff (context : Option Context) (script : Bytes) :
    (PushesOnly script → ∃ top, execute context script .empty =
      .ok top ⟨((decode script).instructions.map Instruction.pushed).reverse, [], []⟩) ∧
    (ReadsAsRun context script ↔
      (PushesOnly script → ∀ i ∈ (decode script).instructions, ¬i.IsNumeral)) := by
  refine ⟨fun h => ?_, fun h hp i hi => ?_, fun h => ⟨?_, fun items hr => ?_⟩⟩
  · obtain ⟨top, he⟩ := execute_of_pushesOnly h context .empty
    exact ⟨top, by simpa [Machine.empty] using he⟩
  · have hread : PushOnly script := pushOnly_iff.2 (h.reads_iff.2 hp)
    exact fun hn => hn.not_isPush (hread.pushes i hi)
  · rw [← pushOnly_iff]
    refine ⟨PushOnly.pushesOnly, fun hp => ⟨hp.whole, fun i hi => ?_⟩⟩
    exact (hp.pushes i hi).resolve_right (h hp i hi)
  · exact ⟨_, by simpa [Machine.empty] using execute_of_pushedItems hr context .empty⟩

theorem readsAsRun_iff_mixed : PushesOnly [0x4f, 0x02, 0xaa, 0xbb, 0x60] ∧
    ∃ top, execute none [0x4f, 0x02, 0xaa, 0xbb, 0x60] .empty = .ok top ⟨[[0x10], [0xaa, 0xbb], [0x81]], [], []⟩ := by
  have hd : decode [0x4f, 0x02, 0xaa, 0xbb, 0x60] = ⟨[.op 0x4f, .push .direct [0xaa, 0xbb], .op 0x60], none⟩ := by
    decide +kernel
  have hp : PushesOnly [0x4f, 0x02, 0xaa, 0xbb, 0x60] := by
    refine ⟨by rw [hd], ?_⟩
    rw [hd]
    rintro i (_ | ⟨_, _ | ⟨_, _ | ⟨_, ⟨⟩⟩⟩⟩)
    · exact .inr (.inl rfl)
    · exact .inl trivial
    · exact .inr (.inr (by decide))
  obtain ⟨top, he⟩ := (readsAsRun_iff none [0x4f, 0x02, 0xaa, 0xbb, 0x60]).1 hp
  rw [hd] at he
  exact ⟨hp, top, he⟩

/-- The script of the opcode for one leaves that number and cannot be read. -/
theorem not_readsAsRun_one : PushesOnly [0x51] ∧ execute none [0x51] .empty = .ok [1] ⟨[[1]], [], []⟩ ∧
    pushedItems [0x51] = .error (.script (.notAPush 0x51)) ∧ ¬ReadsAsRun none [0x51] := by
  have hd : decode [0x51] = ⟨[.op 0x51], none⟩ := by decide +kernel
  have hp : PushesOnly [0x51] := by
    refine ⟨by rw [hd], ?_⟩
    rw [hd]
    rintro i (_ | ⟨_, ⟨⟩⟩)
    exact .inr (.inr (by decide))
  have hr : pushedItems [0x51] = .error (.script (.notAPush 0x51)) := by
    rw [pushedItems, hd]
    rfl
  refine ⟨hp, ?_, hr, fun h => ?_⟩
  · rw [execute_eq, hd]
    rfl
  · obtain ⟨items, hi⟩ := h.reads_iff.2 hp
    rw [hr] at hi
    cases hi

end Bitcoin.Script

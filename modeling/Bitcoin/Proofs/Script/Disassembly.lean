import Mathlib.Data.List.Nodup
import Mathlib.Data.Set.Operations
import Bitcoin.Proofs.Script.Decoding
import Bitcoin.Proofs.Text.Digits

/-!
# Scripts as text, read back

The text of a script can be read only one way. Each instruction begins with a
name that no other one has (`Instruction.name_eq_iff`), and the name says
whether data follow. Names and data are words of letters, digits and
underscores, so that spaces part them, an empty word included
(`tokens_asm`). Only a push that is cut off is told by other characters.
-/

namespace Bitcoin.Script

/-! ## Names -/

/-- The name of the operation with a byte, be it known or not. -/
def opName (b : UInt8) : String :=
  match Opcode.ofByte? b with
  | some o => o.name
  | none => "OP_UNKNOWN_0x" ++ Hex.byte b

/-- The name of an instruction. -/
def Instruction.name : Instruction → String
  | push form data => form.name data.length
  | op byte => opName byte

/-- The words behind the name. -/
def Instruction.operands : Instruction → List String
  | push _ data => [Hex.encode data]
  | op _ => []

theorem Instruction.words_eq (i : Instruction) : i.words = i.name :: i.operands := by
  cases i with
  | push form data => rfl
  | op byte =>
    cases h : Opcode.ofByte? byte <;> simp only [words, name, opName, operands, h]

/-- The first eight characters of a name, which tell its kind. -/
def stem (name : String) : List Char := name.toList.take 8

theorem PushForm.name_direct (n : Nat) : direct.name n = "OP_PUSHBYTES_" ++ toString n := rfl

theorem stem_direct (n : Nat) : stem (PushForm.direct.name n) = "OP_PUSHB".toList := by
  simp [stem, PushForm.name_direct]

theorem stem_of_ne_direct {form : PushForm} (h : form ≠ .direct) (n : Nat) :
    stem (form.name n) = "OP_PUSHD".toList := by
  cases form with
  | direct => exact absurd rfl h
  | size1 | size2 | size4 => simp [stem, PushForm.name]

theorem stem_unknown (b : UInt8) : stem ("OP_UNKNOWN_0x" ++ Hex.byte b) = "OP_UNKNO".toList := by
  simp [stem]

theorem Opcode.stem_name (o : Opcode) :
    stem o.name ∉ ["OP_PUSHB".toList, "OP_PUSHD".toList, "OP_UNKNO".toList] := by
  cases o with
  | pushSmall n =>
    revert n
    decide +kernel
  | branch b => cases b <;> decide +kernel
  | digest d => cases d <;> decide +kernel
  | _ => decide +kernel

/-- All operations with their bytes. -/
def Opcode.named : List (UInt8 × Opcode) :=
  table ++ (List.finRange 16).map fun n => (UInt8.ofNat (0x51 + n.val), pushSmall n)

theorem Opcode.mem_named {b : UInt8} {o : Opcode} (h : ofByte? b = some o) : (b, o) ∈ named := by
  unfold ofByte? at h
  split at h
  · rename_i hb
    rw [UInt8.le_iff_toNat_le, UInt8.le_iff_toNat_le] at hb
    cases h
    have hn : 0x51 + (b.toNat - 0x51) % 16 = b.toNat := by
      have : 0x51 ≤ b.toNat ∧ b.toNat ≤ 0x60 := hb
      omega
    refine List.mem_append_right _ (List.mem_map.2 ⟨Fin.ofNat 16 (b.toNat - 0x51), List.mem_finRange _, ?_⟩)
    rw [Fin.val_ofNat, hn, UInt8.ofNat_toNat]
  · obtain ⟨⟨c, o'⟩, hf, rfl⟩ := Option.map_eq_some_iff.1 h
    have hc := List.find?_some hf
    rw [← eq_of_beq hc]
    exact List.mem_append_left _ (List.mem_of_find?_eq_some hf)

theorem Opcode.nodup_names : (named.map fun e => e.2.name).Nodup := by decide +kernel

theorem stem_opName (b : UInt8) : stem (opName b) ∉ ["OP_PUSHB".toList, "OP_PUSHD".toList] := by
  unfold opName
  split
  · rename_i o _
    exact fun h => o.stem_name (List.mem_append_left ["OP_UNKNO".toList] h)
  · rw [stem_unknown]
    decide +kernel

/-- The name of an operation tells its byte. -/
theorem opName_inj {a b : UInt8} (h : opName a = opName b) : a = b := by
  have unknown (o : Opcode) (c : UInt8) : o.name ≠ "OP_UNKNOWN_0x" ++ Hex.byte c := fun h =>
    o.stem_name (by rw [h, stem_unknown]; exact .tail _ (.tail _ (.head _)))
  unfold opName at h
  rcases ha : Opcode.ofByte? a with _ | o <;> rcases hb : Opcode.ofByte? b with _ | p <;> rw [ha, hb] at h
  · exact List.singleton_inj.1 (Hex.encode_inj (String.append_right_inj _ |>.1 h))
  · exact absurd h.symm (unknown p a)
  · exact absurd h (unknown o b)
  · exact congrArg Prod.fst
      (List.inj_on_of_nodup_map Opcode.nodup_names (Opcode.mem_named ha) (Opcode.mem_named hb) h)

theorem PushForm.name_inj {form form' : PushForm} {m n : Nat} (h : form.name m = form'.name n) : form = form' := by
  by_cases hf : form = .direct <;> by_cases hf' : form' = .direct
  · rw [hf, hf']
  · have hs := congrArg stem h
    rw [hf, stem_direct, stem_of_ne_direct hf'] at hs
    exact absurd hs (by decide)
  · have hs := congrArg stem h
    rw [hf', stem_direct, stem_of_ne_direct hf] at hs
    exact absurd hs (by decide)
  · cases form <;> cases form' <;> simp_all [name]

/-- The name of an instruction tells the instruction, but for the data of a push. -/
theorem Instruction.eq_of_name_eq {i j : Instruction} (h : i.name = j.name) :
    i = j ∨ ∃ form data data', i = push form data ∧ j = push form data' := by
  have apart (form : PushForm) (n : Nat) (b : UInt8) : form.name n ≠ opName b := fun h => by
    refine stem_opName b (h ▸ ?_)
    by_cases hf : form = .direct
    · rw [hf, stem_direct]
      exact .head _
    · rw [stem_of_ne_direct hf]
      exact .tail _ (.head _)
  cases i with
  | push form data =>
    cases j with
    | push form' data' =>
      cases PushForm.name_inj h
      exact .inr ⟨form, data, data', rfl, rfl⟩
    | op b => exact absurd h (apart form _ b)
  | op a =>
    cases j with
    | push form data => exact absurd h.symm (apart form _ a)
    | op b => exact .inl (congrArg op (opName_inj h))

/-! ## Words -/

/-- The words of some instructions tell the instructions, by induction on them:
the name in front says whether data follow. -/
theorem flatMap_words_inj {is js : List Instruction}
    (h : is.flatMap Instruction.words = js.flatMap Instruction.words) : is = js := by
  induction is generalizing js with
  | nil =>
    cases js with
    | nil => rfl
    | cons j js =>
      rw [List.flatMap_cons, j.words_eq] at h
      cases h
  | cons i is ih =>
    cases js with
    | nil =>
      rw [List.flatMap_cons, i.words_eq] at h
      cases h
    | cons j js =>
      rw [List.flatMap_cons, List.flatMap_cons, i.words_eq, j.words_eq] at h
      obtain ⟨hn, hr⟩ := List.cons_eq_cons.1 h
      obtain rfl | ⟨form, data, data', rfl, rfl⟩ := Instruction.eq_of_name_eq hn
      · rw [ih (List.append_cancel_left hr)]
      · obtain ⟨hd, hr⟩ := List.cons_eq_cons.1 hr
        rw [Hex.encode_inj hd, ih hr]

/-- Characters of names and of data: letters, digits and underscores. -/
def IsWordChar (c : Char) : Prop := c.isAlphanum = true ∨ c = '_'

instance : DecidablePred IsWordChar := fun c => inferInstanceAs (Decidable (c.isAlphanum = true ∨ c = '_'))

theorem forall_isWordChar {cs : List Char} (h : cs.all (fun c => decide (IsWordChar c)) = true) :
    ∀ c ∈ cs, IsWordChar c :=
  fun c hc => of_decide_eq_true (List.all_eq_true.1 h c hc)

theorem Opcode.isWordChar_name (o : Opcode) : ∀ c ∈ o.name.toList, IsWordChar c := by
  refine forall_isWordChar ?_
  cases o with
  | pushSmall n =>
    revert n
    decide +kernel
  | branch b => cases b <;> decide +kernel
  | digest d => cases d <;> decide +kernel
  | _ => decide +kernel

theorem isWordChar_encode (b : Bytes) : ∀ c ∈ (Hex.encode b).toList, IsWordChar c := by
  rw [Hex.encode, String.toList_ofList]
  exact fun c hc => .inl (Hex.isAlphanum_flatMap_digits b c hc).2

theorem PushForm.isWordChar_name (form : PushForm) (n : Nat) : ∀ c ∈ (form.name n).toList, IsWordChar c := by
  cases form with
  | direct =>
    rw [name_direct, String.toList_append, List.forall_mem_append]
    refine ⟨forall_isWordChar (by decide), fun c hc => .inl ?_⟩
    rw [Nat.toString_eq_ofList_toDigits, String.toList_ofList] at hc
    have := Nat.isDigit_of_mem_toDigits (by decide) (by decide) hc
    simp [Char.isAlphanum, this]
  | size1 | size2 | size4 =>
    rw [name]
    exact forall_isWordChar (by decide)

theorem Instruction.isWordChar_words (i : Instruction) : ∀ w ∈ i.words, ∀ c ∈ w.toList, IsWordChar c := by
  rw [i.words_eq, List.forall_mem_cons]
  cases i with
  | push form data =>
    exact ⟨form.isWordChar_name _, List.forall_mem_singleton.2 (isWordChar_encode data)⟩
  | op b =>
    refine ⟨?_, nofun⟩
    rw [name, opName]
    split
    · exact Opcode.isWordChar_name _
    · rw [String.toList_append, List.forall_mem_append]
      exact ⟨forall_isWordChar (by decide), isWordChar_encode [b]⟩

theorem isWordChar_flatMap_words (is : List Instruction) :
    ∀ w ∈ is.flatMap Instruction.words, ∀ c ∈ w.toList, IsWordChar c := by
  intro w hw
  obtain ⟨i, -, hi⟩ := List.mem_flatMap.1 hw
  exact i.isWordChar_words w hi

theorem Instruction.name_ne_empty (i : Instruction) : i.name ≠ "" := by
  cases i with
  | push form data => cases form <;> simp [name, PushForm.name]
  | op b =>
    rw [name, opName]
    split
    · rename_i o _
      cases o with
      | pushSmall n => simp [Opcode.name]
      | branch b => cases b <;> simp [Opcode.name]
      | digest d => cases d <;> simp [Opcode.name]
      | _ => simp [Opcode.name]
    · simp

/-! ## Tokens -/

/-- What spaces part a text into. -/
def tokens (text : String) : List String := (text.toList.splitOn ' ').map String.ofList

theorem not_isWordChar_space : ¬ IsWordChar ' ' := by decide

/-- Words without spaces, at least one of them, are the tokens of their text. -/
theorem tokens_intercalate {ws : List String} (hne : ws ≠ []) (h : ∀ w ∈ ws, ' ' ∉ w.toList) :
    tokens (" ".intercalate ws) = ws := by
  have hs : [' '].intercalate (ws.map String.toList) = (" ".intercalate ws).toList := by
    rw [String.toList_intercalate]
    rfl
  rw [tokens, ← hs, List.splitOn_intercalate ' ' (by simpa using h) (by simpa using hne), List.map_map]
  simp [Function.comp_def]

/-- The tokens that stand for a push that is cut off. -/
def pastEndTokens : List String := ["<push", "past", "end>"]

theorem intercalate_pastEnd (ws : List String) :
    " ".intercalate (ws ++ [pastEnd]) = " ".intercalate (ws ++ pastEndTokens) := by
  by_cases hw : ws = []
  · rw [hw]
    rfl
  · rw [String.intercalate_append_of_ne_nil hw (by simp), String.intercalate_append_of_ne_nil hw (by simp [pastEndTokens])]
    rfl

variable {script : Bytes}

theorem asm_of_not_truncated (h : ¬ Truncated script) :
    asm script = " ".intercalate ((decode script).instructions.flatMap Instruction.words) := by
  rw [truncated_iff, Classical.not_not] at h
  rw [asm, words, h]
  exact congrArg _ (List.append_nil _)

theorem asm_of_truncated (h : Truncated script) :
    asm script = " ".intercalate ((decode script).instructions.flatMap Instruction.words ++ [pastEnd]) := by
  rw [asm, words, if_pos (Option.isSome_iff_ne_none.2 (truncated_iff.1 h))]

theorem not_mem_space_flatMap_words (is : List Instruction) : ∀ w ∈ is.flatMap Instruction.words, ' ' ∉ w.toList :=
  fun w hw hs => not_isWordChar_space (isWordChar_flatMap_words is w hw ' ' hs)

theorem flatMap_words_ne_nil {is : List Instruction} (h : is ≠ []) : is.flatMap Instruction.words ≠ [] := by
  obtain ⟨i, is, rfl⟩ := List.exists_cons_of_ne_nil h
  rw [List.flatMap_cons, i.words_eq]
  exact nofun

theorem flatMap_words_ne_empty (is : List Instruction) : is.flatMap Instruction.words ≠ [""] := by
  cases is with
  | nil => exact nofun
  | cons i is =>
    rw [List.flatMap_cons, i.words_eq]
    exact fun h => i.name_ne_empty (List.cons_eq_cons.1 h).1

/-- The tokens of a script's text are the words of its instructions; where there
are none the text is empty. -/
theorem tokens_asm (h : ¬ Truncated script) : tokens (asm script) =
    if (decode script).instructions = [] then [""]
    else (decode script).instructions.flatMap Instruction.words := by
  rw [asm_of_not_truncated h]
  split
  · rename_i hn
    rw [hn]
    rfl
  · rename_i hn
    exact tokens_intercalate (flatMap_words_ne_nil hn) (not_mem_space_flatMap_words _)

theorem tokens_asm_of_truncated (h : Truncated script) :
    tokens (asm script) = (decode script).instructions.flatMap Instruction.words ++ pastEndTokens := by
  rw [asm_of_truncated h, intercalate_pastEnd]
  refine tokens_intercalate (by simp [pastEndTokens]) (List.forall_mem_append.2 ⟨not_mem_space_flatMap_words _, ?_⟩)
  decide

/-- A text gives back the instructions of a script that is not truncated. -/
theorem instructions_eq_of_asm_eq {a b : Bytes} (ha : ¬ Truncated a) (hb : ¬ Truncated b) (h : asm a = asm b) :
    (decode a).instructions = (decode b).instructions := by
  have ht := congrArg tokens h
  rw [tokens_asm ha, tokens_asm hb] at ht
  split at ht <;> split at ht
  · simp_all
  · exact absurd ht.symm (flatMap_words_ne_empty _)
  · exact absurd ht (flatMap_words_ne_empty _)
  · exact flatMap_words_inj ht

theorem injOn_asm : Set.InjOn asm {script | ¬ Truncated script} := by
  intro a ha b hb h
  rw [eq_flatMap_encode_of_not_truncated ha, eq_flatMap_encode_of_not_truncated hb, instructions_eq_of_asm_eq ha hb h]

/-! ## The mark of a push that is cut off -/

theorem mem_of_mem_intercalate {α : Type} {sep : List α} {xs : List (List α)} {c : α}
    (h : c ∈ sep.intercalate xs) : c ∈ sep ∨ ∃ x ∈ xs, c ∈ x := by
  induction xs with
  | nil => cases h
  | cons x xs ih =>
    by_cases hx : xs = []
    · rw [hx, List.intercalate_singleton] at h
      exact .inr ⟨x, .head _, h⟩
    · rw [List.intercalate_cons_of_ne_nil hx, List.append_assoc, List.mem_append, List.mem_append] at h
      rcases h with h | h | h
      · exact .inr ⟨x, .head _, h⟩
      · exact .inl h
      · exact (ih h).imp_right fun ⟨y, hy, hc⟩ => ⟨y, .tail _ hy, hc⟩

theorem mem_intercalate_of_mem {α : Type} (sep : List α) {xs : List (List α)} {x : List α} {c : α} (hx : x ∈ xs)
    (hc : c ∈ x) : c ∈ sep.intercalate xs := by
  induction xs with
  | nil => cases hx
  | cons y ys ih =>
    by_cases hy : ys = []
    · rw [hy, List.mem_singleton] at hx
      rwa [hy, List.intercalate_singleton, ← hx]
    · rw [List.intercalate_cons_of_ne_nil hy, List.append_assoc, List.mem_append, List.mem_append]
      obtain rfl | hx := List.mem_cons.1 hx
      · exact .inl hc
      · exact .inr (.inr (ih hx))

/-- Without a push that is cut off there is no `<` in the text. -/
theorem not_mem_asm (h : ¬ Truncated script) : '<' ∉ (asm script).toList := by
  have hw : ¬ IsWordChar '<' := by decide
  rw [asm_of_not_truncated h, String.toList_intercalate]
  intro hc
  obtain hc | ⟨w, hm, hc⟩ := mem_of_mem_intercalate hc
  · exact absurd hc (by decide)
  · obtain ⟨v, hv, rfl⟩ := List.mem_map.1 hm
    exact hw (isWordChar_flatMap_words _ v hv '<' hc)

/-- The characters of a token are characters of the text. -/
theorem mem_toList_of_mem_tokens {text w : String} {c : Char} (hw : w ∈ tokens text) (hc : c ∈ w.toList) :
    c ∈ text.toList := by
  obtain ⟨w, hm, rfl⟩ := List.mem_map.1 hw
  rw [String.toList_ofList] at hc
  have ht : [' '].intercalate (text.toList.splitOn ' ') = text.toList := List.intercalate_splitOn ' '
  rw [← ht]
  exact mem_intercalate_of_mem _ hm hc

theorem truncated_iff_tokens : Truncated script ↔ pastEndTokens <:+: tokens (asm script) := by
  constructor
  · intro h
    rw [tokens_asm_of_truncated h]
    exact (List.suffix_append _ _).isInfix
  · intro h
    by_contra hn
    have hm : "<push" ∈ tokens (asm script) := h.subset (.head _)
    exact not_mem_asm hn (mem_toList_of_mem_tokens hm (by decide))

theorem truncated_iff_text : Truncated script ↔ pastEnd.toList <:+: (asm script).toList := by
  constructor
  · intro h
    rw [asm_of_truncated h]
    by_cases hw : (decode script).instructions.flatMap Instruction.words = []
    · rw [hw]
      exact List.infix_rfl
    · rw [String.intercalate_append_of_ne_nil hw (by simp), String.toList_append]
      exact (List.suffix_append _ _).isInfix
  · intro h
    by_contra hn
    exact not_mem_asm hn (h.subset (.head _))

/-- No two scripts that end outside of pushes have the same text. The text of a
script says that a push is cut off, as tokens or as a part of it, exactly if the
script ends within one. -/
theorem asm_loses_nothing : Set.InjOn asm {script | ¬ Truncated script} ∧
    ∀ script, (pastEndTokens <:+: tokens (asm script) ↔ Truncated script) ∧
      (pastEnd.toList <:+: (asm script).toList ↔ Truncated script) :=
  ⟨injOn_asm, fun _ => ⟨truncated_iff_tokens.symm, truncated_iff_text.symm⟩⟩

end Bitcoin.Script

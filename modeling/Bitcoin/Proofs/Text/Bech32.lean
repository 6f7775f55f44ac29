import Mathlib.Algebra.Group.Nat.Defs
import Mathlib.Data.List.Induction
import Bitcoin.Address

/-!
# Bech32, read back

Taking groups into the remainder is linear over exclusive or
(`foldl_polymodStep_xor`), and a remainder below `2 ^ 30` is what its own six
groups leave from zero (`foldl_sixGroups`), so groups followed by their checksum
verify (`verifies_append_checksum`). Bytes cut into groups of five bits are put
together again (`ofGroups?_toGroups`). A text is read back into its human-readable
part and its groups (`parts?_encode`).
-/

namespace Bitcoin.Bech32

/-! ## The remainder -/

/-- The coefficients at whose places a number has a bit, added up. -/
def selected (top : Nat) : List (UInt32 × Nat) → UInt32
  | [] => 0
  | (g, i) :: gs => (if top.testBit i then g else 0) ^^^ selected top gs

/-- The remainder with a zero taken in. -/
def shifted (r : UInt32) : UInt32 :=
  (r &&& 0x1ffffff) <<< 5 ^^^ selected (r >>> 25).toNat generator.zipIdx

theorem foldl_selected (top : Nat) (gs : List (UInt32 × Nat)) (acc : UInt32) :
    gs.foldl (fun acc (g, i) => if top.testBit i then acc ^^^ g else acc) acc = acc ^^^ selected top gs := by
  induction gs generalizing acc with
  | nil => exact UInt32.xor_zero.symm
  | cons p gs ih =>
    obtain ⟨g, i⟩ := p
    rw [List.foldl_cons, ih, selected, ← UInt32.xor_assoc]
    congr 1
    dsimp only
    split
    · rfl
    · rw [UInt32.xor_zero]

theorem polymodStep_eq (r : UInt32) (group : Nat) : polymodStep r group = shifted r ^^^ UInt32.ofNat group := by
  rw [polymodStep, shifted]
  dsimp only
  rw [foldl_selected, UInt32.xor_assoc, UInt32.xor_assoc, UInt32.xor_comm (UInt32.ofNat group)]

theorem polymodStep_zero (r : UInt32) : polymodStep r 0 = shifted r :=
  (polymodStep_eq r 0).trans UInt32.xor_zero

theorem selected_zero (gs : List (UInt32 × Nat)) : selected 0 gs = 0 := by
  induction gs with
  | nil => rfl
  | cons p gs ih =>
    obtain ⟨g, i⟩ := p
    rw [selected, ih, Nat.zero_testBit, if_neg Bool.false_ne_true, UInt32.xor_zero]

theorem xor_xor_xor_comm (a b c d : UInt32) : (a ^^^ b) ^^^ (c ^^^ d) = (a ^^^ c) ^^^ (b ^^^ d) := by
  ac_rfl

theorem selected_xor (a b : Nat) (gs : List (UInt32 × Nat)) :
    selected (a ^^^ b) gs = selected a gs ^^^ selected b gs := by
  induction gs with
  | nil => exact UInt32.xor_zero.symm
  | cons p gs ih =>
    obtain ⟨g, i⟩ := p
    rw [selected, selected, selected, ih, xor_xor_xor_comm, Nat.testBit_xor]
    congr 1
    cases a.testBit i <;> cases b.testBit i <;> simp

theorem shifted_xor (a b : UInt32) : shifted (a ^^^ b) = shifted a ^^^ shifted b := by
  have hl : (a ^^^ b) &&& 0x1ffffff = (a &&& 0x1ffffff) ^^^ (b &&& 0x1ffffff) := by
    rw [← UInt32.toNat_inj, UInt32.toNat_and, UInt32.toNat_xor, UInt32.toNat_xor, UInt32.toNat_and,
      UInt32.toNat_and, Nat.and_xor_distrib_right]
  rw [shifted, hl, UInt32.shiftLeft_xor, UInt32.shiftRight_xor, UInt32.toNat_xor, selected_xor, xor_xor_xor_comm]
  rfl

/-- Taking groups in is linear: a part of the remainder may be kept apart. -/
theorem foldl_polymodStep_xor (a b : UInt32) (groups : List Nat) :
    groups.foldl polymodStep (a ^^^ b) =
      (List.replicate groups.length 0).foldl polymodStep a ^^^ groups.foldl polymodStep b := by
  induction groups generalizing a b with
  | nil => rfl
  | cons g groups ih =>
    rw [List.length_cons, List.replicate_succ, List.foldl_cons, List.foldl_cons, List.foldl_cons, polymodStep_eq,
      shifted_xor, UInt32.xor_assoc, ← polymodStep_eq, ih, polymodStep_zero]

/-! ## The checksum -/

/-- A number as six groups of five bits. -/
def sixGroups (p : UInt32) : List Nat :=
  [25, 20, 15, 10, 5, 0].map fun (shift : UInt32) => (p >>> shift &&& 31).toNat

theorem selected_lt (top : Nat) {gs : List (UInt32 × Nat)} (h : ∀ p ∈ gs, p.1.toNat < 2 ^ 30) :
    (selected top gs).toNat < 2 ^ 30 := by
  induction gs with
  | nil => exact Nat.pow_pos (by decide)
  | cons p gs ih =>
    obtain ⟨hp, hgs⟩ := List.forall_mem_cons.1 h
    rw [selected, UInt32.toNat_xor]
    refine Nat.xor_lt_two_pow ?_ (ih hgs)
    split
    · exact hp
    · decide

theorem shifted_lt (r : UInt32) : (shifted r).toNat < 2 ^ 30 := by
  rw [shifted, UInt32.toNat_xor]
  refine Nat.xor_lt_two_pow ?_ (selected_lt _ (by decide))
  have h : (r &&& 0x1ffffff).toNat ≤ 0x1ffffff := by
    rw [UInt32.toNat_and]
    exact Nat.and_le_right
  rw [UInt32.toNat_shiftLeft, Nat.shiftLeft_eq]
  exact Nat.lt_of_le_of_lt (Nat.mod_le _ _) (Nat.mul_lt_mul_of_pos_right (Nat.lt_succ_of_le h) (by decide))

theorem shiftRight_shiftRight (p : UInt32) {a b : UInt32} (h : a.toNat + b.toNat < 32) :
    p >>> a >>> b = p >>> (a + b) := by
  have hs : (a + b).toNat = a.toNat + b.toNat := by
    rw [UInt32.toNat_add]
    omega
  rw [← UInt32.toNat_inj, UInt32.toNat_shiftRight, UInt32.toNat_shiftRight, UInt32.toNat_shiftRight, hs,
    Nat.mod_eq_of_lt h, Nat.mod_eq_of_lt (by omega), Nat.mod_eq_of_lt (by omega), Nat.shiftRight_add]

/-- A number is its high bits, moved up, and its five low ones. -/
theorem shiftLeft_shiftRight_xor (q : UInt32) : q >>> 5 <<< 5 ^^^ (q &&& 31) = q := by
  have hq := q.toNat_lt
  have hm : q.toNat >>> 5 <<< 5 ≤ q.toNat := by
    rw [Nat.shiftLeft_eq, Nat.shiftRight_eq_div_pow]
    exact Nat.div_mul_le_self _ _
  rw [← UInt32.toNat_inj, UInt32.toNat_xor, UInt32.toNat_shiftLeft, UInt32.toNat_shiftRight, UInt32.toNat_and]
  show (q.toNat >>> 5 <<< 5) % 2 ^ 32 ^^^ (q.toNat &&& 2 ^ 5 - 1) = q.toNat
  rw [Nat.mod_eq_of_lt (by omega), Nat.and_two_pow_sub_one_eq_mod]
  refine Nat.eq_of_testBit_eq fun i => ?_
  rw [Nat.testBit_xor, Nat.testBit_shiftLeft, Nat.testBit_shiftRight, Nat.testBit_mod_two_pow]
  by_cases h : i < 5
  · simp [h, Nat.not_le.2 h]
  · have hi : 5 + (i - 5) = i := by omega
    simp [h, Nat.le_of_not_lt h, hi]

/-- Below `2 ^ 30` no bit of a number is shifted out. -/
theorem polymodStep_shiftRight {q : UInt32} (h : q.toNat < 2 ^ 30) :
    polymodStep (q >>> 5) (q &&& (31 : UInt32)).toNat = q := by
  have hq : (q >>> 5).toNat = q.toNat / 2 ^ 5 := by
    rw [UInt32.toNat_shiftRight, ← Nat.shiftRight_eq_div_pow]
    rfl
  have hl : q >>> 5 &&& (0x1ffffff : UInt32) = q >>> 5 := by
    rw [← UInt32.toNat_inj, UInt32.toNat_and]
    exact (Nat.and_two_pow_sub_one_eq_mod _ 25).trans (Nat.mod_eq_of_lt (by omega))
  have ht : (q >>> 5 >>> 25).toNat = 0 := by
    rw [UInt32.toNat_shiftRight, Nat.shiftRight_eq_div_pow, hq]
    show q.toNat / 2 ^ 5 / 2 ^ 25 = 0
    omega
  rw [polymodStep_eq, shifted, hl, ht, selected_zero, UInt32.xor_zero, UInt32.ofNat_toNat, shiftLeft_shiftRight_xor]

/-- A remainder below `2 ^ 30` is what its six groups leave, one shift at a time. -/
theorem foldl_sixGroups {p : UInt32} (h : p.toNat < 2 ^ 30) : (sixGroups p).foldl polymodStep 0 = p := by
  have hs (a b : UInt32) (hb : b = a + 5) (ha : a.toNat + 5 < 32) :
      polymodStep (p >>> b) (p >>> a &&& (31 : UInt32)).toNat = p >>> a := by
    rw [hb, ← shiftRight_shiftRight p (b := 5) ha, polymodStep_shiftRight]
    rw [UInt32.toNat_shiftRight]
    exact Nat.lt_of_le_of_lt (Nat.shiftRight_le _ _) h
  have h0 : p >>> 30 = 0 := by
    rw [← UInt32.toNat_inj, UInt32.toNat_shiftRight, Nat.shiftRight_eq_div_pow]
    exact Nat.div_eq_of_lt h
  calc (sixGroups p).foldl polymodStep 0
      = (sixGroups p).foldl polymodStep (p >>> 30) := by rw [h0]
    _ = p >>> (0 : UInt32) := by
        simp only [sixGroups, List.map_cons, List.map_nil, List.foldl_cons, List.foldl_nil]
        rw [hs 25 30 rfl (by decide), hs 20 25 rfl (by decide), hs 15 20 rfl (by decide), hs 10 15 rfl (by decide),
          hs 5 10 rfl (by decide), hs 0 5 rfl (by decide)]
    _ = p := UInt32.shiftRight_zero

theorem verifies_append_checksum (kind : Checksum) {human : List Char} (h : human.map Char.toLower = human)
    (groups : List Nat) : verifies kind human (groups ++ checksum kind human groups) = true := by
  -- the remainder of all but the checksum, then that with six zeros taken in
  let r := (expand human ++ groups).foldl polymodStep 1
  let p := (List.replicate 6 0).foldl polymodStep r
  have hp : p = polymod (expand human ++ groups ++ List.replicate 6 0) := by
    rw [polymod, List.foldl_append]
  have hk : (p ^^^ kind.constant).toNat < 2 ^ 30 := by
    rw [UInt32.toNat_xor]
    refine Nat.xor_lt_two_pow ?_ (by cases kind <;> decide)
    show (polymodStep _ 0).toNat < 2 ^ 30
    rw [polymodStep_zero]
    exact shifted_lt _
  have hc : checksum kind human groups = sixGroups (p ^^^ kind.constant) := by
    rw [hp]
    rfl
  have hx : (sixGroups (p ^^^ kind.constant)).foldl polymodStep r = kind.constant := by
    have hl := foldl_polymodStep_xor r 0 (sixGroups (p ^^^ kind.constant))
    rw [UInt32.xor_zero, foldl_sixGroups hk] at hl
    rw [hl]
    show p ^^^ (p ^^^ kind.constant) = kind.constant
    rw [← UInt32.xor_assoc, UInt32.xor_self, UInt32.zero_xor]
  rw [verifies, h, polymod, ← List.append_assoc, List.foldl_append, hc, hx]
  exact beq_self_eq_true _

/-! ## Groups of bits -/

theorem ofBits_append_singleton (bs : List Bool) (b : Bool) : ofBits (bs ++ [b]) = 2 * ofBits bs + b.toNat := by
  rw [ofBits, List.foldl_append]
  rfl

theorem ofBits_lt (bs : List Bool) : ofBits bs < 2 ^ bs.length := by
  induction bs using List.reverseRecOn with
  | nil => decide
  | append_singleton bs b ih =>
    rw [ofBits_append_singleton, List.length_append, List.length_singleton, Nat.pow_succ]
    have := b.toNat_lt
    omega

theorem bits_succ (w n : Nat) : bits (w + 1) n = bits w (n / 2) ++ [n.testBit 0] := by
  rw [bits, List.range_succ_eq_map, List.reverse_cons, List.map_append, ← List.map_reverse, List.map_map]
  congr 1
  refine List.map_congr_left fun i _ => ?_
  exact Nat.testBit_succ n i

theorem length_bits (w n : Nat) : (bits w n).length = w := by
  rw [bits, List.length_map, List.length_reverse, List.length_range]

theorem bits_ofBits (bs : List Bool) : bits bs.length (ofBits bs) = bs := by
  induction bs using List.reverseRecOn with
  | nil => rfl
  | append_singleton bs b ih =>
    have hd : (2 * ofBits bs + b.toNat) / 2 = ofBits bs := by
      have := b.toNat_lt
      omega
    have ht : (2 * ofBits bs + b.toNat).testBit 0 = b := by
      rw [Nat.testBit_zero]
      cases b <;> simp
    rw [ofBits_append_singleton, List.length_append, List.length_singleton, bits_succ, hd, ht, ih]

theorem ofBits_bits (w n : Nat) : ofBits (bits w n) = n % 2 ^ w := by
  induction w generalizing n with
  | zero => exact (Nat.mod_one n).symm
  | succ w ih =>
    have ht : (n.testBit 0).toNat = n % 2 := (Nat.toNat_testBit n 0).trans (by rw [Nat.pow_zero, Nat.div_one])
    rw [bits_succ, ofBits_append_singleton, ih, ht, Nat.pow_succ', Nat.mod_mul, Nat.add_comm]

theorem length_lt_five {bs : List Bool} (h : ∀ a b c d e rest, bs = a :: b :: c :: d :: e :: rest → False) :
    bs.length < 5 := by
  match bs with
  | [] | [_] | [_, _] | [_, _, _] | [_, _, _, _] => simp
  | a :: b :: c :: d :: e :: rest => exact (h a b c d e rest rfl).elim

/-- Groups of five bits hold the bits and fewer than five zeros behind them. -/
theorem flatMap_bits_fives (bs : List Bool) :
    ∃ k, k < 5 ∧ (fives bs).flatMap (bits 5) = bs ++ List.replicate k false := by
  fun_induction fives bs with
  | case1 a b c d e rest ih =>
    obtain ⟨k, hk, h⟩ := ih
    refine ⟨k, hk, ?_⟩
    rw [List.flatMap_cons, h]
    exact congrArg (· ++ _) (bits_ofBits [a, b, c, d, e])
  | case2 => exact ⟨0, by decide, rfl⟩
  | case3 bs h5 h0 =>
    have hl := length_lt_five h5
    have hp : 0 < bs.length := List.length_pos_iff.2 h0
    refine ⟨5 - bs.length, by omega, ?_⟩
    have h := bits_ofBits (bs ++ List.replicate (5 - bs.length) false)
    rw [List.length_append, List.length_replicate, Nat.add_sub_cancel' (Nat.le_of_lt hl)] at h
    rw [List.flatMap_singleton, h]

theorem lt_of_mem_fives {bs : List Bool} : ∀ g ∈ fives bs, g < 32 := by
  fun_induction fives bs with
  | case1 a b c d e rest ih => exact List.forall_mem_cons.2 ⟨ofBits_lt [a, b, c, d, e], ih⟩
  | case2 => exact nofun
  | case3 bs h5 h0 =>
    have hl := length_lt_five h5
    have h := ofBits_lt (bs ++ List.replicate (5 - bs.length) false)
    rw [List.length_append, List.length_replicate, Nat.add_sub_cancel' (Nat.le_of_lt hl)] at h
    exact List.forall_mem_singleton.2 h

theorem eights_of_lt {left : List Bool} (h : left.length < 8) : eights left = ([], left) := by
  unfold eights
  split
  · simp only [List.length_cons] at h
    omega
  · rfl

theorem eights_bits_append (n : Nat) (rest : List Bool) :
    eights (bits 8 n ++ rest) = (UInt8.ofNat (ofBits (bits 8 n)) :: (eights rest).1, (eights rest).2) := rfl

theorem eights_flatMap_append (b : Bytes) {left : List Bool} (h : left.length < 8) :
    eights (b.flatMap (fun x => bits 8 x.toNat) ++ left) = (b, left) := by
  induction b with
  | nil => exact eights_of_lt h
  | cons x b ih =>
    have hx : UInt8.ofNat (ofBits (bits 8 x.toNat)) = x := by
      rw [ofBits_bits, Nat.mod_eq_of_lt x.toNat_lt, UInt8.ofNat_toNat]
    rw [List.flatMap_cons, List.append_assoc, eights_bits_append, ih, hx]

/-- Bytes are put together again from their groups of five bits. -/
theorem ofGroups?_toGroups (b : Bytes) : ofGroups? (toGroups b) = some b := by
  obtain ⟨k, hk, h⟩ := flatMap_bits_fives (b.flatMap fun x => bits 8 x.toNat)
  have hl : (List.replicate k false).length < 5 := by rwa [List.length_replicate]
  rw [ofGroups?, toGroups, h, eights_flatMap_append b (by omega)]
  exact if_pos ⟨hl, List.all_eq_true.2 fun x hx => by rw [List.eq_of_mem_replicate hx]; rfl⟩

theorem length_flatMap_bits (w : Nat) (ns : List Nat) : (ns.flatMap (bits w)).length = w * ns.length := by
  induction ns with
  | nil => rfl
  | cons n ns ih =>
    rw [List.flatMap_cons, List.length_append, length_bits, ih, List.length_cons, Nat.mul_succ, Nat.add_comm]

theorem length_toGroups_le (b : Bytes) : 5 * (toGroups b).length ≤ 8 * b.length + 4 := by
  obtain ⟨k, hk, h⟩ := flatMap_bits_fives (b.flatMap fun x => bits 8 x.toNat)
  have hb : (b.flatMap fun x => bits 8 x.toNat).length = 8 * b.length := by
    rw [← List.flatMap_map, length_flatMap_bits, List.length_map]
  have hl := congrArg List.length h
  rw [length_flatMap_bits, List.length_append, List.length_replicate, hb] at hl
  rw [toGroups, hl]
  exact Nat.add_le_add_left (Nat.le_of_lt_succ hk) _

/-! ## The text -/

/-- The character of a group. -/
def char (g : Nat) : Char := alphabet.getD g 'q'

theorem char_read {g : Nat} (h : g < 32) :
    char g ≠ '1' ∧ (char g).isUpper = false ∧ alphabet.idxOf? (char g).toLower = some g := by
  have hg : ∀ i : Fin 32, char i.val ≠ '1' ∧ (char i.val).isUpper = false ∧
      alphabet.idxOf? (char i.val).toLower = some i.val := by decide +kernel
  exact hg ⟨g, h⟩

theorem toList_encode (kind : Checksum) (human : String) (groups : List Nat) :
    (encode kind human groups).toList =
      human.toList ++ '1' :: (groups ++ checksum kind human.toList groups).map char := by
  rw [encode, String.toList_append, String.toList_append, List.append_assoc]
  exact congrArg (fun cs => human.toList ++ '1' :: cs) String.toList_ofList

theorem mapM_idxOf? {groups : List Nat} (h : ∀ g ∈ groups, g < 32) :
    ((groups.map char).mapM fun c => alphabet.idxOf? c.toLower) = some groups := by
  induction groups with
  | nil => rfl
  | cons g groups ih =>
    obtain ⟨hg, hgs⟩ := List.forall_mem_cons.1 h
    rw [List.map_cons, List.mapM_cons, (char_read hg).2.2, ih hgs]
    rfl

theorem length_checksum (kind : Checksum) (human : List Char) (groups : List Nat) :
    (checksum kind human groups).length = 6 := rfl

theorem lt_of_mem_checksum {kind : Checksum} {human : List Char} {groups : List Nat} :
    ∀ g ∈ checksum kind human groups, g < 32 := by
  intro g hg
  obtain ⟨shift, -, rfl⟩ := List.mem_map.1 hg
  rw [UInt32.toNat_and]
  exact Nat.lt_succ_of_le Nat.and_le_right

/-- The groups of a text are what comes after the last separator. -/
theorem takeWhile_reverse {all : List Nat} (h : ∀ g ∈ all, g < 32) (human : List Char) :
    (human ++ '1' :: all.map char).reverse.takeWhile (· != '1') = (all.map char).reverse := by
  have hc : ∀ c ∈ (all.map char).reverse, (c != '1') = true := by
    intro c hc
    obtain ⟨g, hg, rfl⟩ := List.mem_map.1 (List.mem_reverse.1 hc)
    exact bne_iff_ne.2 (char_read (h g hg)).1
  rw [List.reverse_append, List.reverse_cons, List.append_assoc, List.takeWhile_append_of_pos hc]
  exact List.append_nil _

theorem guard_of {p : Prop} [Decidable p] (h : p) : (guard p : Option Unit) = some () := if_pos h

/-- A human-readable part in lower case and groups behind it are read back from
a text of at most 90 characters. -/
theorem parts?_of_toList {text : String} {human : List Char} {all : List Nat} (hne : human ≠ [])
    (hh : human.all isHuman = true) (hu : human.any Char.isUpper = false) (hg : ∀ g ∈ all, g < 32)
    (hl : human.length + all.length + 1 ≤ 90) (ht : text.toList = human ++ '1' :: all.map char) :
    parts? text = some (human, all) := by
  have hug : (all.map char).any Char.isUpper = false := by
    rw [List.any_eq_false]
    intro c hc
    obtain ⟨g, hm, rfl⟩ := List.mem_map.1 hc
    rw [(char_read (hg g hm)).2.1]
    exact Bool.false_ne_true
  have hua : (human ++ '1' :: all.map char).any Char.isUpper = false := by
    rw [List.any_append, List.any_cons, hu, hug]
    rfl
  have hcs : (human ++ '1' :: all.map char).length = human.length + all.length + 1 := by
    rw [List.length_append, List.length_cons, List.length_map, Nat.add_assoc]
  have hn : human.length + all.length + 1 - all.length - 1 = human.length := by omega
  rw [parts?, ht]
  dsimp only
  rw [takeWhile_reverse hg human, List.reverse_reverse, List.length_reverse, List.length_map, hcs, hn,
    List.take_left, mapM_idxOf? hg, hua, Bool.and_false, guard_of hl, guard_of (by rfl),
    guard_of ⟨by omega, hne, hh⟩]
  rfl

theorem parts?_encode (kind : Checksum) {human : String} {groups : List Nat} (hne : human.toList ≠ [])
    (hh : human.toList.all isHuman = true) (hu : human.toList.any Char.isUpper = false)
    (hg : ∀ g ∈ groups, g < 32) (hl : human.toList.length + groups.length + 7 ≤ 90) :
    parts? (encode kind human groups) = some (human.toList, groups ++ checksum kind human.toList groups) := by
  refine parts?_of_toList hne hh hu ?_ ?_ (toList_encode kind human groups)
  · exact fun g hm => (List.mem_append.1 hm).elim (hg g) (lt_of_mem_checksum g)
  · rw [List.length_append, length_checksum]
    omega

end Bitcoin.Bech32

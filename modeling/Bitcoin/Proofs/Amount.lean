import Bitcoin.Transaction

/-!
# Exact sums of amounts

What some amounts sum to as numbers (`exactSum`). A sum of amounts that are not
negative differs from it only by stopping at the upper bound
(`toInt_saturatingSum`), and from there on nothing more can be added
(`toInt_eq_of_ofInt?_add_saturatingSum`). A sum that passes no bound on the way
does not differ from it at all (`toInt_saturatingSum_of_checkedSum?`), and those
are the sums that can be checked (`isSome_checkedSum?_iff`).

The check of the amounts of a transaction passes exactly if no sum on the way
leaves the bounds (`Fits`): the partial sums of what is spent and of what is
made, one after the other, then the difference of the two. Where it passes, the
sums that would stop at a bound do not stop, so that the fee is the exact
difference (`toInt_fee_of_fits`). A sum that comes back within the bounds later
on does not fit.
-/

namespace Bitcoin.Amount

/-- The sum of some amounts as numbers. -/
def exactSum : List Amount → Int
  | [] => 0
  | x :: xs => x.toInt + exactSum xs

variable {n : Int} {a b : Amount} {xs : List Amount}

theorem toInt_ofInt (hn : Int64.minValue.toInt ≤ n) (hm : n ≤ Int64.maxValue.toInt) : (Int64.ofInt n).toInt = n :=
  Int64.toInt_ofInt_of_le hn (Int.lt_of_le_of_lt hm (by decide))

theorem toInt_saturate (n : Int) :
    (saturate n).toInt = max Int64.minValue.toInt (min n Int64.maxValue.toInt) :=
  toInt_ofInt (Int.le_max_left _ _) (Int.max_le.2 ⟨by decide, Int.min_le_right _ _⟩)

theorem saturate_nonneg_iff : 0 ≤ saturate n ↔ 0 ≤ n := by
  have hmin : Int64.minValue.toInt < 0 := by decide
  have hmax : 0 ≤ Int64.maxValue.toInt := by decide
  rw [Int64.le_iff_toInt_le, toInt_saturate]
  show 0 ≤ max Int64.minValue.toInt (min n Int64.maxValue.toInt) ↔ 0 ≤ n
  omega

theorem ofInt?_eq_some_iff : ofInt? n = some a ↔ a.toInt = n := by
  unfold ofInt?
  constructor
  · intro h
    split at h
    · rename_i hn
      cases h
      exact toInt_ofInt hn.1 hn.2
    · cases h
  · rintro rfl
    rw [if_pos ⟨a.minValue_le_toInt, a.toInt_le⟩, Int64.ofInt_toInt]

theorem exactSum_nonneg (h : ∀ x ∈ xs, 0 ≤ x) : 0 ≤ exactSum xs := by
  induction xs with
  | nil => exact Int.le_refl 0
  | cons x xs ih =>
    have hx : 0 ≤ x.toInt := Int64.le_iff_toInt_le.1 (h x List.mem_cons_self)
    exact Int.add_nonneg hx (ih fun y hy => h y (List.mem_cons_of_mem _ hy))

/-- A sum from an amount on. Once it has come to the upper bound it stays there. -/
theorem toInt_foldl_saturate (ha : 0 ≤ a.toInt) (h : ∀ x ∈ xs, 0 ≤ x) :
    (xs.foldl (fun sum x => saturate (sum.toInt + x.toInt)) a).toInt =
      min (a.toInt + exactSum xs) Int64.maxValue.toInt := by
  induction xs generalizing a with
  | nil =>
    have := a.toInt_le
    rw [List.foldl_nil, exactSum]
    omega
  | cons x xs ih =>
    have hx : 0 ≤ x.toInt := Int64.le_iff_toInt_le.1 (h x List.mem_cons_self)
    have hxs : ∀ y ∈ xs, 0 ≤ y := fun y hy => h y (List.mem_cons_of_mem _ hy)
    have hmin : Int64.minValue.toInt ≤ 0 := by decide
    have hmax : 0 ≤ Int64.maxValue.toInt := by decide
    have hs : (saturate (a.toInt + x.toInt)).toInt = min (a.toInt + x.toInt) Int64.maxValue.toInt := by
      rw [toInt_saturate]
      omega
    have := exactSum_nonneg hxs
    rw [List.foldl_cons, ih (by omega) hxs, hs, exactSum]
    omega

theorem toInt_saturatingSum (h : ∀ x ∈ xs, 0 ≤ x) :
    (saturatingSum xs).toInt = min (exactSum xs) Int64.maxValue.toInt := by
  have h0 : (0 : Amount).toInt = 0 := rfl
  rw [saturatingSum, toInt_foldl_saturate (Int.le_of_eq h0.symm) h, h0, Int.zero_add]

theorem saturate_eq_of_ofInt? (h : ofInt? n = some a) : saturate n = a := by
  have hv := ofInt?_eq_some_iff.1 h
  have hlo := a.minValue_le_toInt
  have hhi := a.toInt_le
  rw [← Int64.toInt_inj, toInt_saturate]
  omega

/-- A checked sum from an amount on is exact, and the same as one that would stop. -/
theorem foldl_saturate_of_foldlM (h : xs.foldlM (fun sum x => ofInt? (sum.toInt + x.toInt)) a = some b) :
    xs.foldl (fun sum x => saturate (sum.toInt + x.toInt)) a = b ∧ b.toInt = a.toInt + exactSum xs := by
  induction xs generalizing a with
  | nil =>
    cases h
    exact ⟨rfl, (Int.add_zero _).symm⟩
  | cons x xs ih =>
    obtain ⟨c, hc, h⟩ := Option.bind_eq_some_iff.1 h
    obtain ⟨hf, hs⟩ := ih h
    rw [List.foldl_cons, saturate_eq_of_ofInt? hc, exactSum, hs, ofInt?_eq_some_iff.1 hc, Int.add_assoc]
    exact ⟨hf, rfl⟩

theorem toInt_saturatingSum_of_checkedSum? (h : (checkedSum? xs).isSome) :
    (saturatingSum xs).toInt = exactSum xs := by
  obtain ⟨b, hb⟩ := Option.isSome_iff_exists.1 h
  obtain ⟨hf, hs⟩ := foldl_saturate_of_foldlM hb
  rw [saturatingSum, hf, hs]
  exact Int.zero_add _

/-- Where a positive amount can be added to a sum, the sum did not stop at the
bound. -/
theorem toInt_eq_of_ofInt?_add_saturatingSum (h : ∀ x ∈ xs, 0 ≤ x) (ha : 0 < a)
    (hb : ofInt? (a.toInt + (saturatingSum xs).toInt) = some b) : b.toInt = a.toInt + exactSum xs := by
  have hpos : 0 < a.toInt := Int64.lt_iff_toInt_lt.1 ha
  have hsum := toInt_saturatingSum h
  have hval := ofInt?_eq_some_iff.1 hb
  have hmax := b.toInt_le
  omega

/-! ## Bounds -/

/-- The number is within the bounds of amounts. -/
def InBounds (n : Int) : Prop := Int64.minValue.toInt ≤ n ∧ n ≤ Int64.maxValue.toInt

instance : Decidable (InBounds n) := inferInstanceAs (Decidable (_ ∧ _))

theorem inBounds_toInt (a : Amount) : InBounds a.toInt := ⟨a.minValue_le_toInt, a.toInt_le⟩

theorem isSome_ofInt?_iff : (ofInt? n).isSome ↔ InBounds n := by
  unfold ofInt?
  rw [Option.isSome_ite]
  rfl

theorem toInt_saturate_of_inBounds (h : InBounds n) : (saturate n).toInt = n := by
  obtain ⟨hlo, hhi⟩ := h
  rw [toInt_saturate]
  omega

/-- A checked sum from an amount on exists if no partial sum leaves the bounds. -/
theorem isSome_foldlM_iff : (xs.foldlM (fun sum x => ofInt? (sum.toInt + x.toInt)) a).isSome ↔
    ∀ k, InBounds (a.toInt + exactSum (xs.take k)) := by
  induction xs generalizing a with
  | nil => simpa [exactSum] using inBounds_toInt a
  | cons x xs ih =>
    rw [List.foldlM_cons]
    cases hc : ofInt? (a.toInt + x.toInt) with
    | none =>
      refine iff_of_false (by simp) fun h => ?_
      have hx : InBounds (a.toInt + x.toInt) := by simpa [exactSum] using h 1
      rw [← isSome_ofInt?_iff, hc] at hx
      cases hx
    | some c =>
      have hv : c.toInt = a.toInt + x.toInt := ofInt?_eq_some_iff.1 hc
      show (xs.foldlM (fun sum x => ofInt? (sum.toInt + x.toInt)) c).isSome ↔ _
      rw [ih, hv]
      simp only [Int.add_assoc]
      constructor
      · intro h k
        cases k with
        | zero => simpa [exactSum] using inBounds_toInt a
        | succ k => exact h k
      · exact fun h k => h (k + 1)

theorem isSome_checkedSum?_iff : (checkedSum? xs).isSome ↔ ∀ k, InBounds (exactSum (xs.take k)) := by
  have h0 : (0 : Amount).toInt = 0 := rfl
  rw [checkedSum?, isSome_foldlM_iff, h0]
  simp only [Int.zero_add]

theorem toInt_of_checkedSum? (h : checkedSum? xs = some a) : a.toInt = exactSum xs := by
  rw [(foldl_saturate_of_foldlM h).2]
  exact Int.zero_add _

end Bitcoin.Amount

/-! ## Checked amounts of transactions -/

namespace Bitcoin.Transaction

open Amount

/-- Each partial sum of the amounts of the known prevouts, and of those of the
outputs, is within the bounds. -/
structure SumsFit (tx : Transaction) : Prop where
  spent : ∀ k, InBounds (exactSum (tx.inputValues.take k))
  made : ∀ k, InBounds (exactSum (tx.outputValues.take k))

/-- The difference of the two sums is within the bounds as well. -/
structure Fits (tx : Transaction) : Prop extends SumsFit tx where
  difference : InBounds (exactSum tx.inputValues - exactSum tx.outputValues)

variable {tx : Transaction}

theorem sumsFit_iff :
    tx.SumsFit ↔ (checkedSum? tx.inputValues).isSome ∧ (checkedSum? tx.outputValues).isSome := by
  rw [isSome_checkedSum?_iff, isSome_checkedSum?_iff]
  exact ⟨fun h => ⟨h.spent, h.made⟩, fun h => ⟨h.1, h.2⟩⟩

theorem fits_iff :
    tx.Fits ↔ tx.SumsFit ∧ InBounds (exactSum tx.inputValues - exactSum tx.outputValues) :=
  ⟨fun h => ⟨h.toSumsFit, h.difference⟩, fun h => ⟨h.1, h.2⟩⟩

instance : Decidable tx.SumsFit := decidable_of_iff _ sumsFit_iff.symm

instance : Decidable tx.Fits := decidable_of_iff _ fits_iff.symm

theorem checkAmounts_of_not_sumsFit (h : ¬ tx.SumsFit) : tx.checkAmounts = .error (.input .valueSum) := by
  unfold checkAmounts
  split
  · rename_i a b ha hb
    exact absurd (sumsFit_iff.2 ⟨Option.isSome_of_eq_some ha, Option.isSome_of_eq_some hb⟩) h
  · rfl

/-- Where the sums fit, only their difference is left to check. -/
theorem checkAmounts_of_sumsFit (h : tx.SumsFit) : tx.checkAmounts =
    if InBounds (exactSum tx.inputValues - exactSum tx.outputValues) then .ok tx else .error (.input .fee) := by
  obtain ⟨ha, hb⟩ := sumsFit_iff.1 h
  obtain ⟨a, ha⟩ := Option.isSome_iff_exists.1 ha
  obtain ⟨b, hb⟩ := Option.isSome_iff_exists.1 hb
  rw [checkAmounts, ha, hb, ← toInt_of_checkedSum? ha, ← toInt_of_checkedSum? hb]
  dsimp only
  split
  · rename_i fee hfee
    rw [if_pos (isSome_ofInt?_iff.1 (Option.isSome_of_eq_some hfee))]
  · rename_i hfee
    rw [if_neg (by rw [← isSome_ofInt?_iff, hfee]; exact Bool.false_ne_true)]

theorem toInt_fee_of_fits (h : tx.Fits) :
    tx.fee.toInt = exactSum tx.inputValues - exactSum tx.outputValues := by
  obtain ⟨ha, hb⟩ := sumsFit_iff.1 h.toSumsFit
  rw [fee, toInt_saturatingSum_of_checkedSum? ha, toInt_saturatingSum_of_checkedSum? hb,
    toInt_saturate_of_inBounds h.difference]

/-- A transaction passes the check of its amounts, as it is, exactly if no sum of
them and not their difference leaves the bounds. Its fee is the exact
difference then. Otherwise the check fails, for a sum if there is one. -/
theorem checkAmounts_eq_ok_iff_fits (tx : Transaction) :
    (∀ t, tx.checkAmounts = .ok t ↔ tx.Fits ∧ t = tx) ∧
    (tx.Fits → tx.fee.toInt = exactSum tx.inputValues - exactSum tx.outputValues) ∧
    (¬ tx.Fits → tx.checkAmounts = .error (.input (if tx.SumsFit then .fee else .valueSum))) := by
  by_cases hs : tx.SumsFit
  · rw [checkAmounts_of_sumsFit hs, if_pos hs]
    by_cases hd : InBounds (exactSum tx.inputValues - exactSum tx.outputValues)
    · have hf : tx.Fits := fits_iff.2 ⟨hs, hd⟩
      have hok (t : Transaction) : Except.ok (ε := Error) tx = .ok t ↔ tx.Fits ∧ t = tx := by
        simp [hf, eq_comm]
      rw [if_pos hd]
      exact ⟨hok, toInt_fee_of_fits, fun h => absurd hf h⟩
    · have hf : ¬ tx.Fits := fun h => hd h.difference
      rw [if_neg hd]
      exact ⟨fun t => iff_of_false nofun fun h => hf h.1, fun h => absurd h hf, fun _ => rfl⟩
  · have hf : ¬ tx.Fits := fun h => hs h.toSumsFit
    rw [checkAmounts_of_not_sumsFit hs, if_neg hs]
    refine ⟨fun t => iff_of_false nofun fun h => hf h.1, fun h => absurd h hf, fun _ => rfl⟩

/-- Spends outputs of some amounts and makes outputs of others. -/
def spendOf (spent made : List Amount) : Transaction where
  version := 2
  locktime := 0
  inputs := spent.map fun value => .make ⟨FixedBytes.zero 32, 1⟩ (some (.ofScript value [0x51])) [] [] 0xffffffff
  outputs := made.map fun value => .ofScript value [0x51]

/-- Amounts that come to the upper bound, a sum that comes back from beyond it,
and sums that are within the bounds but too far apart. -/
theorem checkAmounts_eq_ok_iff_fits_spendOf :
    let full := spendOf [Int64.maxValue, -1] [-1]
    let back := spendOf [5] [Int64.maxValue, 1, -7]
    let apart := spendOf [Int64.maxValue] [-1]
    (full.Fits ∧ full.checkAmounts = .ok full ∧ full.fee.toInt = Int64.maxValue.toInt) ∧
    (¬ back.Fits ∧ back.checkAmounts = .error (.input .valueSum)) ∧
    ¬ apart.Fits ∧ apart.checkAmounts = .error (.input .fee) := by
  intro full back apart
  have hfull : full.Fits := by decide +kernel
  have hback : ¬ back.Fits := by decide +kernel
  have hapart : ¬ apart.Fits := by decide +kernel
  obtain ⟨passes, fee_eq, -⟩ := checkAmounts_eq_ok_iff_fits full
  refine ⟨⟨hfull, (passes full).2 ⟨hfull, rfl⟩, ?_⟩, ⟨hback, ?_⟩, hapart, ?_⟩
  · rw [fee_eq hfull]
    decide +kernel
  · exact (checkAmounts_eq_ok_iff_fits back).2.2 hback
  · exact (checkAmounts_eq_ok_iff_fits apart).2.2 hapart

end Bitcoin.Transaction

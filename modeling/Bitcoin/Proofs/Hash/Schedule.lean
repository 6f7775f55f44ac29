import Bitcoin.Hash

/-!
# The schedule with its latest word first

Held in this order, the words that the next one depends on stand at fixed
places (`next`), and a block is spread by putting word after word in front
(`schedule_eq`). No place of an array has to be looked up, so that the digest
of a closed message in this form (`sha256_eq`) is evaluated several times as
fast as by the definition.
-/

namespace Bitcoin

open Hash

theorem Hash.length_wordsBE (b : Bytes) : (wordsBE b).length = b.length / 4 := by
  fun_induction wordsBE b with
  | case1 a b c d rest ih =>
    simp only [List.length_cons, ih]
    omega
  | case2 b h =>
    rcases b with _ | ⟨w, _ | ⟨x, _ | ⟨y, _ | ⟨z, b⟩⟩⟩⟩
    · rfl
    · simp
    · simp
    · simp
    · exact (h w x y z b rfl).elim

namespace Sha256

variable {latest : List UInt32}

/-! ## Words -/

/-- The word that follows in a schedule. -/
def next (latest : List UInt32) : UInt32 :=
  let w2 := latest.getD 1 0
  let w15 := latest.getD 14 0
  let s0 := rotr w15 7 ^^^ rotr w15 18 ^^^ w15 >>> 3
  let s1 := rotr w2 17 ^^^ rotr w2 19 ^^^ w2 >>> 10
  s1 + latest.getD 6 0 + s0 + latest.getD 15 0

/-- A schedule with so many words more. -/
def spread : Nat → List UInt32 → List UInt32
  | 0, latest => latest
  | n + 1, latest => spread n (next latest :: latest)

/-- A place counted from the end of the array. -/
theorem getD_reverse_toArray {k : Nat} (h : k < latest.length) :
    latest.reverse.toArray.getD (latest.length - (k + 1)) 0 = latest.getD k 0 := by
  have hk : latest.length - 1 - (latest.length - (k + 1)) = k := by omega
  rw [Array.getD_eq_getD_getElem?, List.getElem?_toArray, List.getElem?_reverse (by omega), hk,
    List.getD_eq_getElem?_getD]

theorem extend_eq (h : 16 ≤ latest.length) :
    extend latest.reverse.toArray latest.length = (next latest :: latest).reverse.toArray := by
  have getD (k : Nat) (hk : k < 16) := getD_reverse_toArray (Nat.lt_of_lt_of_le hk h)
  simp only [extend, next, getD 1, getD 6, getD 14, getD 15, Nat.reduceLT, List.reverse_cons, List.push_toArray]

theorem foldl_extend (n : Nat) (h : 16 ≤ latest.length) :
    (List.range' latest.length n).foldl extend latest.reverse.toArray = (spread n latest).reverse.toArray := by
  induction n generalizing latest with
  | zero => rfl
  | succ n ih =>
    rw [List.range'_succ, List.foldl_cons, extend_eq h, spread]
    exact ih (Nat.le_succ_of_le h)

theorem schedule_eq {block : Bytes} (h : block.length = 64) :
    schedule block = (spread 48 (wordsBE block).reverse).reverse := by
  have hw : (wordsBE block).reverse.length = 16 := by rw [List.length_reverse, length_wordsBE, h]
  have hf := foldl_extend 48 (Nat.le_of_eq hw.symm)
  rw [hw, List.reverse_reverse] at hf
  rw [schedule, hf]

/-! ## Blocks -/

/-- The state after one block. -/
def compressSpread (s : State) (block : Bytes) : State :=
  let t := rounds roundConstants (spread 48 (wordsBE block).reverse).reverse s
  ⟨s.a + t.a, s.b + t.b, s.c + t.c, s.d + t.d, s.e + t.e, s.f + t.f, s.g + t.g, s.h + t.h⟩

theorem compress_eq {block : Bytes} (h : block.length = 64) (s : State) :
    compress s block = compressSpread s block := by
  rw [compress, schedule_eq h]
  rfl

theorem fold_compress {n : Nat} {m : Bytes} (h : 64 * n ≤ m.length) (s : State) :
    fold compress n m s = fold compressSpread n m s := by
  induction n generalizing m s with
  | zero => rw [fold, fold]
  | succ n ih =>
    have hb : (m.take 64).length = 64 := by
      rw [List.length_take]
      omega
    have hm : 64 * n ≤ (m.drop 64).length := by
      rw [List.length_drop]
      omega
    rw [fold, fold, compress_eq hb, ih hm]

end Sha256

open Sha256

theorem sha256_eq (m : Bytes) :
    sha256 m = (foldBlocks compressSpread (pad Bytes.bigEndian m) .initial).bytes := by
  rw [sha256, digest, foldBlocks, foldBlocks, fold_compress (Nat.mul_div_le _ _)]

end Bitcoin

import Bitcoin.Proofs.Hash.Schedule
import Bitcoin.Proofs.Outcome
import Bitcoin.Taproot

/-!
# Trees of scripts and walks to their roots

A step of the walk up from a leaf hashes the node it has come to together with a
sibling, the lesser of the two first (`branchMessage`). The message does not say
on which side the node was, but beside one sibling it still tells the node
(`branchMessage_inj`). So two walks along one path come to the same root exactly
if they start from the same leaf, or hash two different messages to one value
at some step (`root_eq_iff`).

A tree has scripts as leaves, and the root of a branch is the hash over those of
its two sides (`ScriptTree.root`). Turns to the left and right lead from the
root to a leaf, and the roots beside the way, taken from the leaf upwards, make
the root of the leaf again (`foldl_siblings`). The control block that lists them
is read back from its bytes if there are at most 128 (`parse?_bytes`). So each
leaf that deep or less can be spent by its control block, with the right parity
and under the right output key only (`verifyScriptPath_control`).
-/

namespace Bitcoin.Taproot

/-! ## One step -/

/-- What the hash of a branch is taken of. -/
def branchMessage (a b : Hash256) : Bytes := if b.lt a then b.val ++ a.val else a.val ++ b.val

theorem branchHash_eq (a b : Hash256) : branchHash a b = taggedHash "TapBranch" (branchMessage a b) := rfl

@[simp] theorem length_branchMessage (a b : Hash256) : (branchMessage a b).length = 64 := by
  unfold branchMessage
  split <;> simp [a.property, b.property]

/-- Beside one sibling the message tells the node, whichever of the two comes first. -/
theorem branchMessage_inj {a b sibling : Hash256} : branchMessage a sibling = branchMessage b sibling ↔ a = b := by
  refine ⟨fun h => ?_, fun h => h ▸ rfl⟩
  unfold branchMessage at h
  split at h <;> split at h <;> obtain ⟨hl, hr⟩ := FixedBytes.append_val_inj.1 h
  · exact hr
  -- where one node comes first and the other last, both are the sibling
  · exact hr.trans hl
  · exact hl.trans hr
  · exact hl

theorem branchMessage_comm (a b : Hash256) : branchMessage a b = branchMessage b a := by
  unfold branchMessage
  by_cases hab : a.val < b.val
  · simp [FixedBytes.lt, hab, List.lt_asymm hab]
  · by_cases hba : b.val < a.val
    · simp [FixedBytes.lt, hab, hba]
    · have he : a = b := Subtype.ext (List.le_antisymm hba hab)
      rw [he]

/-- The hash of a branch does not depend on the sides. -/
theorem branchHash_comm (a b : Hash256) : branchHash a b = branchHash b a := by
  rw [branchHash_eq, branchHash_eq, branchMessage_comm]

namespace ControlBlock

variable (c : ControlBlock)

/-! ## The walk -/

/-- The node that the walk from a leaf comes to in so many steps. -/
def node (leaf : Hash256) (step : Nat) : Hash256 := (c.path.take step).foldl branchHash leaf

/-- What a step of the walk from a leaf hashes, if the path has that step. -/
def message? (leaf : Hash256) (step : Nat) : Option Bytes := c.path[step]?.map (branchMessage (c.node leaf step))

variable {c} {a b leaf : Hash256} {step : Nat}

theorem node_succ {message : Bytes} (h : c.message? leaf step = some message) :
    c.node leaf (step + 1) = taggedHash "TapBranch" message := by
  obtain ⟨sibling, hs, rfl⟩ := Option.map_eq_some_iff.1 h
  rw [node, List.take_add_one, hs, List.foldl_append]
  exact branchHash_eq _ _

/-- The root is what the rest of the path makes of a node. -/
theorem foldl_drop_node (leaf : Hash256) (step : Nat) :
    (c.path.drop step).foldl branchHash (c.node leaf step) = c.root leaf := by
  rw [node, ← List.foldl_append, List.take_append_drop, root]

theorem node_length (leaf : Hash256) : c.node leaf c.path.length = c.root leaf := by
  rw [node, List.take_length, root]

/-- At a step the walks from two leaves hash different messages of 64 bytes to one value. -/
def Collides (c : ControlBlock) (a b : Hash256) (step : Nat) : Prop :=
  ∃ s t, c.message? a step = some s ∧ c.message? b step = some t ∧ s.length = 64 ∧ t.length = 64 ∧ s ≠ t ∧
    taggedHash "TapBranch" s = taggedHash "TapBranch" t

/-- A step to the same node comes from the same node, or is where the walks collide. -/
theorem node_eq_or_collides (hs : step < c.path.length) (h : c.node a (step + 1) = c.node b (step + 1)) :
    c.node a step = c.node b step ∨ c.Collides a b step := by
  have message (leaf : Hash256) : c.message? leaf step = some (branchMessage (c.node leaf step) c.path[step]) := by
    rw [message?, List.getElem?_eq_getElem hs, Option.map_some]
  rw [node_succ (message a), node_succ (message b)] at h
  by_cases hm : branchMessage (c.node a step) c.path[step] = branchMessage (c.node b step) c.path[step]
  · exact .inl (branchMessage_inj.1 hm)
  · exact .inr ⟨_, _, message a, message b, length_branchMessage .., length_branchMessage .., hm, h⟩

/-- From a common node back to the leaves, by induction on the steps. -/
theorem eq_or_exists_collides (hs : step ≤ c.path.length) (h : c.node a step = c.node b step) :
    a = b ∨ ∃ k < step, c.Collides a b k := by
  induction step with
  | zero => exact .inl h
  | succ step ih =>
    obtain hn | hc := node_eq_or_collides hs h
    · exact (ih (Nat.le_of_succ_le hs) hn).imp_right fun ⟨k, hk, hc⟩ => ⟨k, Nat.lt_succ_of_lt hk, hc⟩
    · exact .inr ⟨step, Nat.lt_succ_self step, hc⟩

theorem Collides.root_eq (h : c.Collides a b step) : c.root a = c.root b := by
  obtain ⟨s, t, hs, ht, -, -, -, hh⟩ := h
  rw [← foldl_drop_node a (step + 1), ← foldl_drop_node b (step + 1), node_succ hs, node_succ ht, hh]

/-- Two leaves have one root along a path exactly if they are the same or some
step of the two walks hashes two different messages of 64 bytes to one value. -/
theorem root_eq_iff (c : ControlBlock) (a b : Hash256) :
    c.root a = c.root b ↔ a = b ∨ ∃ step < c.path.length, c.Collides a b step := by
  constructor
  · intro h
    refine eq_or_exists_collides (Nat.le_refl _) ?_
    rw [node_length, node_length, h]
  · rintro (rfl | ⟨step, -, hc⟩)
    · rfl
    · exact hc.root_eq

end ControlBlock

/-! ## Trees -/

/-- A script with the version of its leaf, whose last bit is zero. -/
structure Leaf where
  version : UInt8
  script : Bytes
  even : version &&& 0x01 = 0

/-- The hash of a leaf. -/
def Leaf.hash (l : Leaf) : Hash256 := leafHash l.version l.script

/-- A turn on the way down. -/
inductive Side where
  | left
  | right
  deriving Repr, DecidableEq

/-- A binary tree of scripts. -/
inductive ScriptTree where
  | leaf (l : Leaf)
  | branch (left right : ScriptTree)

namespace ScriptTree

/-- The root that an output commits to. -/
def root : ScriptTree → Hash256
  | .leaf l => l.hash
  | .branch a b => branchHash a.root b.root

/-- The leaf that turns lead to, one for each level. -/
def leaf? : ScriptTree → List Side → Option Leaf
  | .leaf l, [] => some l
  | .branch a _, .left :: way => a.leaf? way
  | .branch _ b, .right :: way => b.leaf? way
  | _, _ => none

/-- The roots beside the way, from the leaf upwards. -/
def siblings : ScriptTree → List Side → List Hash256
  | .branch a b, .left :: way => a.siblings way ++ [b.root]
  | .branch a b, .right :: way => b.siblings way ++ [a.root]
  | _, _ => []

/-- The control block for the leaf at the end of the way. -/
def control (t : ScriptTree) (way : List Side) (l : Leaf) (key : FixedBytes 32) (odd : Bool) : ControlBlock :=
  { leafVersion := l.version, odd, internalKey := key, path := t.siblings way }

variable {t : ScriptTree} {way : List Side} {l : Leaf}

/-- A leaf has as many siblings as levels above it. -/
theorem length_siblings (h : t.leaf? way = some l) : (t.siblings way).length = way.length := by
  fun_induction leaf? t way with
  | case1 => rfl
  | case2 a b way ih => simp [siblings, ih h]
  | case3 a b way ih => simp [siblings, ih h]
  | case4 => cases h

/-- The walk from a leaf along its siblings ends at the root. -/
theorem foldl_siblings (h : t.leaf? way = some l) : (t.siblings way).foldl branchHash l.hash = t.root := by
  fun_induction leaf? t way with
  | case1 m =>
    cases h
    rfl
  | case2 a b way ih => rw [siblings, List.foldl_append, ih h, root, List.foldl_cons, List.foldl_nil]
  | case3 a b way ih =>
    rw [siblings, List.foldl_append, ih h, root, List.foldl_cons, List.foldl_nil, branchHash_comm]
  | case4 => cases h

end ScriptTree

/-! ## The bytes of a control block -/

namespace ControlBlock

/-- The wire form. -/
def bytes (c : ControlBlock) : Bytes :=
  (c.leafVersion ||| if c.odd then 0x01 else 0x00) :: (c.internalKey.val ++ c.path.flatMap Subtype.val)

theorem length_flatMap_val (hs : List Hash256) : (hs.flatMap Subtype.val).length = 32 * hs.length := by
  induction hs with
  | nil => rfl
  | cons h hs ih =>
    rw [List.flatMap_cons, List.length_append, h.property, ih, List.length_cons]
    omega

theorem length_bytes (c : ControlBlock) : c.bytes.length = 33 + 32 * c.path.length := by
  rw [bytes, List.length_cons, List.length_append, c.internalKey.property, length_flatMap_val]
  omega

theorem hashes?_flatMap_val (hs : List Hash256) : hashes? hs.length (hs.flatMap Subtype.val) = some hs := by
  induction hs with
  | nil => rfl
  | cons h hs ih =>
    rw [List.length_cons, List.flatMap_cons, hashes?, Bytes.split?_append]
    show (hashes? hs.length (hs.flatMap Subtype.val)).bind (fun path => some (h :: path)) = _
    rw [ih]
    rfl

/-- The parts behind each other are told apart, unless the path is too long. -/
theorem parse?_cons (head : UInt8) (key : FixedBytes 32) (path : List Hash256) :
    parse? (head :: (key.val ++ path.flatMap Subtype.val)) =
      if path.length ≤ maxNodes then some ⟨head &&& 0xfe, head &&& 0x01 != 0, key, path⟩ else none := by
  have hl : (path.flatMap Subtype.val).length / 32 = path.length := by
    rw [length_flatMap_val]
    omega
  rw [parse?, Bytes.split?_append]
  show (if (path.flatMap Subtype.val).length / 32 ≤ maxNodes then some () else none).bind (fun _ =>
    (hashes? ((path.flatMap Subtype.val).length / 32) (path.flatMap Subtype.val)).bind fun path =>
      some (ControlBlock.mk (head &&& 0xfe) (head &&& 0x01 != 0) key path)) = _
  rw [hl, hashes?_flatMap_val]
  split <;> rfl

/-- The parity takes the bit that the version leaves free. -/
theorem version_or_parity {version : UInt8} (h : version &&& 0x01 = 0) (odd : Bool) :
    (version ||| if odd then 0x01 else 0x00) &&& 0xfe = version ∧
    ((version ||| if odd then 0x01 else 0x00) &&& 0x01 != 0) = odd := by
  have bits : ∀ v : BitVec 8, v &&& 1 = 0 → ∀ odd : Bool,
      (v ||| if odd then 1 else 0) &&& 0xfe = v ∧ ((v ||| if odd then 1 else 0) &&& 1 != 0) = odd := by
    decide +kernel
  obtain ⟨hv, ho⟩ := bits version.toBitVec (congrArg UInt8.toBitVec h) odd
  cases odd <;> exact ⟨UInt8.toBitVec_inj.1 hv, by simpa [bne, ← UInt8.toBitVec_inj] using ho⟩

/-- A control block is read back from its bytes unless its path is too long. -/
theorem parse?_bytes (c : ControlBlock) (h : c.leafVersion &&& 0x01 = 0) :
    parse? c.bytes = if c.path.length ≤ maxNodes then some c else none := by
  obtain ⟨hv, ho⟩ := version_or_parity h c.odd
  rw [bytes, parse?_cons, hv, ho]

theorem parse_bytes_of_le {c : ControlBlock} (h : c.leafVersion &&& 0x01 = 0) (hn : c.path.length ≤ maxNodes) :
    parse c.bytes = .ok c := by
  rw [parse, parse?_bytes c h, if_pos hn]

theorem parse_bytes_of_lt {c : ControlBlock} (h : c.leafVersion &&& 0x01 = 0) (hn : maxNodes < c.path.length) :
    parse c.bytes = .error (.input (.controlBlockLength (33 + 32 * c.path.length))) := by
  rw [parse, parse?_bytes c h, if_neg (Nat.not_le.2 hn), ← length_bytes]

end ControlBlock

/-! ## Verification -/

/-- With a tweak below the order of the group, the tweaked key and its parity decide. -/
theorem run_verifyScriptPath {c : ControlBlock} {control script : Bytes} {tweak : Hash256} {v : Verifier}
    {tweaked : FixedBytes 32} {odd : Bool} (outputKey : FixedBytes 32) (hc : ControlBlock.parse control = .ok c)
    (ht : tweakHash c.internalKey (some (c.root (leafHash c.leafVersion script))) = tweak)
    (hn : Bytes.ofBigEndian tweak.val < Secp256k1.n) (hv : v.tweak c.internalKey tweak = .ok (tweaked, odd)) :
    (verifyScriptPath outputKey script control v).run =
      (.ok (decide (tweaked = outputKey) && decide (odd = c.odd)), [.tweak c.internalKey tweak]) := by
  have hs : Check.tweak v c.internalKey tweak [] = .ok (tweaked, odd) [.tweak c.internalKey tweak] := by
    simp only [Check.tweak, hv, List.nil_append]
  simp only [verifyScriptPath, hc, Check.ofExcept, pure_bind, ht, if_neg (Nat.not_le.2 hn)]
  simp only [Check.run, EStateM.run, bind, EStateM.bind, hs]
  rfl

/-- A control block that cannot be read is an error, before the verifier is called. -/
theorem run_verifyScriptPath_of_error {control script : Bytes} {e : Error} (outputKey : FixedBytes 32) (v : Verifier)
    (hc : ControlBlock.parse control = .error e) :
    (verifyScriptPath outputKey script control v).run = (.error e, []) := by
  rw [verifyScriptPath, hc]
  rfl

variable {t : ScriptTree} {way : List Side} {l : Leaf}

theorem ScriptTree.root_control (h : t.leaf? way = some l) (key : FixedBytes 32) (odd : Bool) :
    (t.control way l key odd).root (leafHash l.version l.script) = t.root :=
  foldl_siblings h

/-- A leaf at most 128 levels down is shown to be committed to by its control
block: with the parity and the output key that the tweak of the internal key
gives, and with no other. For a deeper leaf the control block is an error. -/
theorem verifyScriptPath_control (h : t.leaf? way = some l) (key : FixedBytes 32) :
    (way.length ≤ 128 → ∀ (v : Verifier) (outputKey : FixedBytes 32) (odd : Bool),
      let tweak := tweakHash key (some t.root)
      Bytes.ofBigEndian tweak.val < Secp256k1.n → v.tweak key tweak = .ok (outputKey, odd) →
        (verifyScriptPath outputKey l.script (t.control way l key odd).bytes v).run =
          (.ok true, [.tweak key tweak]) ∧
        (verifyScriptPath outputKey l.script (t.control way l key !odd).bytes v).run =
          (.ok false, [.tweak key tweak]) ∧
        ∀ other ≠ outputKey, ∀ parity,
          (verifyScriptPath other l.script (t.control way l key parity).bytes v).run =
            (.ok false, [.tweak key tweak])) ∧
    (128 < way.length → ∀ (v : Verifier) (outputKey : FixedBytes 32) (odd : Bool),
      (verifyScriptPath outputKey l.script (t.control way l key odd).bytes v).run =
        (.error (.input (.controlBlockLength (33 + 32 * way.length))), [])) := by
  have hl : (t.siblings way).length = way.length := ScriptTree.length_siblings h
  constructor
  · intro hd v outputKey odd tweak hn hv
    have hm : (t.siblings way).length ≤ ControlBlock.maxNodes := Nat.le_trans (Nat.le_of_eq hl) hd
    have hr (key' : FixedBytes 32) (parity : Bool) :
        (verifyScriptPath key' l.script (t.control way l key parity).bytes v).run =
          (.ok (decide (outputKey = key') && decide (odd = parity)), [.tweak key tweak]) := by
      have hc := ControlBlock.parse_bytes_of_le (c := t.control way l key parity) l.even hm
      refine run_verifyScriptPath key' hc ?_ hn hv
      exact congrArg (fun root => tweakHash key (some root)) (ScriptTree.root_control h key parity)
    refine ⟨?_, ?_, fun other ho parity => ?_⟩
    · simp [hr]
    · simp [hr]
    · simp [hr, ho.symm]
  · intro hd v outputKey odd
    have hc := ControlBlock.parse_bytes_of_lt (c := t.control way l key odd) l.even (hl.symm ▸ hd)
    rw [run_verifyScriptPath_of_error outputKey v hc]
    simp only [ScriptTree.control, hl]

/-- A script that leaves true on the stack, as a leaf. -/
def trueLeaf : Leaf := ⟨0xc0, [0x51], by decide⟩

/-- So many branches to the left, with a leaf to the right of each and one at the end. -/
def comb : Nat → ScriptTree
  | 0 => .leaf trueLeaf
  | n + 1 => .branch (comb n) (.leaf trueLeaf)

/-- Every key is tweaked to itself. -/
def steadyVerifier : Verifier where
  ecdsa _ _ _ := false
  schnorr _ _ _ := false
  tweak key _ := .ok (key, false)

set_option maxRecDepth 100000 in
/-- The leaf below one branch, and one below 129. -/
theorem verifyScriptPath_control_comb :
    let key := FixedBytes.zero 32
    let tweak := tweakHash key (some (comb 1).root)
    let control odd := ((comb 1).control [.left] trueLeaf key odd).bytes
    ((comb 1).leaf? [.left] = some trueLeaf ∧ Bytes.ofBigEndian tweak.val < Secp256k1.n ∧
      steadyVerifier.tweak key tweak = .ok (key, false) ∧
      (verifyScriptPath key trueLeaf.script (control false) steadyVerifier).run = (.ok true, [.tweak key tweak]) ∧
      (verifyScriptPath key trueLeaf.script (control true) steadyVerifier).run = (.ok false, [.tweak key tweak])) ∧
    (comb 129).leaf? (List.replicate 129 .left) = some trueLeaf ∧
    ∀ odd, (verifyScriptPath key trueLeaf.script
        ((comb 129).control (List.replicate 129 .left) trueLeaf key odd).bytes steadyVerifier).run =
      (.error (.input (.controlBlockLength (33 + 32 * 129))), []) := by
  intro key tweak control
  have shallow : (comb 1).leaf? [.left] = some trueLeaf := rfl
  have deep : (comb 129).leaf? (List.replicate 129 .left) = some trueLeaf := rfl
  have below : Bytes.ofBigEndian tweak.val < Secp256k1.n := by
    simp only [tweak, tweakHash, comb, ScriptTree.root, Leaf.hash, branchHash, leafHash, taggedHash, sha256_eq]
    decide +kernel
  obtain ⟨accepted, flipped, -⟩ :=
    (verifyScriptPath_control shallow key).1 (by decide) steadyVerifier key false below rfl
  refine ⟨⟨shallow, below, rfl, accepted, flipped⟩, deep, fun odd => ?_⟩
  have refused := (verifyScriptPath_control deep key).2 (by decide) steadyVerifier key odd
  rwa [List.length_replicate] at refused

end Bitcoin.Taproot

import Bitcoin.Hash

/-!
# The curve secp256k1

Points of `y ^ 2 = x ^ 3 + 7` over the field of `p` elements, and signatures on
the curve. Field elements are natural numbers below `p`, scalars are numbers
below the order `n` of the group.
-/

/-!
## Points

In Jacobian coordinates `(x, y, z)` stands for `(x / z ^ 2, y / z ^ 3)`, and
`z = 0` for the point at infinity.
-/

namespace Bitcoin.Secp256k1

/-- The number of field elements. -/
def p : Nat := Nat.pow 2 256 - Nat.pow 2 32 - 977

/-- The order of the group. -/
def n : Nat := 0xfffffffffffffffffffffffffffffffebaaedce6af48a03bbfd25e8cd0364141

/-- The low 256 bits of a number, highest first. -/
def bits256 (k : Nat) : List Bool := (List.range 256).reverse.map k.testBit

/-- A power modulo `m`, for exponents of at most 256 bits. -/
def powMod (m b e : Nat) : Nat :=
  (bits256 e).foldl (fun acc bit => if bit then acc * acc % m * b % m else acc * acc % m) 1

/-- The inverse modulo a prime, by Fermat's theorem. -/
def inverse (m a : Nat) : Nat := powMod m a (m - 2)

/-- The difference of two field elements. -/
def sub (a b : Nat) : Nat := (a + (p - b)) % p

/-- The square root of a field element, if it has one; `p` is 3 modulo 4. -/
def sqrt? (a : Nat) : Option Nat :=
  let r := powMod p a ((p + 1) / 4)
  if r * r % p = a then some r else none

/-- A point. -/
structure Point where
  (x y z : Nat)

namespace Point

/-- The neutral element. -/
def infinity : Point := ⟨1, 1, 0⟩

/-- The point with the given coordinates. -/
def affine (x y : Nat) : Point := ⟨x, y, 1⟩

/-- The generator of the group. -/
def generator : Point := affine
  0x79be667ef9dcbbac55a06295ce870b07029bfcdb2dce28d959f2815b16f81798
  0x483ada7726a3c4655da4fbfc0e1108a8fd17b448a68554199c47d08ffb10d4b8

/-- The sum of a point and itself. -/
def double (a : Point) : Point :=
  if a.z = 0 ∨ a.y = 0 then infinity
  else
    let yy := a.y * a.y % p
    let s := 4 * (a.x * yy) % p
    let m := 3 * (a.x * a.x) % p
    let x := sub (m * m % p) (2 * s % p)
    ⟨x, sub (m * sub s x % p) (8 * (yy * yy) % p), 2 * (a.y * a.z) % p⟩

/-- The sum of two points. -/
def add (a b : Point) : Point :=
  if a.z = 0 then b
  else if b.z = 0 then a
  else
    let za := a.z * a.z % p
    let zb := b.z * b.z % p
    let ua := a.x * zb % p
    let ub := b.x * za % p
    let sa := a.y * (zb * b.z % p) % p
    let sb := b.y * (za * a.z % p) % p
    if ua = ub then
      if sa = sb then double a else infinity
    else
      let h := sub ub ua
      let r := sub sb sa
      let hh := h * h % p
      let hhh := h * hh % p
      let v := ua * hh % p
      let x := sub (sub (r * r % p) hhh) (2 * v % p)
      ⟨x, sub (r * sub v x % p) (sa * hhh % p), h * (a.z * b.z % p) % p⟩

/-- The point on the other side of the axis. -/
def neg (a : Point) : Point := ⟨a.x, sub 0 a.y, a.z⟩

/-- The combination `j * a + k * b`, for scalars of at most 256 bits. -/
def combine (j : Nat) (a : Point) (k : Nat) (b : Point) : Point :=
  let both := add a b
  ((bits256 j).zip (bits256 k)).foldl
    (fun acc bits =>
      let twice := double acc
      match bits with
      | (true, true) => add twice both
      | (true, false) => add twice a
      | (false, true) => add twice b
      | (false, false) => twice)
    infinity

/-- The coordinates of a point other than infinity. -/
def coordinates? (a : Point) : Option (Nat × Nat) :=
  if a.z = 0 then none
  else
    let i := inverse p a.z
    let ii := i * i % p
    some (a.x * ii % p, a.y * (ii * i % p) % p)

/-- The point with an `x` coordinate and an even or odd `y` coordinate. -/
def withX? (x : Nat) (odd : Bool) : Option Point := do
  guard (x < p)
  let y ← sqrt? ((x * x % p * x + 7) % p)
  return affine x (if (y % 2 = 1) = odd then y else sub 0 y)

/-- The point with the given coordinates, if it is on the curve. -/
def ofCoordinates? (x y : Nat) : Option Point :=
  if x < p ∧ y < p ∧ y * y % p = (x * x % p * x + 7) % p then some (affine x y) else none

end Point

/-!
## Signatures

Verification of ECDSA signatures, with keys in any of their encodings, and of
Schnorr signatures under keys that are an `x` coordinate alone; and the sum of
such a key and a multiple of the generator.
-/

/-- The point of an encoded key: 33 bytes with the parity of `y` in the first,
or 65 bytes with both coordinates, whose first byte may repeat the parity. -/
def publicKey? (key : Bytes) : Option Point :=
  match key with
  | [] => none
  | b :: body =>
    if key.length = 33 then
      if b = 0x02 ∨ b = 0x03 then Point.withX? (Bytes.ofBigEndian body) (b = 0x03) else none
    else if key.length = 65 then
      let x := Bytes.ofBigEndian (body.take 32)
      let y := Bytes.ofBigEndian (body.drop 32)
      if b = 0x04 ∨ (b = 0x06 ∧ y % 2 = 0) ∨ (b = 0x07 ∧ y % 2 = 1) then Point.ofCoordinates? x y else none
    else none

/-- The two numbers of a signature. -/
def halves (sig : FixedBytes 64) : Nat × Nat :=
  (Bytes.ofBigEndian (sig.val.take 32), Bytes.ofBigEndian (sig.val.drop 32))

/-- Whether an ECDSA signature of a digest verifies under a key. Neither number
may be zero or reach the order; the second may lie in either half. -/
def verifyEcdsa (key : Bytes) (digest : Hash256) (sig : FixedBytes 64) : Bool :=
  let (r, s) := halves sig
  match publicKey? key with
  | none => false
  | some q =>
    if r = 0 ∨ s = 0 ∨ n ≤ r ∨ n ≤ s then false
    else
      let w := inverse n s
      let m := Bytes.ofBigEndian digest.val
      match (Point.combine (m % n * w % n) .generator (r * w % n) q).coordinates? with
      | some (x, _) => x % n = r
      | none => false

/-- Whether a Schnorr signature of a digest verifies under a key. -/
def verifySchnorr (key : FixedBytes 32) (digest : Hash256) (sig : FixedBytes 64) : Bool :=
  let (r, s) := halves sig
  match Point.withX? (Bytes.ofBigEndian key.val) false with
  | none => false
  | some q =>
    if p ≤ r ∨ n ≤ s then false
    else
      let e := taggedHash "BIP0340/challenge" (sig.val.take 32 ++ key.val ++ digest.val)
      match (Point.combine s .generator (Bytes.ofBigEndian e.val % n) q.neg).coordinates? with
      | some (x, y) => y % 2 = 0 && x = r
      | none => false

/-- Why a key cannot be tweaked. -/
inductive TweakFault where
  | key
  | scalar
  | infinity
  deriving Repr, DecidableEq

/-- The key with `tweak` times the generator added, and whether the `y`
coordinate of the sum is odd. -/
def tweakKey (key : FixedBytes 32) (tweak : Hash256) : Except TweakFault (FixedBytes 32 × Bool) :=
  match Point.withX? (Bytes.ofBigEndian key.val) false with
  | none => .error .key
  | some q =>
    let t := Bytes.ofBigEndian tweak.val
    if n ≤ t then .error .scalar
    else
      match (Point.combine t .generator 1 q).coordinates? with
      | some (x, y) => .ok (.bigEndian 32 x, y % 2 = 1)
      | none => .error .infinity

end Bitcoin.Secp256k1

import Bitcoin.Bytes

/-!
# Hash functions

The digests that scripts and transactions use are built from SHA-256, SHA-1 and
RIPEMD-160. The three share their frame: the message is padded to whole 64-byte
blocks (`pad`), and a compression function folds the blocks into a chaining
state (`fold`). They differ in the state, in the compression function and in the
byte order of words and of the message length.
-/

/-! ## Hashing by blocks -/

namespace Bitcoin.Hash

/-- Rotation of a word to the left. -/
@[inline] def rotl (x n : UInt32) : UInt32 := x <<< n ||| x >>> (32 - n)

/-- Rotation of a word to the right. -/
@[inline] def rotr (x n : UInt32) : UInt32 := x >>> n ||| x <<< (32 - n)

/-- A word from its bytes, most significant first. -/
@[inline] def word (a b c d : UInt8) : UInt32 :=
  a.toUInt32 <<< 24 ||| b.toUInt32 <<< 16 ||| c.toUInt32 <<< 8 ||| d.toUInt32

/-- The bytes of a word, most significant first. -/
def wordBytes (w : UInt32) : Bytes :=
  [(w >>> 24).toUInt8, (w >>> 16).toUInt8, (w >>> 8).toUInt8, w.toUInt8]

/-- The words of a byte string of whole words, each most significant byte first. -/
def wordsBE : Bytes → List UInt32
  | a :: b :: c :: d :: rest => word a b c d :: wordsBE rest
  | _ => []

/-- The words of a byte string of whole words, each least significant byte first. -/
def wordsLE : Bytes → List UInt32
  | a :: b :: c :: d :: rest => word d c b a :: wordsLE rest
  | _ => []

/-- The message, a bit 1, zeros up to a whole block less eight bytes, and in
these the number of message bits, written by `order`. -/
def pad (order : Nat → Nat → Bytes) (m : Bytes) : Bytes :=
  m ++ 0x80 :: (List.replicate ((119 - m.length % 64) % 64) 0 ++ order 8 (8 * m.length))

/-- The state after the first `n` blocks of `m`. -/
@[specialize] def fold {State : Type} (compress : State → Bytes → State) : Nat → Bytes → State → State
  | 0, _, s => s
  | n + 1, m, s => fold compress n (m.drop 64) (compress s (m.take 64))

/-- The state after all blocks of a padded message. -/
@[inline] def foldBlocks {State : Type} (compress : State → Bytes → State) (padded : Bytes) (s : State) :
    State :=
  fold compress (padded.length / 64) padded s

end Bitcoin.Hash

/-!
## SHA-256

Each block is spread into 64 words (`schedule`) that are mixed into the
chaining state one by one (`rounds`), and the result is added to the state
before the block (`compress`). `digest` writes the last state out.
-/

namespace Bitcoin.Sha256

open Hash

/-- The chaining state: eight words. -/
structure State where
  (a b c d e f g h : UInt32)

/-- The state before the first block: the fractional parts of the square roots
of the first eight primes. -/
def State.initial : State :=
  ⟨0x6a09e667, 0xbb67ae85, 0x3c6ef372, 0xa54ff53a, 0x510e527f, 0x9b05688c, 0x1f83d9ab, 0x5be0cd19⟩

/-- The round constants: the fractional parts of the cube roots of the first 64
primes. -/
def roundConstants : List UInt32 :=
  [0x428a2f98, 0x71374491, 0xb5c0fbcf, 0xe9b5dba5, 0x3956c25b, 0x59f111f1, 0x923f82a4, 0xab1c5ed5,
   0xd807aa98, 0x12835b01, 0x243185be, 0x550c7dc3, 0x72be5d74, 0x80deb1fe, 0x9bdc06a7, 0xc19bf174,
   0xe49b69c1, 0xefbe4786, 0x0fc19dc6, 0x240ca1cc, 0x2de92c6f, 0x4a7484aa, 0x5cb0a9dc, 0x76f988da,
   0x983e5152, 0xa831c66d, 0xb00327c8, 0xbf597fc7, 0xc6e00bf3, 0xd5a79147, 0x06ca6351, 0x14292967,
   0x27b70a85, 0x2e1b2138, 0x4d2c6dfc, 0x53380d13, 0x650a7354, 0x766a0abb, 0x81c2c92e, 0x92722c85,
   0xa2bfe8a1, 0xa81a664b, 0xc24b8b70, 0xc76c51a3, 0xd192e819, 0xd6990624, 0xf40e3585, 0x106aa070,
   0x19a4c116, 0x1e376c08, 0x2748774c, 0x34b0bcb5, 0x391c0cb3, 0x4ed8aa4a, 0x5b9cca4f, 0x682e6ff3,
   0x748f82ee, 0x78a5636f, 0x84c87814, 0x8cc70208, 0x90befffa, 0xa4506ceb, 0xbef9a3f7, 0xc67178f2]

/-- The schedule with the word of place `t` appended; it depends on those 2, 7,
15 and 16 places before. -/
def extend (w : Array UInt32) (t : Nat) : Array UInt32 :=
  let w2 := w.getD (t - 2) 0
  let w15 := w.getD (t - 15) 0
  let s0 := rotr w15 7 ^^^ rotr w15 18 ^^^ w15 >>> 3
  let s1 := rotr w2 17 ^^^ rotr w2 19 ^^^ w2 >>> 10
  w.push (s1 + w.getD (t - 7) 0 + s0 + w.getD (t - 16) 0)

/-- The 64 words of a block: its own 16, then each from earlier ones. -/
def schedule (block : Bytes) : List UInt32 :=
  ((List.range' 16 48).foldl extend (wordsBE block).toArray).toList

/-- One round for each constant and word. -/
def rounds : List UInt32 → List UInt32 → State → State
  | k :: ks, w :: ws, ⟨a, b, c, d, e, f, g, h⟩ =>
    let t1 := h + (rotr e 6 ^^^ rotr e 11 ^^^ rotr e 25) + (e &&& f ^^^ ~~~e &&& g) + k + w
    let t2 := (rotr a 2 ^^^ rotr a 13 ^^^ rotr a 22) + (a &&& b ^^^ a &&& c ^^^ b &&& c)
    rounds ks ws ⟨t1 + t2, a, b, c, d + t1, e, f, g⟩
  | _, _, s => s

/-- The state after one block. -/
def compress (s : State) (block : Bytes) : State :=
  let t := rounds roundConstants (schedule block) s
  ⟨s.a + t.a, s.b + t.b, s.c + t.c, s.d + t.d, s.e + t.e, s.f + t.f, s.g + t.g, s.h + t.h⟩

/-- The bytes of a state. -/
def State.bytes (s : State) : Hash256 :=
  ⟨wordBytes s.a ++ wordBytes s.b ++ wordBytes s.c ++ wordBytes s.d ++
    wordBytes s.e ++ wordBytes s.f ++ wordBytes s.g ++ wordBytes s.h, rfl⟩

/-- The SHA-256 digest of a message. -/
def digest (m : Bytes) : Hash256 :=
  (foldBlocks compress (pad Bytes.bigEndian m) .initial).bytes

end Bitcoin.Sha256

/-!
## SHA-1

Each block is spread into 80 words, which are mixed into a chaining state of
five. The mixing function and its constant change every 20 rounds.
-/

namespace Bitcoin.Sha1

open Hash

/-- The chaining state: five words. -/
structure State where
  (a b c d e : UInt32)

/-- The state before the first block. -/
def State.initial : State := ⟨0x67452301, 0xefcdab89, 0x98badcfe, 0x10325476, 0xc3d2e1f0⟩

/-- The schedule with the word of place `t` appended; it depends on those 3, 8,
14 and 16 places before. -/
def extend (w : Array UInt32) (t : Nat) : Array UInt32 :=
  w.push (rotl (w.getD (t - 3) 0 ^^^ w.getD (t - 8) 0 ^^^ w.getD (t - 14) 0 ^^^ w.getD (t - 16) 0) 1)

/-- The 80 words of a block. -/
def schedule (block : Bytes) : List UInt32 :=
  ((List.range' 16 64).foldl extend (wordsBE block).toArray).toList

/-- The mixing function and constant of round `t`. -/
def mix (t : Nat) (b c d : UInt32) : UInt32 :=
  if t < 20 then (b &&& c ||| ~~~b &&& d) + 0x5a827999
  else if t < 40 then (b ^^^ c ^^^ d) + 0x6ed9eba1
  else if t < 60 then (b &&& c ||| b &&& d ||| c &&& d) + 0x8f1bbcdc
  else (b ^^^ c ^^^ d) + 0xca62c1d6

/-- One round for each word, the first of them round `t`. -/
def rounds (t : Nat) : List UInt32 → State → State
  | w :: ws, ⟨a, b, c, d, e⟩ => rounds (t + 1) ws ⟨rotl a 5 + mix t b c d + e + w, a, rotl b 30, c, d⟩
  | [], s => s

/-- The state after one block. -/
def compress (s : State) (block : Bytes) : State :=
  let t := rounds 0 (schedule block) s
  ⟨s.a + t.a, s.b + t.b, s.c + t.c, s.d + t.d, s.e + t.e⟩

/-- The bytes of a state. -/
def State.bytes (s : State) : Hash160 :=
  ⟨wordBytes s.a ++ wordBytes s.b ++ wordBytes s.c ++ wordBytes s.d ++ wordBytes s.e, rfl⟩

/-- The SHA-1 digest of a message. -/
def digest (m : Bytes) : Hash160 :=
  (foldBlocks compress (pad Bytes.bigEndian m) .initial).bytes

end Bitcoin.Sha1

/-!
## RIPEMD-160

Two lines of 80 steps run over the same block in different word orders, each
step rotating by its own amount; the five words of the chaining state are then
combined crosswise with both results. Words and the length are least
significant byte first.
-/

namespace Bitcoin.Ripemd160

open Hash

/-- The chaining state: five words. -/
structure State where
  (a b c d e : UInt32)

/-- The state before the first block. -/
def State.initial : State := ⟨0x67452301, 0xefcdab89, 0x98badcfe, 0x10325476, 0xc3d2e1f0⟩

/-- One step: the place of its word in the block and the amount of rotation. -/
structure Step where
  (place : Nat) (shift : UInt32)

/-- The steps of a line from the places and shifts of its rounds. -/
def steps (places : List Nat) (shifts : List UInt32) : List Step := places.zipWith Step.mk shifts

/-- The left line. -/
def left : List Step := steps
  [0, 1, 2, 3, 4, 5, 6, 7, 8, 9, 10, 11, 12, 13, 14, 15,
   7, 4, 13, 1, 10, 6, 15, 3, 12, 0, 9, 5, 2, 14, 11, 8,
   3, 10, 14, 4, 9, 15, 8, 1, 2, 7, 0, 6, 13, 11, 5, 12,
   1, 9, 11, 10, 0, 8, 12, 4, 13, 3, 7, 15, 14, 5, 6, 2,
   4, 0, 5, 9, 7, 12, 2, 10, 14, 1, 3, 8, 11, 6, 15, 13]
  [11, 14, 15, 12, 5, 8, 7, 9, 11, 13, 14, 15, 6, 7, 9, 8,
   7, 6, 8, 13, 11, 9, 7, 15, 7, 12, 15, 9, 11, 7, 13, 12,
   11, 13, 6, 7, 14, 9, 13, 15, 14, 8, 13, 6, 5, 12, 7, 5,
   11, 12, 14, 15, 14, 15, 9, 8, 9, 14, 5, 6, 8, 6, 5, 12,
   9, 15, 5, 11, 6, 8, 13, 12, 5, 12, 13, 14, 11, 8, 5, 6]

/-- The right line. -/
def right : List Step := steps
  [5, 14, 7, 0, 9, 2, 11, 4, 13, 6, 15, 8, 1, 10, 3, 12,
   6, 11, 3, 7, 0, 13, 5, 10, 14, 15, 8, 12, 4, 9, 1, 2,
   15, 5, 1, 3, 7, 14, 6, 9, 11, 8, 12, 2, 10, 0, 4, 13,
   8, 6, 4, 1, 3, 11, 15, 0, 5, 12, 2, 13, 9, 7, 10, 14,
   12, 15, 10, 4, 1, 5, 8, 7, 6, 2, 13, 14, 0, 3, 9, 11]
  [8, 9, 9, 11, 13, 15, 15, 5, 7, 7, 8, 11, 14, 14, 12, 6,
   9, 13, 15, 7, 12, 8, 9, 11, 7, 7, 12, 7, 6, 15, 13, 11,
   9, 7, 15, 11, 8, 6, 6, 14, 12, 13, 5, 14, 13, 13, 7, 5,
   15, 5, 8, 11, 14, 14, 6, 14, 6, 9, 12, 9, 12, 5, 15, 8,
   8, 5, 12, 9, 12, 5, 14, 6, 8, 13, 6, 5, 15, 13, 11, 11]

/-- The mixing function of round `r` of the left line; the right line takes
them in the opposite order. -/
def mix (r : Nat) (x y z : UInt32) : UInt32 :=
  match r with
  | 0 => x ^^^ y ^^^ z
  | 1 => x &&& y ||| ~~~x &&& z
  | 2 => (x ||| ~~~y) ^^^ z
  | 3 => x &&& z ||| y &&& ~~~z
  | _ => x ^^^ (y ||| ~~~z)

/-- The constant of round `r` of the left line. -/
def leftConstant (r : Nat) : UInt32 :=
  match r with
  | 0 => 0
  | 1 => 0x5a827999
  | 2 => 0x6ed9eba1
  | 3 => 0x8f1bbcdc
  | _ => 0xa953fd4e

/-- The constant of round `r` of the right line. -/
def rightConstant (r : Nat) : UInt32 :=
  match r with
  | 0 => 0x50a28be6
  | 1 => 0x5c4dd124
  | 2 => 0x6d703ef3
  | 3 => 0x7a6d76e9
  | _ => 0

/-- The steps of a line from step `t` on, with the mixing function and the
constant of each round. -/
def run (f : Nat → UInt32 → UInt32 → UInt32 → UInt32) (k : Nat → UInt32) (x : Array UInt32) (t : Nat) :
    List Step → State → State
  | p :: ps, ⟨a, b, c, d, e⟩ =>
    let w := rotl (a + f (t / 16) b c d + x.getD p.place 0 + k (t / 16)) p.shift + e
    run f k x (t + 1) ps ⟨e, w, b, rotl c 10, d⟩
  | [], s => s

/-- The state after one block. -/
def compress (s : State) (block : Bytes) : State :=
  let x := (wordsLE block).toArray
  let l := run mix leftConstant x 0 left s
  let r := run (fun r => mix (4 - r)) rightConstant x 0 right s
  ⟨s.b + l.c + r.d, s.c + l.d + r.e, s.d + l.e + r.a, s.e + l.a + r.b, s.a + l.b + r.c⟩

/-- The bytes of a word, least significant first. -/
def wordBytesLE (w : UInt32) : Bytes :=
  [w.toUInt8, (w >>> 8).toUInt8, (w >>> 16).toUInt8, (w >>> 24).toUInt8]

/-- The bytes of a state. -/
def State.bytes (s : State) : Hash160 :=
  ⟨wordBytesLE s.a ++ wordBytesLE s.b ++ wordBytesLE s.c ++ wordBytesLE s.d ++ wordBytesLE s.e, rfl⟩

/-- The RIPEMD-160 digest of a message. -/
def digest (m : Bytes) : Hash160 :=
  (foldBlocks compress (pad Bytes.littleEndian m) .initial).bytes

end Bitcoin.Ripemd160

/-!
## Digests

A tagged hash starts with the hash of its tag, twice, so that digests made for
one purpose never serve another.
-/

namespace Bitcoin

/-- SHA-256. -/
def sha256 (m : Bytes) : Hash256 := Sha256.digest m

/-- SHA-256 of the SHA-256. -/
def doubleSha256 (m : Bytes) : Hash256 := sha256 (sha256 m).val

/-- RIPEMD-160. -/
def ripemd160 (m : Bytes) : Hash160 := Ripemd160.digest m

/-- RIPEMD-160 of the SHA-256. -/
def hash160 (m : Bytes) : Hash160 := ripemd160 (sha256 m).val

/-- SHA-1. -/
def sha1 (m : Bytes) : Hash160 := Sha1.digest m

/-- SHA-256 of a message behind the hash of the tag, written twice. -/
def taggedHash (tag : String) (m : Bytes) : Hash256 :=
  let t := sha256 tag.toUTF8.data.toList
  sha256 (t.val ++ t.val ++ m)

end Bitcoin

import Bitcoin.Error
import Bitcoin.Secp256k1

/-!
# Signatures

Script signatures are two integers in a DER sequence with the hash type behind
them, and Schnorr signatures are 64 bytes, with the hash type behind them unless
it is the default. Whether one verifies is left to a `Verifier`.
-/

/-!
## Signatures as bytes

`decodeDer` takes the integers, of at most 32 bytes or 33 with a zero in front;
it does not look at the length of the sequence, nor at what follows the second
integer.
-/

namespace Bitcoin.Signature

/-- A byte string in `w` bytes, zeros in front, if it has at most that many. -/
def padLeft? (w : Nat) (b : Bytes) : Option (FixedBytes w) :=
  FixedBytes.ofBytes? w (List.replicate (w - b.length) 0 ++ b)

/-- An integer at the front of some bytes, and what follows it. -/
def readInteger : Bytes → Except Error (FixedBytes 32 × Bytes)
  | tag :: length :: rest =>
    if tag ≠ 0x02 then .error (.signature .notAnInteger)
    else
      match Bytes.split? length.toNat rest with
      | none => .error (.signature .integerTruncated)
      | some (body, rest) =>
        let body := if length = 33 ∧ body.val.head? = some 0 then body.val.drop 1 else body.val
        match padLeft? 32 body with
        | some value => .ok (value, rest)
        | none => .error (.signature (.integerTooLong body.length))
  | _ => .error (.signature .notAnInteger)

/-- The two integers of a DER signature. -/
def decodeDer (sig : Bytes) : Except Error (FixedBytes 32 × FixedBytes 32) := do
  if sig.head? ≠ some 0x30 then throw (.signature .notASequence)
  if sig.length < 8 then throw (.signature (.tooShort sig.length))
  let (r, rest) ← readInteger (sig.drop 2)
  let (s, _) ← readInteger rest
  return (r, s)

/-- A DER signature as its integers, one after the other. -/
def compact (sig : Bytes) : Except Error (FixedBytes 64) := do
  let (r, s) ← decodeDer sig
  return r.append s

/-- A script signature without its last byte, and that byte: the hash type. -/
def splitHashType (sig : Bytes) : Except Error (Bytes × UInt8) :=
  match sig.getLast? with
  | some type => .ok (sig.dropLast, type)
  | none => .error (.signature .empty)

/-- A Schnorr signature and its hash type, which is zero unless a 65th byte
says otherwise; that byte must not be zero. -/
def splitSchnorr (sig : Bytes) : Except Error (FixedBytes 64 × UInt8) :=
  if h : sig.length = 64 then .ok (⟨sig, h⟩, 0)
  else if h : sig.length = 65 ∧ sig.getLastD 0 ≠ 0 then
    .ok (⟨sig.take 64, by simp [h.1]⟩, sig.getLastD 0)
  else .error (.signature (.schnorrLength sig.length))

end Bitcoin.Signature

/-!
## Verifiers

What scripts and validation need of the elliptic curve, as a value: the rules
that use it hold for any verifier. A check is a computation that may fail and
that records its calls of the verifier in order, also when it fails later.
-/

namespace Bitcoin

/-- The operations on the curve. -/
structure Verifier where
  /-- Whether an ECDSA signature, as two numbers, of a digest verifies under an
  encoded key. -/
  ecdsa : Bytes → Hash256 → FixedBytes 64 → Bool
  /-- Whether a Schnorr signature of a digest verifies under a key. -/
  schnorr : FixedBytes 32 → Hash256 → FixedBytes 64 → Bool
  /-- The key with a multiple of the generator added, and whether the sum is
  odd. -/
  tweak : FixedBytes 32 → Hash256 → Except Error (FixedBytes 32 × Bool)

/-- The error of a key that cannot be tweaked. -/
def Secp256k1.TweakFault.toError : Secp256k1.TweakFault → Error
  | .key => .signature .internalKey
  | .scalar => .signature .tweakTooLarge
  | .infinity => .signature .tweakFailed

/-- The verifier on secp256k1. -/
def Verifier.secp256k1 : Verifier where
  ecdsa := Secp256k1.verifyEcdsa
  schnorr := Secp256k1.verifySchnorr
  tweak key t := (Secp256k1.tweakKey key t).mapError Secp256k1.TweakFault.toError

/-- A call of a verifier with its outcome. -/
inductive Call where
  | ecdsa (key : Bytes) (digest : Hash256) (sig : FixedBytes 64) (verified : Bool)
  | schnorr (key : FixedBytes 32) (digest : Hash256) (sig : FixedBytes 64) (verified : Bool)
  | tweak (key : FixedBytes 32) (tweak : Hash256)
  deriving Repr, DecidableEq

/-- A computation that may fail and records the calls of a verifier. -/
abbrev Check := EStateM Error (List Call)

namespace Check

/-- The outcome of a check and the calls it made. -/
def run {α : Type} (check : Check α) : Except Error α × List Call :=
  match EStateM.run check [] with
  | .ok a calls => (.ok a, calls)
  | .error e calls => (.error e, calls)

/-- A value, or the error there is instead of it. -/
def ofExcept {α : Type} : Except Error α → Check α
  | .ok a => pure a
  | .error e => throw e

/-- Verifies an ECDSA signature. -/
def ecdsa (v : Verifier) (key : Bytes) (digest : Hash256) (sig : FixedBytes 64) : Check Bool := fun calls =>
  let verified := v.ecdsa key digest sig
  .ok verified (calls ++ [.ecdsa key digest sig verified])

/-- Verifies a Schnorr signature. -/
def schnorr (v : Verifier) (key : FixedBytes 32) (digest : Hash256) (sig : FixedBytes 64) : Check Bool :=
  fun calls =>
    let verified := v.schnorr key digest sig
    .ok verified (calls ++ [.schnorr key digest sig verified])

/-- Tweaks a key. -/
def tweak (v : Verifier) (key : FixedBytes 32) (t : Hash256) : Check (FixedBytes 32 × Bool) := fun calls =>
  match v.tweak key t with
  | .ok r => .ok r (calls ++ [.tweak key t])
  | .error e => .error e (calls ++ [.tweak key t])

end Check

end Bitcoin

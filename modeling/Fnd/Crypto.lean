/-
  Fnd.Crypto — the primitives the daemon takes from outside the repository (blake2b,
  secp256k1, Handshake's name hash), as parameters.

  Hashes are symbolic: `H` is any type, and a hasher is fed atoms, each a byte or a whole
  hash, so that a collision-free `blake2b` exists. `K` is the type of public keys, `G` of
  signatures, and `verifySigPub` is an arbitrary predicate.
-/

import Fnd.Basic

namespace Fnd

/-- What is written to a hasher. -/
inductive Atom (H : Type) where
  | byte (b : UInt8)
  | hash (h : H)
  deriving DecidableEq, Repr

def atoms {H : Type} (bs : Bytes) : List (Atom H) := bs.map .byte

structure Prims (H K G : Type) where
  blake2b : List (Atom H) → H
  /-- `primitives.HashName`. -/
  hashName : Name → Bytes
  verifySigPub : K → G → H → Bool

end Fnd

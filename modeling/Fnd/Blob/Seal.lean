/-
  Fnd.Blob.Seal — the bytes a seal is a hash of (`SealHash` of `blob/seal.go`).

  A tag, the name behind its length, epoch and size in two bytes each, and two hashes of 32. The
  name is the one part of variable length, so what stands after it is found from the end of the
  bytes, and the length before it tells where it starts: the bytes of two seals are equal only if
  the seals are. No two seals share a signature, short of a collision of the hash or a signature
  of two hashes. The hash of an envelope starts with its magic and never meets a seal's while
  that is not the start of the tag (`seals_unambiguous`).

  `sealHash`, the same with hashes for atoms, is what the rest of the development signs
  (`hash_eq_sealHash`). A name past the encoder's limit is a panic.
-/

import Fnd.Blob.Hash
import Fnd.Wire.Envelope

namespace Fnd.Blob

open Dwire
open Wire (Bytes32 MessageType)

/-- The arguments of `SealHash`. -/
structure Seal where
  name : Name
  epochHeight : UInt16
  sectorSize : UInt16
  sectorTipHash : Bytes32
  reservedRoot : Bytes32
  deriving DecidableEq

def sealTag : Bytes := utf8 "FNBLOB"

namespace Seal

/-- What is written to the hasher. -/
def preimage (s : Seal) : Except EncodeErr Bytes :=
  encodeFields [.ok sealTag, encodeBytes s.name, .ok (putUint16 s.epochHeight), .ok (putUint16 s.sectorSize),
    .ok s.sectorTipHash.1, .ok s.reservedRoot.1]

/-- `SealHash`; `none` is a panic. -/
def hash {D : Type} (blake2b : Bytes → D) (s : Seal) : Option D :=
  match s.preimage with
  | .error _ => none
  | .ok buf => some (blake2b buf)

/-- No collision between these two. -/
def NoCollision {D : Type} (blake2b : Bytes → D) (s s' : Seal) : Prop :=
  ∀ x y, s.preimage = .ok x → s'.preimage = .ok y → blake2b x = blake2b y → x = y

def bytes (s : Seal) : Bytes :=
  sealTag ++ (byteField s.name ++ (putUint16 s.epochHeight ++
    (putUint16 s.sectorSize ++ (s.sectorTipHash.1 ++ s.reservedRoot.1))))

theorem preimage_eq (s : Seal) :
    s.preimage = if s.name.length ≤ maxByteFieldLen then .ok s.bytes else .error .byteFieldTooLarge := by
  by_cases h : s.name.length ≤ maxByteFieldLen
  · have henc : encodeBytes s.name = .ok (byteField s.name) := if_neg (Nat.not_lt.mpr h)
    rw [if_pos h, preimage, henc]
    simp only [encodeFields_ok, encodeFields_nil, Except.map, List.append_nil, bytes]
  · have henc : encodeBytes s.name = .error .byteFieldTooLarge := if_pos (Nat.not_le.mp h)
    rw [if_neg h, preimage, henc, encodeFields_ok, encodeFields_error]
    rfl

theorem preimage_ok_iff {s : Seal} {buf : Bytes} :
    s.preimage = .ok buf ↔ s.name.length ≤ maxByteFieldLen ∧ buf = s.bytes := by
  rw [preimage_eq]
  by_cases h : s.name.length ≤ maxByteFieldLen
  · rw [if_pos h, Except.ok.injEq]
    exact ⟨fun hbuf => ⟨h, hbuf.symm⟩, fun ⟨_, hbuf⟩ => hbuf.symm⟩
  · rw [if_neg h]
    exact ⟨fun hbuf => (by cases hbuf), fun ⟨hlen, _⟩ => absurd hlen h⟩

/-- After the name everything has its fixed length, so the name is what is before it. -/
theorem bytes_inj {s s' : Seal} (h : s.bytes = s'.bytes) : s = s' := by
  have hroot : s.reservedRoot.1.length = s'.reservedRoot.1.length := s.reservedRoot.2.trans s'.reservedRoot.2.symm
  have htip : s.sectorTipHash.1.length = s'.sectorTipHash.1.length := s.sectorTipHash.2.trans s'.sectorTipHash.2.symm
  simp only [bytes, ← List.append_assoc] at h
  obtain ⟨h, hroot⟩ := List.append_inj' h hroot
  obtain ⟨h, htip⟩ := List.append_inj' h htip
  obtain ⟨h, hsize⟩ := List.append_inj' h (length_putUint16_eq _ _)
  obtain ⟨h, hepoch⟩ := List.append_inj' h (length_putUint16_eq _ _)
  have hname := byteField_inj (List.append_cancel_left h)
  obtain ⟨name, epochHeight, sectorSize, sectorTipHash, reservedRoot⟩ := s
  obtain ⟨name', epochHeight', sectorSize', sectorTipHash', reservedRoot'⟩ := s'
  exact (Seal.mk.injEq ..).mpr ⟨hname, putUint16_inj hepoch, putUint16_inj hsize, Subtype.ext htip, Subtype.ext hroot⟩

theorem preimage_inj {s s' : Seal} {buf : Bytes} (h : s.preimage = .ok buf) (h' : s'.preimage = .ok buf) : s = s' :=
  bytes_inj ((preimage_ok_iff.mp h).2.symm.trans (preimage_ok_iff.mp h').2)

theorem hash_eq_some_iff {D : Type} {blake2b : Bytes → D} {s : Seal} {h : D} :
    s.hash blake2b = some h ↔ ∃ buf, s.preimage = .ok buf ∧ blake2b buf = h := by
  rw [hash]
  cases s.preimage with
  | error e => simp
  | ok buf => simp

theorem eq_of_hash_eq {D : Type} {blake2b : Bytes → D} {s s' : Seal} (hfree : NoCollision blake2b s s') {h : D}
    (hs : s.hash blake2b = some h) (hs' : s'.hash blake2b = some h) : s = s' := by
  obtain ⟨buf, hbuf, hh⟩ := hash_eq_some_iff.mp hs
  obtain ⟨buf', hbuf', hh'⟩ := hash_eq_some_iff.mp hs'
  obtain rfl := hfree buf buf' hbuf hbuf' (hh.trans hh'.symm)
  exact preimage_inj hbuf hbuf'

theorem preimage_ne_append {s : Seal} {magic : UInt32} (hmagic : putUint32 magic ≠ sealTag.take 4) (rest : Bytes) :
    s.preimage ≠ .ok (putUint32 magic ++ rest) := by
  intro h
  obtain ⟨-, hbytes⟩ := preimage_ok_iff.mp h
  have htake := congrArg (List.take 4) hbytes
  rw [List.take_left' (length_putUint32 magic), bytes, List.take_append_of_le_length (by decide +kernel)] at htake
  exact hmagic htake

end Seal

/-! ## Seals with hashes for atoms -/

/-- The bytes an atom stands for. -/
def render : Atom Bytes32 → Bytes
  | .byte b => [b]
  | .hash h => h.1

theorem flatMap_render_atoms (bs : Bytes) : (atoms bs : List (Atom Bytes32)).flatMap render = bs := by
  rw [atoms, List.flatMap_map]
  exact List.flatMap_singleton' bs

/-- A hasher of atoms that hashes their bytes signs what `SealHash` does. -/
theorem hash_eq_sealHash {K G : Type} {P : Prims Bytes32 K G} {blake2b : Bytes → Bytes32}
    (hP : ∀ xs, P.blake2b xs = blake2b (xs.flatMap render)) {s : Seal} (hname : s.name.length ≤ maxByteFieldLen) :
    s.hash blake2b = some (sealHash P s.name s.epochHeight s.sectorSize s.sectorTipHash s.reservedRoot) := by
  have htag : ([0x46, 0x4e, 0x42, 0x4c, 0x4f, 0x42] : Bytes) = sealTag := by decide +kernel
  refine Seal.hash_eq_some_iff.mpr ⟨s.bytes, Seal.preimage_ok_iff.mpr ⟨hname, rfl⟩, ?_⟩
  simp only [sealHash, hP, htag, List.flatMap_append, flatMap_render_atoms, List.append_assoc, Seal.bytes]
  simp only [List.flatMap_cons, List.flatMap_nil, render, List.append_nil]

/-- Seals are unambiguous: equal bytes are of equal seals, so a signature of one is of no other;
    and no seal has the bytes of an envelope's hash under another magic. -/
theorem seals_unambiguous :
    (∀ s : Seal, (∃ buf, s.preimage = .ok buf) ↔ s.name.length ≤ maxByteFieldLen) ∧
    (∀ (s s' : Seal) (buf : Bytes), s.preimage = .ok buf → s'.preimage = .ok buf → s = s') ∧
    (∀ (D K G : Type) (blake2b : Bytes → D) (verifySigPub : K → G → D → Bool) (key : K) (sig : G) (s s' : Seal) (h h' : D),
      s.hash blake2b = some h → s'.hash blake2b = some h' → Seal.NoCollision blake2b s s' →
      (verifySigPub key sig h = true → verifySigPub key sig h' = true → h = h') →
      verifySigPub key sig h = true → verifySigPub key sig h' = true → s = s') ∧
    ∀ (s : Seal) (magic : UInt32) (type : MessageType) (t : Time), putUint32 magic ≠ sealTag.take 4 →
      s.preimage ≠ .ok (Wire.preimage magic type t) := by
  refine ⟨fun s => ?_, fun s s' buf => Seal.preimage_inj, ?_, fun s magic type t hmagic => ?_⟩
  · simp only [Seal.preimage_ok_iff, exists_and_left, exists_eq, and_true]
  · intro D K G blake2b verifySigPub key sig s s' h h' hs hs' hfree hone hv hv'
    obtain rfl := hone hv hv'
    exact Seal.eq_of_hash_eq hfree hs hs'
  · rw [Wire.preimage, List.append_assoc, List.append_assoc]
    exact Seal.preimage_ne_append hmagic _

/-- One sector of a name at epoch 1, of zero hashes. -/
def sealOf (name : Name) : Seal := ⟨name, 1, 1, Wire.zeroHash, Wire.zeroHash⟩

/-- Nothing is hashed and a signature is what it signs: the one of "a" does not verify for "b". -/
theorem a_signature_is_not_reused :
    (sealOf [0x61]).hash id = some (sealOf [0x61]).bytes ∧ (sealOf [0x62]).hash id = some (sealOf [0x62]).bytes ∧
    ((sealOf [0x61]).bytes == (sealOf [0x62]).bytes) = false := by
  have ha : (sealOf [0x61]).hash id = some (sealOf [0x61]).bytes :=
    Seal.hash_eq_some_iff.mpr ⟨_, Seal.preimage_ok_iff.mpr ⟨by decide, rfl⟩, rfl⟩
  have hb : (sealOf [0x62]).hash id = some (sealOf [0x62]).bytes :=
    Seal.hash_eq_some_iff.mpr ⟨_, Seal.preimage_ok_iff.mpr ⟨by decide, rfl⟩, rfl⟩
  refine ⟨ha, hb, Bool.eq_false_iff.mpr fun hverify => ?_⟩
  have hsame := seals_unambiguous.2.2.1 Bytes Unit Bytes id (fun _ sig h => sig == h) () (sealOf [0x61]).bytes
    (sealOf [0x61]) (sealOf [0x62]) _ _ ha hb (fun _ _ _ _ h => h) (fun _ h => eq_of_beq h) (beq_self_eq_true _) hverify
  exact absurd (congrArg Seal.name hsame) (by decide)

end Fnd.Blob

/-
  Fnd.Store.DB — the LevelDB tables the protocol reads and writes (`store/headers.go`,
  `store/naming.go`, `store/moderation.go`, `store/equivocation_proof.go`), one map a
  table. Database operations succeed; a missing key is `none` (`leveldb.ErrNotFound`).

  A header ban is stored as an 8-byte integer, the Unix seconds of its time, and read
  back by `mustDecodeInt`, which panics above `math.MaxInt32`. So is the count of headers,
  when a name gets its first one.
-/

import Mathlib.Logic.Function.Basic
import Fnd.Blob.Hash
import Fnd.Wire.Messages

namespace Fnd.Store

open Blob (SectorHashes)
open Wire (EquivocationProof)

structure Header (H G : Type) where
  name : Name
  epochHeight : UInt16
  sectorSize : UInt16
  sectorTipHash : H
  signature : G
  reservedRoot : H
  epochStartAt : Time
  deriving DecidableEq

structure NameInfo (K : Type) where
  name : Name
  publicKey : K
  importHeight : Int
  deriving DecidableEq

structure DB (H K G : Type) where
  headers : Name → Option (Header H G)
  sectorHashes : Name → Option (SectorHashes H)
  headerCount : Nat
  /-- The stored integers. -/
  headerBans : Name → Option Nat
  nameInfo : Name → Option (NameInfo K)
  nameBans : Name → Bool
  equivocationProofs : Name → Option (EquivocationProof H G)
  lastNameImportHeight : Int
  initialImportComplete : Bool

namespace DB

variable {H K G : Type}

/-- A store with no headers, no bans and no proofs; the names are given. -/
def empty (nameInfo : Name → Option (NameInfo K)) (nameBans : Name → Bool) : DB H K G :=
  ⟨fun _ => none, fun _ => none, 0, fun _ => none, nameInfo, nameBans, fun _ => none, 0, true⟩

/-- `mustEncodeInt`: the `uint64` of an `int`. -/
def mustEncodeInt (n : Int) : Nat := (UInt64.ofInt n).toNat

def mustDecodeInt {ε : Type} (n : Nat) : Except (Fault ε) Int := if n > 2147483647 then .error .panic else .ok n

/-- The integer is one that `mustDecodeInt` reads back. -/
def Decodes (n : Int) : Prop := 0 ≤ n ∧ n ≤ 2147483647

instance (n : Int) : Decidable (Decodes n) := inferInstanceAs (Decidable (_ ∧ _))

/-- `GetHeaderBan`: the zero time without a ban. -/
def getHeaderBan {ε : Type} (db : DB H K G) (name : Name) : Except (Fault ε) Time :=
  match db.headerBans name with
  | none => .ok zeroTime
  | some n =>
    match mustDecodeInt n with
    | .error f => .error f
    | .ok n => .ok (n * second)

/-- `SetHeaderBan`: a zero time means now. -/
def setHeaderBan (db : DB H K G) (now : Time) (name : Name) (at_ : Time) : DB H K G :=
  let at_ := if at_ = zeroTime then now else at_
  { db with headerBans := Function.update db.headerBans name (some (mustEncodeInt (unix at_))) }

/-- What `SetHeaderTx` writes. -/
def setHeader (db : DB H K G) (header : Header H G) (sectorHashes : SectorHashes H) : DB H K G :=
  { db with
    headers := Function.update db.headers header.name (some header)
    sectorHashes := Function.update db.sectorHashes header.name (some sectorHashes)
    headerCount := if (db.headers header.name).isSome then db.headerCount else db.headerCount + 1 }

/-- `IncrementHeaderCount` reads the count of a name that is new; a panic discards the writes. -/
def setHeaderTx {ε : Type} (db : DB H K G) (header : Header H G) (sectorHashes : SectorHashes H) :
    Except (Fault ε) (DB H K G) :=
  if (db.headers header.name).isSome then .ok (db.setHeader header sectorHashes)
  else
    match mustDecodeInt db.headerCount with
    | .error f => .error f
    | .ok _ => .ok (db.setHeader header sectorHashes)

/-- The name has a header, or the count decodes. -/
def TakesHeader (db : DB H K G) (name : Name) : Prop := (db.headers name).isSome = true ∨ db.headerCount ≤ 2147483647

instance (db : DB H K G) (name : Name) : Decidable (db.TakesHeader name) := inferInstanceAs (Decidable (_ ∨ _))

/-- `SetEquivocationProofTx`. The stored bytes are the proof's encoding; it came off the
    wire, or holds a payload that did, so it encodes. -/
def setEquivocationProof (db : DB H K G) (name : Name) (proof : EquivocationProof H G) : DB H K G :=
  { db with equivocationProofs := Function.update db.equivocationProofs name (some proof) }

/-- `TruncateBannedNames`: every key under the bans' own prefix. -/
def truncateBannedNames (db : DB H K G) : DB H K G := { db with nameBans := fun _ => false }

def banName (db : DB H K G) (name : Name) : DB H K G := { db with nameBans := Function.update db.nameBans name true }

/-- `GetLastNameImportHeight`: a stored height that is not below 2^31 panics. -/
def getLastNameImportHeight {ε : Type} (db : DB H K G) : Except (Fault ε) Int :=
  if Decodes db.lastNameImportHeight then .ok db.lastNameImportHeight else .error .panic

def setLastNameImportHeight (db : DB H K G) (height : Int) : DB H K G := { db with lastNameImportHeight := height }

def setInitialImportComplete (db : DB H K G) : DB H K G := { db with initialImportComplete := true }

def setNameInfo (db : DB H K G) (name : Name) (key : K) (height : Int) : DB H K G :=
  { db with nameInfo := Function.update db.nameInfo name (some ⟨name, key, height⟩) }

/-- The keys under "names". The import height and the flag are elsewhere. -/
def truncateNameStore (db : DB H K G) : DB H K G := { db with nameInfo := fun _ => none }

inductive SectorHashErr where
  | notFound
  deriving DecidableEq, Repr

/-- `GetSectorHash`: an index past `len(hashes)` gives the zero hash without an error (the
    wrapped error is nil), the index `len(hashes)` itself is out of range. -/
def getSectorHash [Zero H] (db : DB H K G) (name : Name) (index : UInt16) : Except (Fault SectorHashErr) H :=
  match db.sectorHashes name with
  | none => .error (.err .notFound)
  | some hashes =>
    if index.toNat > Blob.maxSectors then .ok 0
    else if h : index.toNat < Blob.maxSectors then .ok (hashes ⟨index.toNat, h⟩)
    else .error .panic

theorem setHeaderTx_eq {ε : Type} (db : DB H K G) (header : Header H G) (sectorHashes : SectorHashes H) :
    db.setHeaderTx (ε := ε) header sectorHashes =
      if db.TakesHeader header.name then .ok (db.setHeader header sectorHashes) else .error .panic := by
  by_cases hnew : (db.headers header.name).isSome = true
  · have htakes : db.TakesHeader header.name := .inl hnew
    rw [setHeaderTx, if_pos hnew, if_pos htakes]
  · by_cases hcount : db.headerCount ≤ 2147483647
    · have htakes : db.TakesHeader header.name := .inr hcount
      simp only [setHeaderTx, mustDecodeInt, if_neg hnew, if_neg (Nat.not_lt.mpr hcount), if_pos htakes]
    · have hnot : ¬ db.TakesHeader header.name := fun h => h.elim hnew hcount
      simp only [setHeaderTx, mustDecodeInt, if_neg hnew, if_pos (Nat.not_le.mp hcount), if_neg hnot]

theorem setHeaderTx_ok {ε : Type} {db : DB H K G} {header : Header H G} (h : db.TakesHeader header.name)
    (sectorHashes : SectorHashes H) : db.setHeaderTx (ε := ε) header sectorHashes = .ok (db.setHeader header sectorHashes) := by
  rw [setHeaderTx_eq, if_pos h]

theorem setHeaderTx_panic {ε : Type} {db : DB H K G} {header : Header H G} (h : ¬ db.TakesHeader header.name)
    (sectorHashes : SectorHashes H) : db.setHeaderTx (ε := ε) header sectorHashes = .error .panic := by
  rw [setHeaderTx_eq, if_neg h]

theorem getHeaderBan_ok_iff {ε : Type} {db : DB H K G} {name : Name} {bannedAt : Time} :
    db.getHeaderBan (ε := ε) name = .ok bannedAt ↔
      (db.headerBans name = none ∧ bannedAt = zeroTime) ∨
      ∃ n, db.headerBans name = some n ∧ n ≤ 2147483647 ∧ bannedAt = n * second := by
  cases h : db.headerBans name with
  | none => simp [getHeaderBan, h, eq_comm]
  | some n =>
    by_cases hn : n > 2147483647
    · simp [getHeaderBan, h, mustDecodeInt, hn, Nat.not_le.mpr hn]
    · simp [getHeaderBan, h, mustDecodeInt, hn, Nat.not_lt.mp hn, eq_comm]

theorem getHeaderBan_error {ε : Type} {db : DB H K G} {name : Name} {f : Fault ε}
    (h : db.getHeaderBan name = .error f) : f = .panic := by
  cases hb : db.headerBans name with
  | none => simp [getHeaderBan, hb] at h
  | some n =>
    by_cases hn : n > 2147483647
    · simp [getHeaderBan, hb, mustDecodeInt, hn] at h
      exact h.symm
    · simp [getHeaderBan, hb, mustDecodeInt, hn] at h

theorem record_ne_zeroTime (n : Nat) : n * second ≠ zeroTime := by
  intro h
  have h : (n : Int) * 1000000000 = -62135596800 * 1000000000 := h
  omega

@[simp] theorem setHeader_headers (db : DB H K G) (h : Header H G) (s : SectorHashes H) :
    (db.setHeader h s).headers = Function.update db.headers h.name (some h) := rfl
@[simp] theorem setHeader_sectorHashes (db : DB H K G) (h : Header H G) (s : SectorHashes H) :
    (db.setHeader h s).sectorHashes = Function.update db.sectorHashes h.name (some s) := rfl

@[simp] theorem setEquivocationProof_headerBans (db : DB H K G) (n : Name) (p : EquivocationProof H G) :
    (db.setEquivocationProof n p).headerBans = db.headerBans := rfl

end DB

end Fnd.Store

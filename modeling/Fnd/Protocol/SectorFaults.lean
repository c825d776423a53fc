/-
  Fnd.Protocol.SectorFaults — `onBlobReq` when the database, the blob store or the connection
  fails (`protocol/sector_server.go`).

  `Outcomes` says of each call of the handler that can fail whether it succeeds; where all do,
  the handler is the one of `Fnd.Protocol.SectorServer` (`onBlobReqWith_ok`). The read lock is
  given back by hand on every exit but one: when the hash before the requested sectors cannot
  be read. And `GetSectorHash` lets the index one past the end through, which a request of size
  4097 asks for. The handler returns with the lock as it found it exactly when it comes to
  neither (`blobReq_keeps_lock_iff`, `a_request_crashes_or_leaks`).
-/

import Mathlib.Control.Monad.Basic
import Fnd.Sync

namespace Fnd.Protocol

open Blob (File Sector readBlobAt sectorBytes maxSectors)
open Store (DB Header)
open Wire (BlobReq BlobRes Message)
open Util (MultiLocker Cache)

variable {H K G : Type}

/-- Whether each call succeeds. A blob that does not close is logged, nothing else. -/
structure Outcomes where
  getHeader : Bool
  getEquivocationProof : Bool
  decodeProof : Bool
  getSectorHashes : Bool
  openBlob : Bool
  readAt : Nat → Bool
  send : Bool

def Outcomes.ok : Outcomes := ⟨true, true, true, true, true, fun _ => true, true⟩

@[simp] theorem Outcomes.ok_getHeader : Outcomes.ok.getHeader = true := rfl
@[simp] theorem Outcomes.ok_getEquivocationProof : Outcomes.ok.getEquivocationProof = true := rfl
@[simp] theorem Outcomes.ok_decodeProof : Outcomes.ok.decodeProof = true := rfl
@[simp] theorem Outcomes.ok_getSectorHashes : Outcomes.ok.getSectorHashes = true := rfl
@[simp] theorem Outcomes.ok_openBlob : Outcomes.ok.openBlob = true := rfl
@[simp] theorem Outcomes.ok_readAt (i : Nat) : Outcomes.ok.readAt i = true := rfl
@[simp] theorem Outcomes.ok_send : Outcomes.ok.send = true := rfl

inductive BlobReqErr where
  | dropped (e : DropErr)
  /-- "failed to deserialize equivocation proof" -/
  | badProof
  /-- "failed to fetch blob" -/
  | openFailed
  | sendFailed
  deriving DecidableEq, Repr

/-- The reasons of the handler whose calls succeed. -/
def liftDrop {α : Type} : Except (Fault DropErr) α → Except (Fault BlobReqErr) α
  | .ok a => .ok a
  | .error .panic => .error .panic
  | .error (.err e) => .error (.err (.dropped e))

def readSectorsWith (o : Outcomes) (b : File) : Nat → Nat → Except (Fault BlobReqErr) (List Sector)
  | 0, _ => .ok []
  | k + 1, i =>
    if !o.readAt i then .error (.err (.dropped .readFailed))
    else match readBlobAt b sectorBytes (i * sectorBytes) with
      | (_, some _) => .error (.err (.dropped .readFailed))
      | (bs, none) =>
        match readSectorsWith o b k (i + 1) with
        | .error f => .error f
        | .ok rest => .ok (Blob.zeroSector.copy bs :: rest)

variable [Zero H]

def prevHashWith (o : Outcomes) (db : DB H K G) (req : BlobReq) : Except (Fault BlobReqErr) H :=
  if req.sectorSize = 0 then .ok 0
  else if !o.getSectorHashes then .error (.err (.dropped .sectorHash))
  else match db.getSectorHash req.name (req.sectorSize - 1) with
    | .error .panic => .error .panic
    | .error (.err _) => .error (.err (.dropped .sectorHash))
    | .ok h => .ok h

/-- `onBlobReq` once the read lock is held: the answer, and whether the lock is released. -/
def serveWith (o : Outcomes) (now : Time) (s : Shared H K G) (cache : ResponseCache) (header : Header H G) (req : BlobReq) :
    (Except (Fault BlobReqErr) (BlobRes H G) × Bool) × ResponseCache :=
  match prevHashWith o s.db req with
  -- this return comes before any `RUnlock`
  | .error f => ((.error f, false), cache)
  | .ok prevHash =>
    match cache.get now (cacheKey req.name req.epochHeight req.sectorSize) with
    | (some sectors, cache) => ((.ok (response req header prevHash sectors), true), cache)
    | (none, cache) =>
      if !o.openBlob then ((.error (.err .openFailed), true), cache)
      else match readSectorsWith o (s.blobs req.name) (header.sectorSize.toNat - req.sectorSize.toNat) req.sectorSize.toNat with
        | .error f => ((.error f, true), cache)
        | .ok sectors =>
          ((.ok (response req header prevHash sectors), true),
            cache.set now (cacheKey req.name req.epochHeight req.sectorSize) sectors cacheExpiryMS)

/-- The message goes out, or the failure is logged. -/
def sendWith (o : Outcomes) (m : Message H K G) : Except (Fault BlobReqErr) (Message H K G) :=
  if o.send then .ok m else .error (.err .sendFailed)

def onBlobReqWith (o : Outcomes) (now : Time) (s : Shared H K G) (cache : ResponseCache) (req : BlobReq) :
    Except (Fault BlobReqErr) (Message H K G) × Shared H K G × ResponseCache :=
  if !o.getHeader then (.error (.err (.dropped .noHeader)), s, cache)
  else match s.db.headers req.name with
    | none => (.error (.err (.dropped .noHeader)), s, cache)
    | some header =>
      if header.epochHeight < req.epochHeight then (.error (.err (.dropped .epochAhead)), s, cache)
      else if req.sectorSize.toNat = maxSectors then
        if !o.getEquivocationProof then (.error (.err (.dropped .noProof)), s, cache)
        else match s.db.equivocationProofs req.name with
          | none => (.error (.err (.dropped .noProof)), s, cache)
          | some proof =>
            if !o.decodeProof then (.error (.err .badProof), s, cache)
            else (sendWith o (.equivocationProof proof), s, cache)
      else
        match s.locks.tryRLock req.name with
        | none => (.error (.err (.dropped .busy)), s, cache)
        | some locks =>
          let s := { s with locks := locks }
          let ((r, released), cache) := serveWith o now s cache header req
          let r : Except (Fault BlobReqErr) (Message H K G) := r.bind fun m => sendWith o (.blobRes m)
          if released then
            match s.locks.rUnlock req.name with
            | none => (.error .panic, s, cache)
            | some locks => (r, { s with locks := locks }, cache)
          else (r, s, cache)

/-! ## Where nothing fails -/

omit [Zero H] in
theorem readSectorsWith_ok (b : File) : ∀ k i, readSectorsWith .ok b k i = liftDrop (readSectors b k i) := by
  intro k
  induction k with
  | zero => intro i; rfl
  | succ k ih =>
    intro i
    simp only [readSectorsWith, readSectors, Outcomes.ok_readAt, Bool.not_true, Bool.false_eq_true, if_false, ih]
    rcases readBlobAt b sectorBytes (i * sectorBytes) with ⟨bs, _ | e⟩
    · rcases readSectors b k (i + 1) with (_ | _) | _ <;> rfl
    · rfl

theorem prevHashWith_ok (db : DB H K G) (req : BlobReq) : prevHashWith .ok db req = liftDrop (prevHashOf db req) := by
  unfold prevHashWith prevHashOf
  split
  · rfl
  simp only [Outcomes.ok_getSectorHashes, Bool.not_true, Bool.false_eq_true, if_false]
  rcases db.getSectorHash req.name (req.sectorSize - 1) with (_ | _) | _ <;> rfl

theorem serveWith_ok (now : Time) (s : Shared H K G) (cache : ResponseCache) (header : Header H G) (req : BlobReq) :
    serveWith .ok now s cache header req =
      ((liftDrop (serve now s cache header req).1.1, (serve now s cache header req).1.2), (serve now s cache header req).2) := by
  unfold serveWith serve
  rw [prevHashWith_ok]
  rcases prevHashOf s.db req with (e | _) | prevHash
  · rfl
  · rfl
  simp only [liftDrop]
  rcases cache.get now (cacheKey req.name req.epochHeight req.sectorSize) with ⟨_ | sectors, cache'⟩
  · simp only [Outcomes.ok_openBlob, Bool.not_true, Bool.false_eq_true, if_false, readSectorsWith_ok]
    rcases readSectors (s.blobs req.name) (header.sectorSize.toNat - req.sectorSize.toNat) req.sectorSize.toNat with
      (e | _) | sectors <;> rfl
  · rfl

omit [Zero H] in
theorem liftDrop_bind_send (r : Except (Fault DropErr) (BlobRes H G)) :
    ((liftDrop r).bind fun m => sendWith .ok (.blobRes m : Message H K G)) = liftDrop (r.map .blobRes) := by
  rcases r with (_ | _) | _ <;> rfl

/-- With every call successful this is the handler itself. -/
theorem onBlobReqWith_ok (now : Time) (s : Shared H K G) (cache : ResponseCache) (req : BlobReq) :
    onBlobReqWith .ok now s cache req = (liftDrop (onBlobReq now s cache req).1, (onBlobReq now s cache req).2) := by
  unfold onBlobReqWith onBlobReq
  simp only [Outcomes.ok_getHeader, Outcomes.ok_getEquivocationProof, Outcomes.ok_decodeProof, Bool.not_true,
    Bool.false_eq_true, if_false, serveWith_ok, liftDrop_bind_send]
  cases s.db.headers req.name with
  | none => rfl
  | some header =>
    by_cases he : header.epochHeight < req.epochHeight
    · simp only [if_pos he]
      rfl
    simp only [if_neg he]
    by_cases hm : req.sectorSize.toNat = maxSectors
    · simp only [if_pos hm]
      cases s.db.equivocationProofs req.name <;> rfl
    simp only [if_neg hm, respond]
    cases s.locks.tryRLock req.name with
    | none => rfl
    | some locks =>
      dsimp only
      rcases serve now { s with locks := locks } cache header req with ⟨⟨r, released⟩, cache'⟩
      cases released with
      | false => rfl
      | true => cases locks.rUnlock req.name <;> rfl

/-! ## What the handler leaves held -/

omit [Zero H] in
theorem readSectorsWith_panics (o : Outcomes) (b : File) : ∀ k i, readSectorsWith o b k i ≠ .error .panic := by
  intro k
  induction k with
  | zero => intro i; nofun
  | succ k ih =>
    intro i h
    unfold readSectorsWith at h
    split at h
    · cases h
    split at h
    · cases h
    split at h
    · rename_i hf
      cases h
      exact ih (i + 1) hf
    · cases h

/-- The hash before the requested sectors cannot be had: the database fails, no hashes are
    stored, or the index is one past the end. -/
def NoPrevHash (o : Outcomes) (db : DB H K G) (req : BlobReq) : Prop :=
  req.sectorSize ≠ 0 ∧ (o.getSectorHashes = false ∨ db.sectorHashes req.name = none ∨ req.sectorSize = 4097)

theorem prevHashWith_error_iff (o : Outcomes) (db : DB H K G) (req : BlobReq) :
    (∃ f, prevHashWith o db req = .error f) ↔ NoPrevHash o db req := by
  unfold prevHashWith NoPrevHash
  by_cases h0 : req.sectorSize = 0
  · simp [h0]
  cases ho : o.getSectorHashes with
  | false => simp [h0]
  | true =>
    simp only [h0, if_false, Bool.not_true, Bool.false_eq_true, DB.getSectorHash, ne_eq, not_false_eq_true, true_and,
      Bool.true_eq_false, false_or]
    cases db.sectorHashes req.name with
    | none => simp
    | some hashes =>
      have hindex : (req.sectorSize - 1).toNat = req.sectorSize.toNat - 1 := by
        have h0 : req.sectorSize.toNat ≠ 0 := fun h => h0 (UInt16.toNat_inj.mp h)
        exact UInt16.toNat_sub_of_le _ _ (UInt16.le_iff_toNat_le.mpr (Nat.one_le_iff_ne_zero.mpr h0))
      have hsize : req.sectorSize = 4097 ↔ req.sectorSize.toNat = 4097 := by rw [← UInt16.toNat_inj]; rfl
      have hmax : maxSectors = 4096 := rfl
      rw [hsize]
      by_cases h1 : (req.sectorSize - 1).toNat > maxSectors
      · simp only [if_pos h1, reduceCtorEq, exists_false, false_or, false_iff]
        omega
      by_cases h2 : (req.sectorSize - 1).toNat < maxSectors
      · simp only [if_neg h1, dif_pos h2, reduceCtorEq, exists_false, false_or, false_iff]
        omega
      · simp only [if_neg h1, dif_neg h2, Except.error.injEq, exists_eq', reduceCtorEq, false_or, true_iff]
        omega

/-- The handler comes to the lookup with the read lock. -/
def Looks (o : Outcomes) (s : Shared H K G) (req : BlobReq) : Prop :=
  o.getHeader = true ∧ (∃ header, s.db.headers req.name = some header ∧ req.epochHeight ≤ header.epochHeight) ∧
  req.sectorSize.toNat ≠ maxSectors ∧ (s.locks req.name).writers = 0

omit [Zero H] in
theorem sendWith_panics (o : Outcomes) (m : Message H K G) : sendWith o m ≠ .error .panic := by
  unfold sendWith
  split <;> nofun

theorem onBlobReqWith_before {o : Outcomes} {s : Shared H K G} {req : BlobReq} (h : ¬ Looks o s req) (now : Time)
    (cache : ResponseCache) : ∃ r, onBlobReqWith o now s cache req = (r, s, cache) ∧ r ≠ .error .panic := by
  unfold onBlobReqWith
  cases hget : o.getHeader with
  | false => exact ⟨_, rfl, by simp⟩
  | true =>
    simp only [Bool.not_true, Bool.false_eq_true, if_false]
    cases hh : s.db.headers req.name with
    | none => exact ⟨_, rfl, by simp⟩
    | some header =>
      dsimp only
      split
      · exact ⟨_, rfl, by simp⟩
      rename_i he
      split
      · split
        · exact ⟨_, rfl, by simp⟩
        split
        · exact ⟨_, rfl, by simp⟩
        split
        · exact ⟨_, rfl, by simp⟩
        · exact ⟨_, rfl, sendWith_panics o _⟩
      rename_i hm
      cases hl : s.locks.tryRLock req.name with
      | none => exact ⟨_, rfl, by simp⟩
      | some locks =>
        exact absurd ⟨hget, ⟨header, hh, UInt16.not_lt.mp he⟩, hm, (MultiLocker.tryRLock_eq_some.mp hl).1⟩ h

theorem serveWith_released {o : Outcomes} {s : Shared H K G} {req : BlobReq} {prevHash : H}
    (hp : prevHashWith o s.db req = .ok prevHash) (now : Time) (cache : ResponseCache) (header : Header H G) :
    ∃ r cache', serveWith o now s cache header req = ((r, true), cache') ∧ r ≠ .error .panic := by
  unfold serveWith
  simp only [hp]
  split
  · exact ⟨_, _, rfl, by simp⟩
  split
  · exact ⟨_, _, rfl, by simp⟩
  split
  · rename_i f hf
    refine ⟨_, _, rfl, fun h => ?_⟩
    cases h
    exact readSectorsWith_panics o _ _ _ hf
  · exact ⟨_, _, rfl, by simp⟩

theorem onBlobReqWith_looks {o : Outcomes} {s : Shared H K G} {req : BlobReq} (h : Looks o s req) (now : Time)
    (cache : ResponseCache) : ∃ header locks, s.locks.tryRLock req.name = some locks ∧
      onBlobReqWith o now s cache req =
        let served := serveWith o now { s with locks := locks } cache header req
        let r := served.1.1.bind fun m => sendWith o (.blobRes m)
        (r, if served.1.2 then s else { s with locks := locks }, served.2) := by
  obtain ⟨hget, ⟨header, hh, he⟩, hm, hw⟩ := h
  obtain ⟨locks, hl⟩ := MultiLocker.tryRLock_free hw
  refine ⟨header, locks, hl, ?_⟩
  simp only [onBlobReqWith, hget, Bool.not_true, Bool.false_eq_true, if_false, hh, if_neg (UInt16.not_lt.mpr he),
    if_neg hm, hl, MultiLocker.rUnlock_tryRLock hl]
  split <;> rfl

/-- For every request, every state and all outcomes: the handler returns without a panic, and the
    name's counters are as before, exactly unless it comes to the lookup and that fails. -/
theorem blobReq_keeps_lock_iff (o : Outcomes) (now : Time) (s : Shared H K G) (cache : ResponseCache) (req : BlobReq) :
    ((onBlobReqWith o now s cache req).1 ≠ .error .panic ∧
      (onBlobReqWith o now s cache req).2.1.locks req.name = s.locks req.name) ↔
    ¬ (Looks o s req ∧ NoPrevHash o s.db req) := by
  by_cases hlook : Looks o s req
  · obtain ⟨header, locks, hl, heq⟩ := onBlobReqWith_looks hlook now cache
    simp only [hlook, true_and, ← prevHashWith_error_iff]
    cases hp : prevHashWith o s.db req with
    | error f =>
      -- the lock is still held on this exit
      have hserve : serveWith o now { s with locks := locks } cache header req = ((.error f, false), cache) := by
        simp only [serveWith, hp]
      rw [heq, hserve, (MultiLocker.tryRLock_eq_some.mp hl).2]
      refine iff_of_false (fun h => ?_) fun h => h ⟨f, rfl⟩
      have hreaders := congrArg Util.RefCounter.readers h.2
      simp only [Bool.false_eq_true, if_false, Function.update_self] at hreaders
      omega
    | ok prevHash =>
      obtain ⟨r, cache', hserve, hr⟩ := serveWith_released (s := { s with locks := locks }) hp now cache header
      rw [heq, hserve]
      refine iff_of_true ⟨?_, rfl⟩ nofun
      rcases r with (_ | _) | m
      · nofun
      · exact absurd rfl hr
      · exact sendWith_panics o _
  · obtain ⟨r, heq, hr⟩ := onBlobReqWith_before hlook now cache
    rw [heq]
    exact iff_of_true ⟨hr, rfl⟩ fun h => hlook h.1

/-- A request at the end of the hashes, and one for the second sector when the hashes cannot be read. -/
theorem a_request_crashes_or_leaks :
    let r := onBlobReqWith { Outcomes.ok with getSectorHashes := false } 0 host Cache.new ⟨Symbolic.site, 5, 1⟩
    (onBlobReqWith .ok 0 host Cache.new ⟨Symbolic.site, 5, 4097⟩).1 = .error .panic ∧
    r.1 = .error (.err (.dropped .sectorHash)) ∧ host.locks Symbolic.site = ⟨0, 0⟩ ∧
    r.2.1.locks Symbolic.site = ⟨1, 0⟩ ∧ (r.2.1.locks.tryLock Symbolic.site).isSome = false := by
  decide +kernel

end Fnd.Protocol

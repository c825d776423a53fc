/-
  Fnd.Protocol.UpdateServer — the reply to an `UpdateReq` (`protocol/update_server.go`).

  The handler takes the name's read lock, reads the header and answers with an `Update` for
  the stored version or with a `NilUpdate`. `Enqueue` and `UpdateBlob` compare versions
  epoch first (`compareHeader_newer`, `check_newer`); the handler compares sizes only. So it
  answers by their order exactly when the epochs are equal or the higher epoch also has
  more sectors (`update_replies_newer_iff`): after a rollover that shrinks a blob the new
  version is not announced (`a_rollover_is_not_announced`).
-/

import Fnd.Versions

namespace Fnd.Protocol

open Store (DB Header)
open Wire (Update UpdateReq Message)
open Node (version)

variable {H K G : Type}

/-- The reply under the read lock; `dbOk` says whether `GetHeader` could read the database. -/
def reply (dbOk : Bool) (db : DB H K G) (msg : UpdateReq) : Message H K G :=
  if !dbOk then .nilUpdate ⟨msg.name⟩
  else match db.headers msg.name with
    | none => .nilUpdate ⟨msg.name⟩
    | some header =>
      if header.sectorSize < msg.sectorSize ∨ header.sectorSize = msg.sectorSize then .nilUpdate ⟨msg.name⟩
      else .update ⟨msg.name, header.epochHeight, header.sectorSize⟩

/-- `UpdateReqHandler`: the message sent back; a name with a writer is answered as unknown. -/
def updateReqHandler (dbOk : Bool) (s : Shared H K G) (msg : UpdateReq) :
    Except (Fault Empty) (Message H K G) × Shared H K G :=
  match s.locks.tryRLock msg.name with
  | none => (.ok (.nilUpdate ⟨msg.name⟩), s)
  | some locks =>
    let s := { s with locks := locks }
    match s.locks.rUnlock msg.name with
    | none => (.error .panic, s)
    | some locks => (.ok (reply dbOk s.db msg), { s with locks := locks })

theorem updateReqHandler_eq (dbOk : Bool) (s : Shared H K G) (msg : UpdateReq) :
    updateReqHandler dbOk s msg =
      (.ok (if (s.locks msg.name).writers = 0 then reply dbOk s.db msg else .nilUpdate ⟨msg.name⟩), s) := by
  cases hl : s.locks.tryRLock msg.name with
  | none =>
    have hw : (s.locks msg.name).writers ≠ 0 := by
      intro h0
      obtain ⟨locks, hs⟩ := Util.MultiLocker.tryRLock_free h0
      cases hl.symm.trans hs
    simp only [updateReqHandler, hl, if_neg hw]
  | some locks =>
    have hw := (Util.MultiLocker.tryRLock_eq_some.mp hl).1
    simp only [updateReqHandler, hl, Util.MultiLocker.rUnlock_tryRLock hl, if_pos hw]

/-! ## The order of versions -/

theorem version_lt {e n e' n' : UInt16} : version e n < version e' n' ↔ e < e' ∨ (e = e' ∧ n < n') := by
  rw [version, version, Prod.Lex.toLex_lt_toLex]
  simp only [UInt16.lt_iff_toNat_lt, UInt16.toNat_inj]

/-- `Enqueue` takes an update for newer exactly when its version is above the header's. -/
theorem compareHeader_newer (header : Header H G) (update : Update) :
    UpdateQueue.compareHeader (some header) update = .ok () ↔
      version header.epochHeight header.sectorSize < version update.epochHeight update.sectorSize := by
  rw [version_lt]
  simp only [UpdateQueue.compareHeader, gt_iff_lt, UInt16.lt_iff_toNat_lt, ← UInt16.toNat_inj]
  split
  · simp only [reduceCtorEq, false_iff]; omega
  split
  · simp only [reduceCtorEq, false_iff]; omega
  split
  · simp only [reduceCtorEq, false_iff]; omega
  · simp only [true_iff]; omega

theorem checkRollover_error {P : Prims H K G} {now bannedAt : Time} {header : Header H G} {item : UpdateQueueItem H K}
    {e : UpdaterErr} (h : checkRollover P now header bannedAt item = .error e) :
    e ≠ .alreadySynchronized ∧ e ≠ .epochBackdated := by
  unfold checkRollover at h
  split at h
  · cases h; decide
  split at h
  · cases h; decide
  split at h
  · cases h; decide
  split at h
  · cases h; decide
  · cases h

/-- So does `UpdateBlob`: it takes an item for synchronized or backdated for no other reason. -/
theorem check_newer [Zero H] (P : Prims H K G) (now : Time) {db : DB H K G} {item : UpdateQueueItem H K}
    {header : Header H G} (hh : db.headers item.name = some header) :
    (check P now db item ≠ .error (.err .alreadySynchronized) ∧ check P now db item ≠ .error (.err .epochBackdated)) ↔
      version header.epochHeight header.sectorSize < version item.epochHeight item.sectorSize := by
  rw [version_lt]
  by_cases hsync : header.epochHeight = item.epochHeight ∧ header.sectorSize ≥ item.sectorSize
  · have hc : check P now db item = .error (.err .alreadySynchronized) := by
      simp only [check, hh, Option.any_some, hsync.1, beq_self_eq_true, Bool.true_and, decide_eq_true_eq, hsync.2, if_true]
    simp [hc, hsync.1, UInt16.not_lt.mpr hsync.2]
  have hskip : ¬ (header.epochHeight == item.epochHeight && decide (header.sectorSize ≥ item.sectorSize)) = true := by
    simpa using hsync
  by_cases hback : item.epochHeight < header.epochHeight
  · have hc : check P now db item = .error (.err .epochBackdated) := by
      simp only [check, hh, Option.any_some, if_neg hskip, Plan.ofHeader, if_pos hback]
    have hne : header.epochHeight ≠ item.epochHeight := fun he => UInt16.lt_irrefl _ (he ▸ hback)
    simp [hc, UInt16.lt_asymm hback, hne]
  have hnewer : header.epochHeight < item.epochHeight ∨
      (header.epochHeight = item.epochHeight ∧ header.sectorSize < item.sectorSize) := by
    simp only [ge_iff_le, UInt16.le_iff_toNat_le, UInt16.lt_iff_toNat_lt, ← UInt16.toNat_inj] at hsync hback ⊢
    omega
  simp only [hnewer, iff_true, check, hh, Option.any_some, if_neg hskip, Plan.ofHeader, if_neg hback]
  cases hban : db.getHeaderBan (ε := UpdaterErr) item.name with
  | error f =>
    rw [DB.getHeaderBan_error hban]
    simp
  | ok bannedAt =>
    by_cases hup : item.epochHeight > header.epochHeight
    · cases hroll : checkRollover P now header bannedAt item with
      | error e => simpa [hup, hroll] using checkRollover_error hroll
      | ok _ => simp [hup, hroll]
    · simp [hup]

theorem reply_by_size {db : DB H K G} {msg : UpdateReq} {header : Header H G} (hh : db.headers msg.name = some header) :
    reply true db msg =
      if msg.sectorSize < header.sectorSize then .update ⟨msg.name, header.epochHeight, header.sectorSize⟩
      else .nilUpdate ⟨msg.name⟩ := by
  simp only [reply, hh, Bool.not_true, Bool.false_eq_true, if_false]
  by_cases hn : msg.sectorSize < header.sectorSize
  · rw [if_pos hn, if_neg]
    simp only [UInt16.lt_iff_toNat_lt, ← UInt16.toNat_inj] at hn ⊢
    omega
  · rw [if_neg hn, if_pos]
    simp only [UInt16.lt_iff_toNat_lt, ← UInt16.toNat_inj] at hn ⊢
    omega

/-- On a name without a writer, with a header stored: the reply goes by the order of versions,
    the one by which the requester's own `Enqueue` and `UpdateBlob` compare the stored version
    with a header that has the requested values, exactly when the epochs agree or the higher
    one comes with more sectors. -/
theorem update_replies_newer_iff [Zero H] (P : Prims H K G) (now : Time) {s : Shared H K G} {msg : UpdateReq}
    {header : Header H G} (hh : s.db.headers msg.name = some header) (hfree : (s.locks msg.name).writers = 0) :
    let newer := version msg.epochHeight msg.sectorSize < version header.epochHeight header.sectorSize
    ((updateReqHandler true s msg).1 =
        .ok (if newer then .update ⟨msg.name, header.epochHeight, header.sectorSize⟩ else .nilUpdate ⟨msg.name⟩) ↔
      (msg.epochHeight ≠ header.epochHeight →
        (msg.epochHeight < header.epochHeight ↔ msg.sectorSize < header.sectorSize))) ∧
    (∀ requester : Header H G, requester.epochHeight = msg.epochHeight → requester.sectorSize = msg.sectorSize →
      (newer ↔ UpdateQueue.compareHeader (some requester) ⟨msg.name, header.epochHeight, header.sectorSize⟩ = .ok ()) ∧
      ∀ (db : DB H K G) (item : UpdateQueueItem H K), db.headers item.name = some requester →
        item.epochHeight = header.epochHeight → item.sectorSize = header.sectorSize →
        (newer ↔ check P now db item ≠ .error (.err .alreadySynchronized) ∧
          check P now db item ≠ .error (.err .epochBackdated))) := by
  intro newer
  constructor
  · have hnewer : newer ↔ (msg.epochHeight < header.epochHeight ∨
      (msg.epochHeight = header.epochHeight ∧ msg.sectorSize < header.sectorSize)) := version_lt
    have hreply : (updateReqHandler true s msg).1 =
        .ok (if newer then .update ⟨msg.name, header.epochHeight, header.sectorSize⟩ else .nilUpdate ⟨msg.name⟩) ↔
        (newer ↔ msg.sectorSize < header.sectorSize) := by
      simp only [updateReqHandler_eq, hfree, if_true, reply_by_size hh, Except.ok.injEq]
      by_cases h1 : newer <;> by_cases h2 : msg.sectorSize < header.sectorSize <;> simp [h1, h2]
    rw [hreply, hnewer]
    simp only [ne_eq, UInt16.lt_iff_toNat_lt, ← UInt16.toNat_inj]
    omega
  · intro requester he hn
    constructor
    · rw [compareHeader_newer, he, hn]
    · intro db item hr hie hin
      rw [check_newer P now hr, he, hn, hie, hin]

def appendReq : UpdateReq := ⟨Symbolic.site, 7, 1⟩

/-- A node that holds the version of the site's blob. -/
def withVersion (epochHeight sectorSize : UInt16) : Shared Symbolic.Sym Nat Symbolic.Sig :=
  { Symbolic.fresh with db := Symbolic.names.setHeader ⟨Symbolic.site, epochHeight, sectorSize, 0, ⟨1, 0⟩, 0, 0⟩ fun _ => 0 }

theorem an_append_is_announced :
    ∃ message, (updateReqHandler true (withVersion 7 3) appendReq).1 = .ok message ∧
      message = .update ⟨Symbolic.site, 7, 3⟩ := by
  have hstored : ((withVersion 7 3).db.headers appendReq.name) = some _ := rfl
  exact ⟨_, (update_replies_newer_iff Symbolic.prims 0 hstored rfl).1.mpr (by decide), by decide +kernel⟩

/-- Epoch 7 with one sector is newer than epoch 6 with three, and not announced; epoch 5 with
    ten sectors is older, and announced. -/
theorem a_rollover_is_not_announced :
    version 6 3 < version 7 1 ∧
    (updateReqHandler true (withVersion 7 1) ⟨Symbolic.site, 6, 3⟩).1 = .ok (.nilUpdate ⟨Symbolic.site⟩) ∧
    ¬ version 6 3 < version 5 10 ∧
    (updateReqHandler true (withVersion 5 10) ⟨Symbolic.site, 6, 3⟩).1 = .ok (.update ⟨Symbolic.site, 5, 10⟩) := by
  decide +kernel

end Fnd.Protocol

/-
  Fnd.Protocol.Updater — `UpdateBlob` (`protocol/updater.go`) over the state the
  components of a node share: the database, the blob store and the name locker.

  A run has three parts, and each is one function, since another worker can come between
  them: the checks against the stored header, the ban and the clock (`check`, giving the
  `Plan` of the sync); `TryLock`; and, with the name locked, the sync, the rehash and the
  two writes (`apply`, then the deferred `Unlock`: `finish`). `updateBlob` runs them in a
  row at one instant.
-/

import Fnd.Protocol.Syncer
import Fnd.Protocol.UpdateQueue
import Fnd.Util.MultiLocker

namespace Fnd.Protocol

open Blob (File Tx TxErr ReadErr serialHash tip sectorBytes)
open Store (DB Header)
open Wire (BlobRes Update)
open Util (MultiLocker)

variable {H K G : Type}

structure Shared (H K G : Type) where
  db : DB H K G
  blobs : Name → File
  locks : MultiLocker Name

inductive UpdaterErr where
  /-- `ErrUpdaterAlreadySynchronized` -/
  | alreadySynchronized
  | nameLocked
  | nameBanned
  /-- `ErrInvalidEpochCurrent` -/
  | epochCurrent
  | epochThrottled
  | epochBackdated
  | epochFuturedated
  /-- "cannot reset epoch ahead of schedule" -/
  | aheadOfSchedule
  | tx (e : TxErr)
  | sync (e : SyncErr)
  | hash (e : ReadErr)
  deriving DecidableEq, Repr

/-- The values the checks leave for the sync. -/
structure Plan (H : Type) where
  epochHeight : UInt16
  sectorSize : UInt16
  prevHash : H
  epochUpdated : Bool
  deriving DecidableEq

/-- How a call that returned nil ended: the header it stored, if any, and the updates it gossiped. -/
structure Processed (H G : Type) where
  stored : Option (Header H G)
  gossip : List Update
  deriving DecidableEq

def storedIn : Except (Fault UpdaterErr) (Processed H G) → Option (Header H G)
  | .ok p => p.stored
  | .error _ => none

def Plan.opts (plan : Plan H) (name : Name) : SyncSectorsOpts H :=
  ⟨plan.epochHeight, plan.sectorSize, plan.prevHash, name⟩

variable [Zero H]

def Plan.ofHeader : Option (Header H G) → Plan H
  | none => ⟨0, 0, 0, true⟩
  | some header => ⟨header.epochHeight, header.sectorSize, header.sectorTipHash, false⟩

variable (P : Prims H K G)

omit [Zero H] in
/-- The checks for an item above the stored epoch. -/
def checkRollover (now : Time) (header : Header H G) (bannedAt : Time) (item : UpdateQueueItem H K) :
    Except UpdaterErr Unit :=
  if bannedAt ≠ zeroTime ∧ bannedAt + week > now then .error .nameBanned
  else if bannedAt ≠ zeroTime ∧ item.epochHeight ≤ header.epochHeight + 1 then .error .epochCurrent
  else if now < header.epochStartAt + week ∧ item.epochHeight < currentEpoch P now item.name + 1 then
    .error .epochThrottled
  else if item.epochHeight > currentEpoch P now item.name + 1 then .error .epochFuturedated
  else .ok ()

/-- `UpdateBlob` up to `TryLock`. -/
def check (now : Time) (db : DB H K G) (item : UpdateQueueItem H K) : Except (Fault UpdaterErr) (Plan H) :=
  let header := db.headers item.name
  let plan : Plan H := Plan.ofHeader header
  if header.any fun h => h.epochHeight == item.epochHeight && decide (h.sectorSize ≥ item.sectorSize) then
    .error (.err .alreadySynchronized)
  else if item.epochHeight < plan.epochHeight then .error (.err .epochBackdated)
  else match db.getHeaderBan item.name with
    | .error f => .error f
    | .ok bannedAt =>
      match header with
      | none => .ok plan
      | some header =>
        if item.epochHeight > plan.epochHeight then
          match checkRollover P now header bannedAt item with
          | .error e => .error (.err e)
          | .ok () => .ok ⟨item.epochHeight, 0, 0, true⟩
        else .ok plan

omit [Zero H] in
/-- The transaction before the sync: truncated for a new epoch, at the planned sector. -/
def openTx (now : Time) (item : UpdateQueueItem H K) (plan : Plan H) : Except UpdaterErr Tx :=
  let tx := Tx.new item.name
  let seek (tx : Tx) : Except UpdaterErr Tx :=
    match tx.seek (plan.sectorSize.toNat * sectorBytes : Nat) .start with
    | .error e => .error (.tx e)
    | .ok tx => .ok tx
  if plan.epochUpdated then
    if plan.epochHeight > currentEpoch P now item.name + 1 then .error .aheadOfSchedule
    else match tx.truncate with
      | .error e => .error (.tx e)
      | .ok tx => seek tx
  else seek tx

variable [DecidableEq H]

/-- The header for what was synced. The epoch's start is the clock for a new epoch, the
    zero time for an append. -/
def headerOf (now : Time) (item : UpdateQueueItem H K) (plan : Plan H) (tree : Blob.SectorHashes H)
    (u : SyncUpdate H G) : Header H G where
  name := item.name
  epochHeight := item.epochHeight
  sectorSize := item.sectorSize
  sectorTipHash := tip tree
  signature := u.signature
  reservedRoot := u.reservedRoot
  epochStartAt := if plan.epochUpdated then now else zeroTime

omit [Zero H] [DecidableEq H] in
/-- The announcement of a stored update, unless the name was imported too recently. -/
def gossipOf (db : DB H K G) (item : UpdateQueueItem H K) : List Update :=
  if db.lastNameImportHeight - item.height < 10 then [] else [⟨item.name, item.epochHeight, item.sectorSize⟩]

/-- `UpdateBlob` with the name locked, up to the deferred `Unlock`. -/
def apply (now : Time) (item : UpdateQueueItem H K) (plan : Plan H) (msgs : List (BlobRes H G)) (s : Shared H K G) :
    Except (Fault UpdaterErr) (Processed H G) × Shared H K G :=
  let b := s.blobs item.name
  match openTx P now item plan with
  | .error e => (.error (.err e), s)
  | .ok tx =>
    match syncSectors P now (plan.opts item.name) b ⟨s.db, tx, []⟩ msgs with
    | (.error .panic, y) => (.error .panic, { s with db := y.db })
    | (.error (.err e), y) => (.error (.err (.sync e)), { s with db := y.db })
    | (.ok sectorMeta, y) =>
      match serialHash P b y.tx 0 item.sectorSize with
      | (.error .panic, _) => (.error .panic, { s with db := y.db })
      | (.error (.err e), _) => (.error (.err (.hash e)), { s with db := y.db })
      | (.ok tree, tx) =>
        match sectorMeta with
        -- the sync timed out: `sectorMeta` is nil
        | none => (.error .panic, { s with db := y.db })
        | some u =>
          -- the error returned for a mismatch wraps nil, which is nil
          if u.sectorTipHash ≠ tip tree then (.ok ⟨none, y.gossip⟩, { s with db := y.db })
          else
            let header := headerOf now item plan tree u
            match y.db.setHeaderTx header tree with
            | .error f => (.error f, { s with db := y.db })
            | .ok db =>
              let blobs := match tx.commit b with
                | .error _ => s.blobs
                | .ok (b, _) => Function.update s.blobs item.name b
              (.ok ⟨some header, y.gossip ++ gossipOf db item⟩, { s with db := db, blobs := blobs })

/-- `apply`, then the deferred `Unlock`. -/
def finish (now : Time) (item : UpdateQueueItem H K) (plan : Plan H) (msgs : List (BlobRes H G)) (s : Shared H K G) :
    Except (Fault UpdaterErr) (Processed H G) × Shared H K G :=
  let (r, s) := apply P now item plan msgs s
  match s.locks.unlock item.name with
  | none => (.error .panic, s)
  | some locks => (r, { s with locks := locks })

def updateBlob (now : Time) (item : UpdateQueueItem H K) (msgs : List (BlobRes H G)) (s : Shared H K G) :
    Except (Fault UpdaterErr) (Processed H G) × Shared H K G :=
  match check P now s.db item with
  | .error f => (.error f, s)
  | .ok plan =>
    match s.locks.tryLock item.name with
    | none => (.error (.err .nameLocked), s)
    | some locks => finish P now item plan msgs { s with locks := locks }

omit [Zero H] [DecidableEq H] in
/-- After the two writes the last import height is read, for the gossip. -/
def readImportHeight (db : DB H K G) : Except (Fault UpdaterErr) (Processed H G) → Except (Fault UpdaterErr) (Processed H G)
  | .error f => .error f
  | .ok p =>
    match p.stored with
    | none => .ok p
    | some _ =>
      match db.getLastNameImportHeight with
      | .error f => .error f
      | .ok _ => .ok p

/-- `UpdateBlob` to its end. -/
def updateBlobToEnd (now : Time) (item : UpdateQueueItem H K) (msgs : List (BlobRes H G)) (s : Shared H K G) :
    Except (Fault UpdaterErr) (Processed H G) × Shared H K G :=
  let (r, s) := updateBlob P now item msgs s
  (readImportHeight s.db r, s)

/-! ## What a run can do -/

section

variable {P} {now : Time} {item : UpdateQueueItem H K} {plan : Plan H} {db : DB H K G}

omit [Zero H] [DecidableEq H] in
theorem checkRollover_ok {header : Header H G} {bannedAt : Time} (h : checkRollover P now header bannedAt item = .ok ()) :
    (bannedAt ≠ zeroTime → bannedAt + week ≤ now ∧ header.epochHeight + 1 < item.epochHeight) ∧
    (now < header.epochStartAt + week → currentEpoch P now item.name + 1 ≤ item.epochHeight) ∧
    item.epochHeight ≤ currentEpoch P now item.name + 1 := by
  unfold checkRollover at h
  split at h
  · cases h
  rename_i h1
  split at h
  · cases h
  rename_i h2
  split at h
  · cases h
  rename_i h3
  split at h
  · cases h
  rename_i h4
  exact ⟨fun hb => ⟨Int.not_lt.mp fun hlt => h1 ⟨hb, hlt⟩, UInt16.not_le.mp fun hle => h2 ⟨hb, hle⟩⟩,
    fun hlt => UInt16.not_lt.mp fun hc => h3 ⟨hlt, hc⟩, UInt16.not_lt.mp h4⟩

omit [DecidableEq H] in
/-- An admitted item is the first for its name, an append to the stored epoch, or a
    rollover to a later one. -/
theorem check_cases (h : check P now db item = .ok plan) :
    (db.headers item.name = none ∧ plan = ⟨0, 0, 0, true⟩) ∨
    (∃ header, db.headers item.name = some header ∧ header.epochHeight = item.epochHeight ∧
      header.sectorSize < item.sectorSize ∧
      plan = ⟨header.epochHeight, header.sectorSize, header.sectorTipHash, false⟩) ∨
    (∃ header bannedAt, db.headers item.name = some header ∧ header.epochHeight < item.epochHeight ∧
      db.getHeaderBan (ε := UpdaterErr) item.name = .ok bannedAt ∧ checkRollover P now header bannedAt item = .ok () ∧
      plan = ⟨item.epochHeight, 0, 0, true⟩) := by
  cases hh : db.headers item.name with
  | none =>
    simp only [check, hh, Option.any_none, Plan.ofHeader] at h
    split at h
    · rename_i hc; cases hc
    · split at h
      · cases h
      · split at h
        · cases h
        · cases h; exact .inl ⟨rfl, rfl⟩
  | some header =>
    simp only [check, hh, Option.any_some, Plan.ofHeader, Bool.and_eq_true, beq_iff_eq, decide_eq_true_eq] at h
    split at h
    · cases h
    rename_i hsync
    split at h
    · cases h
    rename_i hback
    split at h
    · cases h
    rename_i bannedAt hban
    split at h
    · rename_i hup
      split at h
      · cases h
      · rename_i hroll
        cases h
        exact .inr (.inr ⟨header, bannedAt, rfl, hup, hban, hroll, rfl⟩)
    · rename_i hup
      cases h
      have he : header.epochHeight = item.epochHeight :=
        UInt16.le_antisymm (UInt16.not_lt.mp hback) (UInt16.not_lt.mp hup)
      exact .inr (.inl ⟨header, rfl, he, UInt16.not_le.mp fun hle => hsync ⟨he, hle⟩, rfl⟩)

omit [DecidableEq H] in
theorem check_ban (h : check P now db item = .ok plan) :
    ∃ bannedAt, db.getHeaderBan (ε := UpdaterErr) item.name = .ok bannedAt := by
  cases hb : db.getHeaderBan (ε := UpdaterErr) item.name with
  | ok bannedAt => exact ⟨bannedAt, rfl⟩
  | error f =>
    unfold check at h
    simp only [hb] at h
    split at h
    · cases h
    · split at h <;> cases h

/-- The transaction of an admitted item, before the sync. -/
def startTx (item : UpdateQueueItem H K) (plan : Plan H) : Tx :=
  ⟨item.name, File.zero, plan.sectorSize, plan.epochUpdated, false, false⟩

omit [Zero H] [DecidableEq H] in
theorem openTx_eq (P : Prims H K G) (now : Time) (item : UpdateQueueItem H K) (plan : Plan H) :
    openTx P now item plan =
      if plan.epochUpdated = true ∧ plan.epochHeight > currentEpoch P now item.name + 1 then .error .aheadOfSchedule
      else if plan.sectorSize.toNat ≤ Blob.maxSectors then .ok (startTx item plan)
      else .error (.tx .seekBeyondBounds) := by
  have hseek (t : Tx) (ht : t.sectorSize = 0) := Tx.seek_start ht plan.sectorSize.toNat
  cases hu : plan.epochUpdated with
  | true =>
    simp only [openTx, hu, if_true, Tx.truncate, Tx.new, Bool.false_eq_true, if_false, true_and]
    rw [hseek _ rfl]
    by_cases hm : plan.sectorSize.toNat ≤ Blob.maxSectors <;> simp [hm, startTx, hu]
  | false =>
    simp only [openTx, hu, Bool.false_eq_true, if_false, Tx.new, false_and]
    rw [hseek _ rfl]
    by_cases hm : plan.sectorSize.toNat ≤ Blob.maxSectors <;> simp [hm, startTx, hu]

theorem writeSectors_live (b : File) : ∀ (payload : List Blob.Sector) {tx : Tx}, tx.Live → (writeSectors b tx payload).Live := by
  intro payload
  induction payload with
  | nil => intro tx h; exact h
  | cons x xs ih =>
    intro tx h
    obtain ⟨tx', hw, hl, -⟩ := h.writeSector b x
    simpa only [writeSectors, List.foldl_cons, hw] using ih hl

def synced (item : UpdateQueueItem H K) (plan : Plan H) (b : File) (payload : List Blob.Sector) : File :=
  (writeSectors b (startTx item plan) payload).view b

/-- The serial hashes of the item's sectors of it. -/
def syncedHashes (P : Prims H K G) (item : UpdateQueueItem H K) (plan : Plan H) (b : File) (payload : List Blob.Sector) :
    Blob.SectorHashes H :=
  Blob.hashesOf P ((synced item plan b payload).sectors item.sectorSize.toNat)

/-- What holds of the response `msg` when `apply` stores a header with it. -/
structure Stores (P : Prims H K G) (now : Time) (item : UpdateQueueItem H K) (plan : Plan H) (s : Shared H K G)
    (msg : BlobRes H G) : Prop where
  usable : Usable P s.db (plan.opts item.name) msg
  seek : plan.sectorSize.toNat ≤ Blob.maxSectors
  schedule : plan.epochUpdated = true → plan.epochHeight ≤ currentEpoch P now item.name + 1
  size : item.sectorSize.toNat ≤ Blob.maxSectors
  tip : tip (syncedHashes P item plan (s.blobs item.name) msg.payload) =
    HashChain.chain (Blob.serialHashSector P) msg.prevHash msg.payload
  count : s.db.TakesHeader item.name

/-- The header stored with `msg`. -/
def storedHeader (P : Prims H K G) (now : Time) (item : UpdateQueueItem H K) (plan : Plan H) (s : Shared H K G)
    (msg : BlobRes H G) : Header H G :=
  headerOf now item plan (syncedHashes P item plan (s.blobs item.name) msg.payload) (updateOf P msg)

/-- The two writes with `msg`: header and sector hashes, then the blob. -/
def store (P : Prims H K G) (now : Time) (item : UpdateQueueItem H K) (plan : Plan H) (s : Shared H K G)
    (msg : BlobRes H G) : Shared H K G :=
  { s with
    db := s.db.setHeader (storedHeader P now item plan s msg) (syncedHashes P item plan (s.blobs item.name) msg.payload)
    blobs := Function.update s.blobs item.name (synced item plan (s.blobs item.name) msg.payload) }

/-- The response that decides the sync of an admitted item. -/
def decidingRes (P : Prims H K G) (now : Time) (item : UpdateQueueItem H K) (plan : Plan H) (s : Shared H K G)
    (msgs : List (BlobRes H G)) : Option (BlobRes H G) :=
  deciding P now (plan.opts item.name) (s.blobs item.name) ⟨s.db, startTx item plan, []⟩ msgs

section

variable {s : Shared H K G} {msgs : List (BlobRes H G)}

omit [Zero H] [DecidableEq H] in
theorem startTx_live (item : UpdateQueueItem H K) (plan : Plan H) : (startTx item plan).Live := ⟨rfl, rfl⟩

omit [DecidableEq H] in
theorem serialHash_synced (P : Prims H K G) (item : UpdateQueueItem H K) (plan : Plan H) (b : File)
    (payload : List Blob.Sector) :
    ∃ tx, serialHash P b (writeSectors b (startTx item plan) payload) 0 item.sectorSize =
        (if item.sectorSize.toNat ≤ Blob.maxSectors then .ok (syncedHashes P item plan b payload)
          else .error (.err .eof), tx) ∧
      ∃ tx', tx.commit b = .ok (synced item plan b payload, tx') := by
  have hl := writeSectors_live b payload (startTx_live item plan)
  refine ⟨_, Blob.serialHash_eq P hl b item.sectorSize, ?_⟩
  by_cases h0 : item.sectorSize.toNat = 0
  · exact ⟨_, by simp only [h0, if_true, Tx.commit, hl.1, hl.2, Bool.false_eq_true, if_false]; rfl⟩
  · refine ⟨{ (writeSectors b (startTx item plan) payload).lazyInitialize b with closed := true }, ?_⟩
    simp only [h0, if_false, Tx.commit, Tx.lazyInitialize_closed, hl.1, Tx.lazyInitialize_removed, hl.2,
      Bool.false_eq_true, Tx.view_lazyInitialize]
    rfl

theorem apply_stores {msg : BlobRes H G} (h : Stores P now item plan s msg)
    (hsync : syncSectors P now (plan.opts item.name) (s.blobs item.name) ⟨s.db, startTx item plan, []⟩ msgs =
      (.ok (some (updateOf P msg)),
        ⟨s.db, writeSectors (s.blobs item.name) (startTx item plan) msg.payload, []⟩)) :
    apply P now item plan msgs s =
      (.ok ⟨some (storedHeader P now item plan s msg), gossipOf (store P now item plan s msg).db item⟩,
        store P now item plan s msg) := by
  have hopen : openTx P now item plan = .ok (startTx item plan) := by
    rw [openTx_eq, if_neg (fun hc => absurd (h.schedule hc.1) (UInt16.not_le.mpr hc.2)), if_pos h.seek]
  obtain ⟨tx, hhash, tx', hcommit⟩ := serialHash_synced P item plan (s.blobs item.name) msg.payload
  rw [if_pos h.size] at hhash
  have htip : (updateOf P msg).sectorTipHash = tip (syncedHashes P item plan (s.blobs item.name) msg.payload) :=
    h.tip.symm
  have hcount : s.db.TakesHeader (headerOf now item plan (syncedHashes P item plan (s.blobs item.name) msg.payload)
      (updateOf P msg)).name := h.count
  simp only [apply, hopen, hsync, hhash, htip, ne_eq, not_true_eq_false, if_false, DB.setHeaderTx_ok hcount, hcommit,
    List.nil_append]
  rfl

omit [Zero H] [DecidableEq H] in
theorem readImportHeight_ok {db : DB H K G} (h : DB.Decodes db.lastNameImportHeight) (p : Processed H G) :
    readImportHeight db (.ok p) = .ok p := by
  cases hp : p.stored with
  | none => simp only [readImportHeight, hp]
  | some header => simp only [readImportHeight, hp, DB.getLastNameImportHeight, if_pos h]

theorem updateBlobToEnd_stored {header : Header H G} {gossip : List Update} {s' : Shared H K G}
    (h : updateBlob P now item msgs s = (.ok ⟨some header, gossip⟩, s')) :
    updateBlobToEnd P now item msgs s =
      if DB.Decodes s'.db.lastNameImportHeight then (.ok ⟨some header, gossip⟩, s') else (.error .panic, s') := by
  by_cases hdec : DB.Decodes s'.db.lastNameImportHeight
  · simp only [updateBlobToEnd, h, readImportHeight_ok hdec, if_pos hdec]
  · simp only [updateBlobToEnd, h, readImportHeight, DB.getLastNameImportHeight, if_neg hdec]

/-- `apply` stores a header with the deciding response, or changes at most a ban. -/
theorem apply_cases (P : Prims H K G) (now : Time) (item : UpdateQueueItem H K) (plan : Plan H)
    (msgs : List (BlobRes H G)) (s : Shared H K G) :
    (∃ msg ∈ msgs, decidingRes P now item plan s msgs = some msg ∧ Stores P now item plan s msg ∧
      apply P now item plan msgs s =
        (.ok ⟨some (storedHeader P now item plan s msg), gossipOf (store P now item plan s msg).db item⟩,
          store P now item plan s msg)) ∨
    (∃ r db, apply P now item plan msgs s = (r, { s with db := db }) ∧ storedIn r = none ∧
      BanStep now item.name s.db db) := by
  have hopen := openTx_eq P now item plan
  by_cases hsched : plan.epochUpdated = true ∧ plan.epochHeight > currentEpoch P now item.name + 1
  · rw [if_pos hsched] at hopen
    exact .inr ⟨.error (.err .aheadOfSchedule), s.db, by simp only [apply, hopen], rfl, .inl rfl⟩
  rw [if_neg hsched] at hopen
  by_cases hseek : ¬ plan.sectorSize.toNat ≤ Blob.maxSectors
  · rw [if_neg hseek] at hopen
    exact .inr ⟨.error (.err (.tx .seekBeyondBounds)), s.db, by simp only [apply, hopen], rfl, .inl rfl⟩
  rw [if_pos (Decidable.not_not.mp hseek)] at hopen
  rcases syncSectors_cases P now (plan.opts item.name) (s.blobs item.name) ⟨s.db, startTx item plan, []⟩ msgs with
    ⟨msg, hmem, hdec, hu, hsync⟩ | ⟨r, y, hsync, hnone, hban⟩
  · obtain ⟨tx, hhash, tx', hcommit⟩ := serialHash_synced P item plan (s.blobs item.name) msg.payload
    by_cases hsize : ¬ item.sectorSize.toNat ≤ Blob.maxSectors
    · rw [if_neg hsize] at hhash
      exact .inr ⟨.error (.err (.hash .eof)), s.db, by simp only [apply, hopen, hsync, hhash], rfl, .inl rfl⟩
    rw [if_pos (Decidable.not_not.mp hsize)] at hhash
    by_cases htip : (updateOf P msg).sectorTipHash = tip (syncedHashes P item plan (s.blobs item.name) msg.payload)
    · by_cases hcount : s.db.TakesHeader item.name
      · have hst : Stores P now item plan s msg :=
          ⟨hu, Decidable.not_not.mp hseek, fun hc => UInt16.not_lt.mp fun hlt => hsched ⟨hc, hlt⟩,
            Decidable.not_not.mp hsize, htip.symm, hcount⟩
        exact .inl ⟨msg, hmem, hdec, hst, apply_stores hst hsync⟩
      · have hpanic : ¬ s.db.TakesHeader (headerOf now item plan (syncedHashes P item plan (s.blobs item.name) msg.payload)
            (updateOf P msg)).name := hcount
        refine .inr ⟨.error .panic, s.db, ?_, rfl, .inl rfl⟩
        simp only [apply, hopen, hsync, hhash, htip, ne_eq, not_true_eq_false, if_false, DB.setHeaderTx_panic hpanic]
    · refine .inr ⟨.ok ⟨none, []⟩, s.db, ?_, rfl, .inl rfl⟩
      simp only [apply, hopen, hsync, hhash, ne_eq, htip, not_false_eq_true, if_true]
  · right
    rcases r with (e | _) | u
    · exact ⟨.error (.err (.sync e)), y.db, by simp only [apply, hopen, hsync], rfl, hban⟩
    · exact ⟨.error .panic, y.db, by simp only [apply, hopen, hsync], rfl, hban⟩
    · cases u with
      | some u => exact absurd rfl (hnone u)
      | none =>
        -- a timeout: the rehash fails, or the nil update is dereferenced
        rcases hh : serialHash P (s.blobs item.name) y.tx 0 item.sectorSize with ⟨(e | _) | tree, tx⟩
        · exact ⟨.error (.err (.hash e)), y.db, by simp only [apply, hopen, hsync, hh], rfl, hban⟩
        · exact ⟨.error .panic, y.db, by simp only [apply, hopen, hsync, hh], rfl, hban⟩
        · exact ⟨.error .panic, y.db, by simp only [apply, hopen, hsync, hh], rfl, hban⟩

/-- An equivocation decides the sync: nothing is stored, and it is recorded if no proof is
    stored yet. -/
theorem apply_equivocates (hopen : openTx P now item plan = .ok (startTx item plan)) {msg : BlobRes H G}
    (hd : decidingRes P now item plan s msgs = some msg) (he : Equivocates P s.db (plan.opts item.name) msg)
    {header : Header H G} (hh : s.db.headers item.name = some header) :
    apply P now item plan msgs s = (.error (.err (.sync .payloadEquivocation)),
      { s with db := if (s.db.equivocationProofs item.name).isSome then s.db else banWith now s.db msg header }) := by
  have hname : msg.name = item.name := he.name
  have hrec := receive_equivocates now (s.blobs item.name) (s := ⟨s.db, startTx item plan, []⟩) he (hname ▸ hh)
  have hsync := syncSectors_deciding P now (plan.opts item.name) (s.blobs item.name) ⟨s.db, startTx item plan, []⟩ msgs
  unfold decidingRes at hd
  simp only [hd, syncSectors, hrec] at hsync
  simp only [apply, hopen, hsync, hname]
  split <;> rfl

/-- `apply` leaves the stored proofs as they were, or records an equivocation. -/
theorem apply_proofs (P : Prims H K G) (now : Time) (item : UpdateQueueItem H K) (plan : Plan H)
    (msgs : List (BlobRes H G)) (s : Shared H K G) :
    (apply P now item plan msgs s).2.db.equivocationProofs = s.db.equivocationProofs ∨
    ∃ msg header, decidingRes P now item plan s msgs = some msg ∧ Equivocates P s.db (plan.opts item.name) msg ∧
      s.db.equivocationProofs item.name = none ∧ s.db.headers item.name = some header ∧
      (apply P now item plan msgs s).2.db = banWith now s.db msg header := by
  cases hopen : openTx P now item plan with
  | error e => exact .inl (by simp only [apply, hopen])
  | ok tx =>
    obtain rfl : tx = startTx item plan := by
      rw [openTx_eq] at hopen
      split at hopen
      · cases hopen
      · split at hopen <;> cases hopen
        rfl
    rcases syncSectors_db P now (plan.opts item.name) (s.blobs item.name) ⟨s.db, startTx item plan, []⟩ msgs with
      hdb | ⟨msg, header, hd, he, hnone, hh⟩
    · left
      simp only [apply, hopen]
      split
      · rename_i y hy; rw [hy] at hdb; exact congrArg _ hdb
      · rename_i y hy; rw [hy] at hdb; exact congrArg _ hdb
      · rename_i u y hy
        rw [hy] at hdb
        have hdb : y.db = s.db := hdb
        split
        · rw [hdb]
        · rw [hdb]
        · split
          · rw [hdb]
          · split
            · rw [hdb]
            · split
              · rw [hdb]
              · rename_i db hset
                rw [hdb, DB.setHeaderTx_eq] at hset
                split at hset
                · rw [← Except.ok.inj hset]
                  rfl
                · cases hset
    · have hname : msg.name = item.name := he.name
      rw [hname] at hnone hh
      refine .inr ⟨msg, header, hd, he, hnone, hh, ?_⟩
      rw [apply_equivocates hopen hd he hh, hnone]
      rfl

theorem apply_locks (P : Prims H K G) (now : Time) (item : UpdateQueueItem H K) (plan : Plan H)
    (msgs : List (BlobRes H G)) (s : Shared H K G) : (apply P now item plan msgs s).2.locks = s.locks := by
  rcases apply_cases P now item plan msgs s with ⟨msg, -, -, -, h⟩ | ⟨r, db, h, -⟩
  · rw [h]; rfl
  · rw [h]

theorem finish_eq (P : Prims H K G) (now : Time) (item : UpdateQueueItem H K) (plan : Plan H)
    (msgs : List (BlobRes H G)) {s : Shared H K G} (h : (s.locks item.name).writers = 1) :
    finish P now item plan msgs s =
      ((apply P now item plan msgs s).1,
        { (apply P now item plan msgs s).2 with locks := Function.update s.locks item.name ⟨0, 0⟩ }) := by
  simp only [finish, apply_locks, MultiLocker.unlock_held h]

theorem apply_setLocks (P : Prims H K G) (now : Time) (item : UpdateQueueItem H K) (plan : Plan H)
    (msgs : List (BlobRes H G)) (s : Shared H K G) (locks : MultiLocker Name) :
    apply P now item plan msgs { s with locks := locks } =
      ((apply P now item plan msgs s).1, { (apply P now item plan msgs s).2 with locks := locks }) := by
  simp only [apply]
  split
  · rfl
  split
  · rfl
  · rfl
  split
  · rfl
  · rfl
  split
  · rfl
  split
  · rfl
  split <;> rfl

theorem updateBlob_eq (msgs : List (BlobRes H G)) (ha : check P now s.db item = .ok plan) (hfree : s.locks item.name = ⟨0, 0⟩) :
    updateBlob P now item msgs s = apply P now item plan msgs s := by
  have hlock : s.locks.tryLock item.name = some (Function.update s.locks item.name ⟨0, 1⟩) :=
    MultiLocker.tryLock_eq_some.mpr ⟨hfree, rfl⟩
  have hback : Function.update (Function.update s.locks item.name ⟨0, 1⟩) item.name ⟨0, 0⟩ = s.locks := by
    rw [Function.update_idem, ← hfree, Function.update_eq_self]
  have hl := apply_locks P now item plan msgs s
  simp only [updateBlob, ha, hlock]
  rw [finish_eq P now item plan msgs (by simp), apply_setLocks, hback, ← hl]

/-- A run stores a header, with an item that was admitted and the deciding response, or
    changes at most a ban. -/
theorem updateBlob_cases (P : Prims H K G) (now : Time) (item : UpdateQueueItem H K) (msgs : List (BlobRes H G))
    (s : Shared H K G) :
    (∃ plan, ∃ msg ∈ msgs, check P now s.db item = .ok plan ∧ decidingRes P now item plan s msgs = some msg ∧
      Stores P now item plan s msg ∧
      ∃ gossip, updateBlob P now item msgs s =
        (.ok ⟨some (storedHeader P now item plan s msg), gossip⟩, store P now item plan s msg)) ∨
    (∃ r db, updateBlob P now item msgs s = (r, { s with db := db }) ∧ storedIn r = none ∧
      BanStep now item.name s.db db) := by
  cases ha : check P now s.db item with
  | error f => exact .inr ⟨.error f, s.db, by simp only [updateBlob, ha], rfl, .inl rfl⟩
  | ok plan =>
    cases hl : s.locks.tryLock item.name with
    | none => exact .inr ⟨.error (.err .nameLocked), s.db, by simp only [updateBlob, ha, hl], rfl, .inl rfl⟩
    | some locks =>
      have heq := updateBlob_eq msgs ha (MultiLocker.tryLock_eq_some.mp hl).1
      rcases apply_cases P now item plan msgs s with ⟨msg, hmem, hdec, hst, h⟩ | ⟨r, db, h, hnone, hban⟩
      · exact .inl ⟨plan, msg, hmem, rfl, hdec, hst, _, heq.trans h⟩
      · exact .inr ⟨r, db, heq.trans h, hnone, hban⟩

end

end

end Fnd.Protocol

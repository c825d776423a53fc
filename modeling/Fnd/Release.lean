/-
  Fnd.Release — one node, while a version of a name is on its way through the network.

  A `Release` is what the publisher of a name signed last: an epoch and sectors. A node in order
  (`Tracks`) has nothing for the name, an older epoch, a part of the release or all of it
  (`Stored`); what its queue and workers have for the name is the release; and a worker past the
  checks has a plan that continues what is stored.

  A node stays in order, and once it has the release it keeps it (`Tracks.step`), whatever happens
  to other names, however announcements, answers and the workers' steps interleave, several workers
  on the name included, and whatever peers answer that does not verify under the name's key. A panic
  takes the process down, as that of a sync nobody answers; what is stored is still in order.

  Not allowed (`Allowed`) is what would break it:
  - an announcement of another version: it is not signed, and is stored with the signature of
    this one (`Fnd.Authentic`);
  - a request for the name to a node that has only a part: it caches that for the time after
    (`Fnd.Serving`);
  - equivocation proofs and checkouts for the name.
-/

import Fnd.Node
import Fnd.Sync

namespace Fnd

open Blob (File Sector Tx tip hashesOf serialHashSector sealHash maxSectors NoZeroHash)
open HashChain (chain)
open Node (State Event Worker Inv)
open Protocol
open Store (DB Header)
open Util (MultiLocker Cache)
open Wire (BlobRes BlobReq Update)

structure Release (K : Type) where
  name : Name
  key : K
  epochHeight : UInt16
  sectors : List Sector
  valid : validateName name = .ok ()
  pos : 1 ≤ sectors.length
  fits : sectors.length ≤ maxSectors

structure SameName {H K G : Type} (name : Name) (s s' : Shared H K G) : Prop where
  imported : s'.db.initialImportComplete = s.db.initialImportComplete
  headers : s'.db.headers name = s.db.headers name
  sectorHashes : s'.db.sectorHashes name = s.db.sectorHashes name
  headerBans : s'.db.headerBans name = s.db.headerBans name
  nameInfo : s'.db.nameInfo name = s.db.nameInfo name
  nameBans : s'.db.nameBans name = s.db.nameBans name
  blob : s'.blobs name = s.blobs name

namespace SameName

variable {H K G : Type} {name : Name} {s s' : Shared H K G}

theorem refl (s : Shared H K G) : SameName name s s := ⟨rfl, rfl, rfl, rfl, rfl, rfl, rfl⟩

theorem of_eq (hdb : s'.db = s.db) (hblobs : s'.blobs = s.blobs) : SameName name s s' := by
  constructor <;> simp only [hdb, hblobs]

theorem ban {now : Time} {other : Name} (hne : name ≠ other) (hdb : BanStep now other s.db s'.db) (hblobs : s'.blobs = s.blobs) :
    SameName name s s' := by
  rcases hdb with hdb | ⟨proof, hdb⟩
  · exact of_eq hdb hblobs
  · constructor <;> simp only [hdb, hblobs, DB.setEquivocationProof, DB.setHeaderBan]
    exact Function.update_of_ne hne _ _

theorem setHeader {header : Header H G} {hashes : Blob.SectorHashes H} {f : File} (hne : name ≠ header.name)
    (hdb : s'.db = s.db.setHeader header hashes) (hblobs : s'.blobs = Function.update s.blobs header.name f) :
    SameName name s s' := by
  constructor <;> simp only [hdb, hblobs, DB.setHeader]
  · exact Function.update_of_ne hne _ _
  · exact Function.update_of_ne hne _ _
  · exact Function.update_of_ne hne _ _

end SameName

namespace Release

variable {H K G : Type}

def size (r : Release K) : UInt16 := UInt16.ofNat r.sectors.length

theorem size_toNat (r : Release K) : r.size.toNat = r.sectors.length :=
  UInt16.toNat_ofNat_of_lt' (Nat.lt_of_le_of_lt r.fits (by decide))

theorem size_ne_zero (r : Release K) : r.size ≠ 0 := by
  intro h
  have hpos := r.pos
  have hsize := r.size_toNat
  rw [h] at hsize
  exact absurd hsize (by simp only [UInt16.toNat_zero]; omega)

def announcement (r : Release K) : Update := ⟨r.name, r.epochHeight, r.size⟩

variable [Zero H] (P : Prims H K G) (r : Release K)

/-- The hash before sector `k`. -/
def hashAt (k : Nat) : H := chain (serialHashSector P) 0 (r.sectors.take k)

def Signed (sig : G) : Prop :=
  P.verifySigPub r.key sig (sealHash P r.name r.epochHeight r.size (chain (serialHashSector P) 0 r.sectors) 0) = true

/-- The answer to a request from sector `k` on. -/
def answer (k : UInt16) (sig : G) : BlobRes H G :=
  ⟨r.name, r.epochHeight, k, r.hashAt P k.toNat, 0, r.sectors.drop k.toNat, sig⟩

omit [Zero H] in
def Verifies (m : BlobRes H G) : Prop :=
  P.verifySigPub r.key m.signature (sealHash P m.name m.epochHeight (endSize m.payloadPosition m.payload)
    (chain (serialHashSector P) m.prevHash m.payload) m.reservedRoot) = true

/-- A response for the name that verifies is an answer, or starts behind the release. -/
def Harmless (m : BlobRes H G) : Prop :=
  m.name = r.name → r.Verifies P m →
    r.size ≤ m.payloadPosition ∨ ∃ sig, r.Signed P sig ∧ m = r.answer P m.payloadPosition sig

/-! ## What is stored -/

variable [DecidableEq H]

/-- The whole release, under this header. -/
structure Whole (s : Shared H K G) (header : Header H G) : Prop where
  found : s.db.headers r.name = some header
  epoch : header.epochHeight = r.epochHeight
  size : header.sectorSize = r.size
  sectors : (s.blobs r.name).sectors r.sectors.length = r.sectors
  hashes : s.db.sectorHashes r.name = some (hashesOf P r.sectors)
  tip : header.sectorTipHash = tip (hashesOf P r.sectors)
  root : header.reservedRoot = 0
  signed : r.Signed P header.signature

def Has (s : Shared H K G) : Prop := ∃ header, r.Whole P s header

/-- `T` are the times the run takes place at: an older epoch may be left at any of them. -/
inductive Stored (T : Time → Prop) (s : Shared H K G) : Prop
  | nothing (hnone : s.db.headers r.name = none)
  | older (header : Header H G) (hfound : s.db.headers r.name = some header) (hepoch : header.epochHeight < r.epochHeight)
      (hroll : ∀ now, T now → ∀ item : UpdateQueueItem H K, item.name = r.name → item.epochHeight = r.epochHeight →
        checkRollover P now header zeroTime item = .ok ())
  | part (header : Header H G) (hfound : s.db.headers r.name = some header) (hepoch : header.epochHeight = r.epochHeight)
      (hsize : header.sectorSize.toNat < r.sectors.length)
      (hsectors : (s.blobs r.name).sectors header.sectorSize.toNat = r.sectors.take header.sectorSize.toNat)
      (htip : header.sectorTipHash = r.hashAt P header.sectorSize.toNat)
  | whole (h : r.Has P s)

structure Rows (T : Time → Prop) (s : Shared H K G) : Prop where
  imported : s.db.initialImportComplete = true
  info : ∃ info, s.db.nameInfo r.name = some info ∧ info.publicKey = r.key
  nameBan : s.db.nameBans r.name = false
  headerBan : s.db.headerBans r.name = none
  stored : r.Stored P T s

variable {P r} {T : Time → Prop} {s s' : Shared H K G}

theorem Has.same (h : r.Has P s) (hs : SameName r.name s s') : r.Has P s' := by
  obtain ⟨header, h⟩ := h
  exact ⟨header, hs.headers.trans h.found, h.epoch, h.size, by rw [hs.blob]; exact h.sectors, hs.sectorHashes.trans h.hashes,
    h.tip, h.root, h.signed⟩

theorem Has.takesHeader (h : r.Has P s) : s.db.TakesHeader r.name := by
  obtain ⟨header, h⟩ := h
  exact .inl (by rw [h.found]; rfl)

theorem Rows.same (h : r.Rows P T s) (hs : SameName r.name s s') : r.Rows P T s' := by
  refine ⟨hs.imported.trans h.imported, hs.nameInfo ▸ h.info, hs.nameBans.trans h.nameBan, hs.headerBans.trans h.headerBan, ?_⟩
  cases h.stored with
  | nothing hnone => exact .nothing (hs.headers.trans hnone)
  | older header hfound hepoch hroll => exact .older header (hs.headers.trans hfound) hepoch hroll
  | part header hfound hepoch hsize hsectors htip =>
    exact .part header (hs.headers.trans hfound) hepoch hsize (by rw [hs.blob]; exact hsectors) htip
  | whole hhas => exact .whole (hhas.same hs)

/-! ## Plans and answers -/

variable (P r) in
/-- A plan that goes on from what the blob has of the release. -/
structure Continued (s : Shared H K G) (plan : Plan H) : Prop where
  size : plan.sectorSize.toNat < r.sectors.length
  epoch : plan.epochHeight ≤ r.epochHeight
  prevHash : plan.prevHash = r.hashAt P plan.sectorSize.toNat
  kept : kept plan (s.blobs r.name) = r.sectors.take plan.sectorSize.toNat

omit [Zero H] [DecidableEq H] in
variable (r) in
/-- An item for the name is for the release. -/
def Asks (item : UpdateQueueItem H K) : Prop :=
  item.name = r.name → item.epochHeight = r.epochHeight ∧ item.sectorSize = r.size

variable {plan : Plan H} {item : UpdateQueueItem H K} {now : Time}

omit [DecidableEq H] in
theorem Continued.same (h : r.Continued P s plan) (hblob : s'.blobs r.name = s.blobs r.name) : r.Continued P s' plan :=
  ⟨h.size, h.epoch, h.prevHash, by rw [hblob]; exact h.kept⟩

theorem Continued.has (h : r.Continued P s plan) (hhas : r.Has P s') : r.Continued P s' plan := by
  obtain ⟨header, hwhole⟩ := hhas
  refine ⟨h.size, h.epoch, h.prevHash, ?_⟩
  have hk := h.kept
  unfold Protocol.kept at hk ⊢
  split at hk
  · rw [if_pos ‹_›]
    exact hk
  · rw [if_neg ‹_›, ← hwhole.sectors, File.take_sectors _ (Nat.le_of_lt h.size)]

theorem continued_of_check (h : r.Rows P T s) (hname : item.name = r.name) (hasks : r.Asks item)
    (hc : check P now s.db item = .ok plan) : r.Continued P s plan := by
  obtain ⟨hepoch, hsize⟩ := hasks hname
  have hpos := r.pos
  have hnew (e : UInt16) (he : e ≤ r.epochHeight) : r.Continued P s ⟨e, 0, 0, true⟩ := ⟨hpos, he, rfl, rfl⟩
  have hcases := check_cases hc
  rw [hname, hepoch, hsize] at hcases
  rcases hcases with ⟨-, rfl⟩ | ⟨header, hfound, heq, hlt, rfl⟩ | ⟨header, bannedAt, hfound, hlt, -, -, rfl⟩
  · exact hnew 0 (UInt16.zero_le)
  · cases h.stored with
    | nothing hnone => cases hnone.symm.trans hfound
    | older _ hfound' hlt' =>
      cases hfound'.symm.trans hfound
      exact absurd (heq ▸ hlt') (UInt16.lt_irrefl _)
    | part _ hfound' _ hsize' hsectors htip =>
      cases hfound'.symm.trans hfound
      exact ⟨hsize', UInt16.le_of_eq heq, htip, hsectors⟩
    | whole hhas =>
      obtain ⟨_, hwhole⟩ := hhas
      cases hwhole.found.symm.trans hfound
      exact absurd (hwhole.size ▸ hlt) (UInt16.lt_irrefl _)
  · exact hnew _ (UInt16.le_refl _)

theorem check_admits (h : r.Rows P T s) (hT : T now) (hnot : ¬ r.Has P s) (hname : item.name = r.name) (hasks : r.Asks item) :
    ∃ plan, check P now s.db item = .ok plan ∧
      (plan.epochUpdated = true → plan.epochHeight ≤ currentEpoch P now item.name + 1) := by
  obtain ⟨hepoch, hsize⟩ := hasks hname
  have hnoban : s.db.getHeaderBan (ε := UpdaterErr) r.name = .ok zeroTime := by simp only [DB.getHeaderBan, h.headerBan]
  cases h.stored with
  | nothing hnone => exact ⟨⟨0, 0, 0, true⟩, by simp [check, hname, hnone, hnoban, Plan.ofHeader], fun _ => UInt16.zero_le⟩
  | older header hfound hlt hroll =>
    have hok := hroll now hT item hname hepoch
    have hne : ¬ header.epochHeight = r.epochHeight := fun heq => absurd (heq ▸ hlt) (UInt16.lt_irrefl _)
    have hback : ¬ r.epochHeight < header.epochHeight := UInt16.not_lt.mpr (UInt16.le_of_lt hlt)
    refine ⟨⟨item.epochHeight, 0, 0, true⟩, ?_, fun _ => (checkRollover_ok hok).2.2⟩
    simp [check, hname, hfound, hnoban, Plan.ofHeader, hepoch, hne, hback, hlt, hok]
  | part header hfound heq hlt _ _ =>
    have hlt : ¬ header.sectorSize ≥ r.size := UInt16.not_le.mpr (UInt16.lt_iff_toNat_lt.mpr (by rw [size_toNat]; exact hlt))
    refine ⟨⟨header.epochHeight, header.sectorSize, header.sectorTipHash, false⟩, ?_, by simp⟩
    simp [check, hname, hfound, hnoban, Plan.ofHeader, hepoch, hsize, heq, hlt]
  | whole hhas => exact absurd hhas hnot

omit [DecidableEq H] in
theorem endSize_answer {k : UInt16} (hk : k.toNat < r.sectors.length) : endSize k (r.sectors.drop k.toNat) = r.size := by
  have hfits := r.fits
  have hmax : maxSectors < 65536 := by decide
  have hlen : k.toNat + (r.sectors.drop k.toNat).length = r.sectors.length := by rw [List.length_drop]; omega
  exact UInt16.toNat_inj.mp (by rw [endSize_toNat (by omega), hlen, size_toNat])

omit [DecidableEq H] in
theorem chain_answer (k : Nat) : chain (serialHashSector P) (r.hashAt P k) (r.sectors.drop k) =
    chain (serialHashSector P) 0 r.sectors := by
  rw [hashAt, ← HashChain.chain_append, List.take_append_drop]

theorem usable_answer (h : r.Rows P T s) (hc : r.Continued P s plan) {sig : G} (hsig : r.Signed P sig) :
    Usable P s.db (plan.opts r.name) (r.answer P plan.sectorSize sig) := by
  obtain ⟨info, hinfo, hkey⟩ := h.info
  have hend := endSize_answer hc.size
  have hsize : r.size.toNat ≤ maxSectors := by rw [size_toNat]; exact r.fits
  refine ⟨rfl, hc.epoch, rfl, by rw [answer, hend]; exact hsize, validateBlobUpdate_ok.mpr ⟨r.valid, h.nameBan, info, hinfo, ?_⟩,
    hc.prevHash⟩
  rw [answer, hend, chain_answer, hkey]
  exact hsig

/-- A harmless response that passes the signature check at the place of a plan is an answer. -/
theorem answer_of_valid (h : r.Rows P T s) (hc : r.Continued P s plan) {m : BlobRes H G} (hm : r.Harmless P m)
    (hname : m.name = r.name) (hpos : plan.sectorSize = m.payloadPosition)
    (hvalid : validateBlobUpdate P s.db m.name m.epochHeight (endSize m.payloadPosition m.payload)
      (chain (serialHashSector P) m.prevHash m.payload) m.reservedRoot m.signature = .ok ()) :
    ∃ sig, r.Signed P sig ∧ m = r.answer P plan.sectorSize sig := by
  obtain ⟨info, hinfo, hkey⟩ := h.info
  obtain ⟨-, -, info', hinfo', hsig⟩ := validateBlobUpdate_ok.mp hvalid
  rw [hname, hinfo] at hinfo'
  cases hinfo'
  rw [hkey] at hsig
  rw [hpos]
  refine (hm hname hsig).resolve_left fun hle => ?_
  have hlt := hc.size
  rw [← hpos, UInt16.le_iff_toNat_le, size_toNat] at hle
  omega

/-! ## A worker's sync -/

omit [Zero H] in
theorem deciding_mem {opts : SyncSectorsOpts H} {b : File} {y : Sync H K G} {msgs : List (BlobRes H G)} {m : BlobRes H G}
    (h : deciding P now opts b y msgs = some m) : m ∈ msgs := List.mem_of_find?_eq_some h

/-- Where no response is an equivocation, a call that stores nothing leaves the database. -/
theorem apply_db (now : Time) (s : Shared H K G) {msgs : List (BlobRes H G)}
    (hne : ∀ m ∈ msgs, ¬ Equivocates P s.db (plan.opts item.name) m)
    (hnone : storedIn (apply P now item plan msgs s).1 = none) : (apply P now item plan msgs s).2.db = s.db := by
  cases hopen : openTx P now item plan with
  | error e => simp only [apply, hopen]
  | ok tx =>
    have hdb : (syncSectors P now (plan.opts item.name) (s.blobs item.name) ⟨s.db, tx, []⟩ msgs).2.db = s.db := by
      rcases syncSectors_db P now (plan.opts item.name) (s.blobs item.name) ⟨s.db, tx, []⟩ msgs with hdb | ⟨m, -, hd, he, -⟩
      · exact hdb
      · exact absurd he (hne m (deciding_mem hd))
    simp only [apply, hopen] at hnone ⊢
    split <;> rename_i hy
    · rw [hy] at hdb; exact hdb
    · rw [hy] at hdb; exact hdb
    · rw [hy] at hdb hnone
      split
      · exact hdb
      · exact hdb
      · rename_i hh
        simp only [hh] at hnone
        split
        · exact hdb
        · split
          · exact hdb
          · rename_i htip
            simp only [if_neg htip] at hnone
            split at hnone
            · exact hdb
            · cases hnone

theorem has_store (now : Time) (h : r.Rows P T s) (hname : item.name = r.name) (hasks : r.Asks item) (hc : r.Continued P s plan)
    {sig : G} (hsig : r.Signed P sig) :
    r.Rows P T (store P now item plan s (r.answer P plan.sectorSize sig)) ∧
      r.Has P (store P now item plan s (r.answer P plan.sectorSize sig)) := by
  obtain ⟨hepoch, hsize⟩ := hasks hname
  have hfits := r.fits
  have hlt := hc.size
  have hlen : plan.sectorSize.toNat + (r.sectors.drop plan.sectorSize.toNat).length = r.sectors.length := by
    rw [List.length_drop]; omega
  have hsectors : (synced item plan (s.blobs r.name) (r.sectors.drop plan.sectorSize.toNat)).sectors r.sectors.length =
    r.sectors := by
    have h := sectors_synced item plan (s.blobs r.name) (r.sectors.drop plan.sectorSize.toNat) (by omega)
    rw [hlen, hc.kept, List.take_append_drop] at h
    exact h
  have hhashes : syncedHashes P item plan (s.blobs r.name) (r.sectors.drop plan.sectorSize.toNat) = hashesOf P r.sectors := by
    rw [syncedHashes, hsize, size_toNat, hsectors]
  have hwhole : r.Whole P (store P now item plan s (r.answer P plan.sectorSize sig))
      (storedHeader P now item plan s (r.answer P plan.sectorSize sig)) := by
    refine ⟨?_, hepoch, hsize, ?_, ?_, ?_, rfl, hsig⟩
    · rw [← hname]
      exact Function.update_self _ _ _
    · have hblob : (store P now item plan s (r.answer P plan.sectorSize sig)).blobs r.name =
          synced item plan (s.blobs r.name) (r.sectors.drop plan.sectorSize.toNat) := by
        rw [← hname]
        exact Function.update_self _ _ _
      rw [hblob, hsectors]
    · rw [← hhashes, ← hname]
      exact Function.update_self _ _ _
    · rw [← hhashes, ← hname]
      rfl
  exact ⟨⟨h.imported, h.info, h.nameBan, h.headerBan, .whole ⟨_, hwhole⟩⟩, _, hwhole⟩

theorem apply_cases (now : Time) (h : r.Rows P T s) (hname : item.name = r.name) (hasks : r.Asks item) (hc : r.Continued P s plan)
    {msgs : List (BlobRes H G)} (hm : ∀ m ∈ msgs, r.Harmless P m) :
    SameName r.name s (apply P now item plan msgs s).2 ∨
      r.Rows P T (apply P now item plan msgs s).2 ∧ r.Has P (apply P now item plan msgs s).2 := by
  rcases Protocol.apply_cases P now item plan msgs s with ⟨m, hmem, -, hst, ha⟩ | ⟨res, db, ha, hnone, -⟩
  · have hu := hst.usable
    rw [hname] at hu
    obtain ⟨sig, hsig, rfl⟩ := answer_of_valid h hc (hm m hmem) hu.name hu.position hu.valid
    rw [ha]
    exact .inr (has_store now h hname hasks hc hsig)
  · left
    have hquiet : ∀ m ∈ msgs, ¬ Equivocates P s.db (plan.opts item.name) m := by
      intro m hmem he
      rw [hname] at he
      obtain ⟨sig, -, rfl⟩ := answer_of_valid h hc (hm m hmem) he.name he.position he.valid
      exact he.prevHash hc.prevHash
    have hdb := apply_db now s hquiet (by rw [ha]; exact hnone)
    rw [ha] at hdb ⊢
    exact .of_eq hdb rfl

theorem apply_answer (hz : NoZeroHash P) (h : r.Rows P T s) (hname : item.name = r.name) (hasks : r.Asks item)
    (hc : r.Continued P s plan) (hsched : plan.epochUpdated = true → plan.epochHeight ≤ currentEpoch P now item.name + 1)
    {sig : G} (hsig : r.Signed P sig) (hcount : s.db.TakesHeader r.name) :
    ∃ res, apply P now item plan [r.answer P plan.sectorSize sig] s =
      (.ok res, store P now item plan s (r.answer P plan.sectorSize sig)) := by
  have hfits := r.fits
  have hlt := hc.size
  have hu : Usable P s.db (plan.opts item.name) (r.answer P plan.sectorSize sig) := by
    rw [hname]
    exact usable_answer h hc hsig
  have hlen : (r.answer P plan.sectorSize sig).payload.length = r.sectors.length - plan.sectorSize.toNat := List.length_drop
  have hst : Stores P now item plan s (r.answer P plan.sectorSize sig) := by
    refine stores_of_usable hz hu hsched (by omega) ?_ ?_ (by rw [hname]; exact hcount)
    · rw [(hasks hname).2, size_toNat]
      omega
    · rw [hname, hc.kept]
      exact hc.prevHash
  refine ⟨_, apply_stores hst ?_⟩
  simp only [syncSectors, receive_usable (s := ⟨s.db, startTx item plan, []⟩) now (s.blobs item.name) hu]

/-! ## A request -/

omit [DecidableEq H] in
/-- Requests for other names leave the lock and the cached answers of this one. -/
theorem onBlobReq_other (now : Time) {name : Name} {req : BlobReq} (hne : name ≠ req.name) (s : Shared H K G)
    (cache : ResponseCache) :
    (onBlobReq now s cache req).2.1.locks name = s.locks name ∧
      ∀ e k, (onBlobReq now s cache req).2.2 (cacheKey name e k) = cache (cacheKey name e k) := by
  cases hh : s.db.headers req.name with
  | none => exact ⟨by simp only [onBlobReq, hh], fun e k => by simp only [onBlobReq, hh]⟩
  | some header =>
    by_cases he : header.epochHeight < req.epochHeight
    · exact ⟨by simp only [onBlobReq, hh, he, if_true], fun e k => by simp only [onBlobReq, hh, he, if_true]⟩
    by_cases hm : req.sectorSize.toNat = maxSectors
    · cases hp : s.db.equivocationProofs req.name <;>
        exact ⟨by simp only [onBlobReq, hh, he, hm, hp, if_true, if_false],
          fun e k => by simp only [onBlobReq, hh, he, hm, hp, if_true, if_false]⟩
    rw [onBlobReq_eq now cache hh he hm]
    constructor
    · cases hl : s.locks.tryRLock req.name with
      | none => simp only [respond, hl]
      | some locks =>
        have hkeep : locks name = s.locks name := by
          rw [(MultiLocker.tryRLock_eq_some.mp hl).2, Function.update_of_ne hne]
        have hback := MultiLocker.rUnlock_tryRLock hl
        rcases hs : serve now { s with locks := locks } cache header req with ⟨⟨res, released⟩, cache'⟩
        cases released with
        | false => simp only [respond, hl, hs, Bool.false_eq_true, if_false]; exact hkeep
        | true => simp only [respond, hl, hs, if_true, hback]
    · intro e k
      have hkey : cacheKey name e k ≠ cacheKey req.name req.epochHeight req.sectorSize := fun heq => hne (cacheKey_inj heq).1
      rcases (respond_cases now s cache header req).2 with ⟨f, -, hc | hc⟩ | ⟨_, _, -, -, -, hc⟩ | ⟨_, _, -, -, -, -, hc⟩
      · exact congrFun hc _
      · exact (congrFun hc _).trans (Function.update_of_ne hkey _ _)
      · exact congrFun hc _
      · exact (congrFun hc _).trans ((Function.update_of_ne hkey _ _).trans (Function.update_of_ne hkey _ _))

variable (r) in
/-- Cached answers for the name are right. -/
def Caches (cache : ResponseCache) : Prop :=
  ∀ e k entry, cache (cacheKey r.name e k) = some entry → entry.val = r.sectors.drop k.toNat

theorem Whole.read {header : Header H G} (h : r.Whole P s header) (k : UInt16) :
    readSectors (s.blobs r.name) (header.sectorSize.toNat - k.toNat) k.toNat = .ok (r.sectors.drop k.toNat) := by
  have hfits := r.fits
  rw [h.size, size_toNat]
  by_cases hk : k.toNat ≤ r.sectors.length
  · rw [readSectors_eq _ _ _ (by omega), Nat.add_sub_cancel' hk, h.sectors]
  · rw [Nat.sub_eq_zero_of_le (by omega), List.drop_of_length_le (by omega)]
    rfl

theorem Whole.served {header : Header H G} (h : r.Whole P s header) {cache : ResponseCache} (hcache : r.Caches cache)
    (now : Time) (locks : MultiLocker Name) (e k : UInt16) :
    (prevHashOf s.db ⟨r.name, e, k⟩ = .error .panic ∧
      serve now { s with locks := locks } cache header ⟨r.name, e, k⟩ = ((.error .panic, false), cache)) ∨
    ∃ prevHash cache', prevHashOf s.db ⟨r.name, e, k⟩ = .ok prevHash ∧ r.Caches cache' ∧
      serve now { s with locks := locks } cache header ⟨r.name, e, k⟩ =
        ((.ok (response ⟨r.name, e, k⟩ header prevHash (r.sectors.drop k.toNat)), true), cache') := by
  cases hp : prevHashOf s.db ⟨r.name, e, k⟩ with
  | error f =>
    cases f with
    | panic => exact .inl ⟨rfl, by simp only [Protocol.serve, hp]⟩
    | err d =>
      -- the hashes are there
      exfalso
      unfold prevHashOf at hp
      split at hp
      · cases hp
      · simp only [DB.getSectorHash, h.hashes] at hp
        split at hp
        · cases hp
        · rename_i hs
          split at hs
          · cases hs
          · split at hs <;> cases hs
        · cases hp
  | ok prevHash =>
    right
    rcases hc : cache.get now (cacheKey r.name e k) with ⟨_ | sectors, cache'⟩
    · obtain rfl := Cache.get_none hc
      refine ⟨prevHash, _, rfl, ?_, by simp only [Protocol.serve, hp, hc, h.read]; rfl⟩
      intro e' k' entry he
      by_cases hkey : cacheKey r.name e' k' = cacheKey r.name e k
      · obtain ⟨-, -, rfl⟩ := cacheKey_inj hkey
        rw [Cache.set, hkey, Function.update_self] at he
        cases he
        rfl
      · rw [Cache.set, Function.update_of_ne hkey, Function.update_of_ne hkey] at he
        exact hcache e' k' entry he
    · obtain ⟨rfl, expiry, hentry⟩ := Cache.get_some hc
      obtain rfl : sectors = r.sectors.drop k.toNat := hcache e k _ hentry
      exact ⟨prevHash, _, rfl, hcache, by simp only [Protocol.serve, hp, hc]⟩

/-- A request to a node that has the release panics, or leaves it as it was but for the cache; on a
    free name a request from a sector of the release is answered. -/
theorem Whole.requested {header : Header H G} (h : r.Whole P s header) {cache : ResponseCache} (hcache : r.Caches cache)
    (now : Time) (e k : UInt16) :
    (Node.panicked (onBlobReq now s cache ⟨r.name, e, k⟩).1 = true ∨
      (onBlobReq now s cache ⟨r.name, e, k⟩).2.1 = s ∧ r.Caches (onBlobReq now s cache ⟨r.name, e, k⟩).2.2) ∧
    (e ≤ r.epochHeight → k.toNat < r.sectors.length → (s.locks r.name).writers = 0 →
      (onBlobReq now s cache ⟨r.name, e, k⟩).1 = .ok (.blobRes (r.answer P k header.signature))) := by
  have hfits := r.fits
  by_cases he : header.epochHeight < e
  · have hreq : onBlobReq now s cache ⟨r.name, e, k⟩ = (.error (.err .epochAhead), s, cache) := by
      simp only [Protocol.onBlobReq, h.found, he, if_true]
    rw [hreq]
    exact ⟨.inr ⟨rfl, hcache⟩, fun hle => absurd (h.epoch ▸ he) (UInt16.not_lt.mpr hle)⟩
  by_cases hm : k.toNat = maxSectors
  · refine ⟨.inr ?_, fun _ hk => by omega⟩
    cases hp : s.db.equivocationProofs r.name <;> simp only [Protocol.onBlobReq, h.found, he, hm, hp, if_true, if_false] <;>
      exact ⟨trivial, hcache⟩
  rw [onBlobReq_eq now cache h.found he hm]
  cases hl : s.locks.tryRLock r.name with
  | none =>
    simp only [respond, hl]
    refine ⟨.inr ⟨trivial, hcache⟩, fun _ _ hfree => ?_⟩
    obtain ⟨locks, hsome⟩ := MultiLocker.tryRLock_free hfree
    cases hl.symm.trans hsome
  | some locks =>
    have hback := MultiLocker.rUnlock_tryRLock hl
    have hok (hk : k.toNat < r.sectors.length) :
        prevHashOf s.db ⟨r.name, e, k⟩ = .ok (chain (serialHashSector P) 0 ((s.blobs r.name).sectors k.toNat)) :=
      prevHashOf_stored (m := r.sectors.length) (by rw [h.sectors]; exact h.hashes) hfits (Nat.le_of_lt hk)
    rcases h.served hcache now locks e k with ⟨hp, hs⟩ | ⟨prevHash, cache', hp, hcache', hs⟩
    · simp only [respond, hl, hs, Bool.false_eq_true, if_false]
      refine ⟨.inl rfl, fun _ hk _ => ?_⟩
      cases (hok hk).symm.trans hp
    · simp only [respond, hl, hs, if_true, hback]
      refine ⟨.inr ⟨trivial, hcache'⟩, fun _ hk _ => ?_⟩
      cases (hok hk).symm.trans hp
      have htake := File.take_sectors (s.blobs r.name) (Nat.le_of_lt hk)
      rw [h.sectors] at htake
      simp only [response, h.epoch, Except.map, answer, hashAt, htake]

/-! ## The running process -/

variable (P r T) in
/-- What is stored for the name stays, or becomes the release. -/
def Goes (s s' : Shared H K G) : Prop := SameName r.name s s' ∨ r.Rows P T s' ∧ r.Has P s'

theorem Goes.rows (hg : r.Goes P T s s') (h : r.Rows P T s) : r.Rows P T s' := by
  rcases hg with hs | ⟨hrows, -⟩
  · exact h.same hs
  · exact hrows

theorem Goes.has (hg : r.Goes P T s s') (h : r.Has P s) : r.Has P s' := by
  rcases hg with hs | ⟨-, hhas⟩
  · exact h.same hs
  · exact hhas

theorem Goes.setLocks (hg : r.Goes P T s s') (locks : MultiLocker Name) : r.Goes P T s { s' with locks := locks } := by
  rcases hg with hs | ⟨hrows, hhas⟩
  · exact .inl ⟨hs.imported, hs.headers, hs.sectorHashes, hs.headerBans, hs.nameInfo, hs.nameBans, hs.blob⟩
  · have hsame : SameName r.name s' { s' with locks := locks } := .of_eq rfl rfl
    exact .inr ⟨hrows.same hsame, hhas.same hsame⟩

variable (P r) in
/-- A worker's item and its plan, if they are for the name, are for the release. -/
def OnTrack (s : Shared H K G) : Worker H K → Prop
  | .idle => True
  | .dequeued item => r.Asks item
  | .admitted item plan | .locked item plan => r.Asks item ∧ (item.name = r.name → r.Continued P s plan)

omit [DecidableEq H] in
theorem OnTrack.mono {x : Worker H K} (h : r.OnTrack P s x) (hplan : ∀ plan, r.Continued P s plan → r.Continued P s' plan) :
    r.OnTrack P s' x := by
  cases x with
  | idle => trivial
  | dequeued item => exact h
  | admitted item plan | locked item plan => exact ⟨h.1, fun hname => hplan plan (h.2 hname)⟩

theorem OnTrack.goes {x : Worker H K} (h : r.OnTrack P s x) (hg : r.Goes P T s s') : r.OnTrack P s' x := by
  refine h.mono fun plan hc => ?_
  rcases hg with hs | ⟨-, hhas⟩
  · exact hc.same hs.blob
  · exact hc.has hhas

theorem goes_apply (now : Time) (hrows : r.Rows P T s) (h : r.OnTrack P s (.locked item plan)) {msgs : List (BlobRes H G)}
    (hm : ∀ m ∈ msgs, r.Harmless P m) : r.Goes P T s (apply P now item plan msgs s).2 := by
  by_cases hname : item.name = r.name
  · exact apply_cases now hrows hname h.1 (h.2 hname) hm
  · left
    rcases Protocol.apply_cases P now item plan msgs s with ⟨m, -, -, -, ha⟩ | ⟨res, db, ha, -, hban⟩
    · have hne : r.name ≠ (storedHeader P now item plan s m).name := Ne.symm hname
      rw [ha]
      exact .setHeader hne rfl rfl
    · rw [ha]
      exact .ban (Ne.symm hname) hban rfl

variable (P r) in
/-- A running node: what it has queued, under way and cached for the name is of the release, only
    a worker on the name locks it, and no transaction is open on it. -/
structure InOrder (n : State H K G) : Prop where
  inv : Inv n
  queue : ∀ name item, n.queue.entries name = some item → item.name = name ∧ r.Asks item
  workers : ∀ w, r.OnTrack P n.shared (n.workers w)
  lock : (∀ w item plan, n.workers w = .locked item plan → item.name ≠ r.name) → n.shared.locks r.name = ⟨0, 0⟩
  txs : ∀ id entry, n.rpc.txStore id = some entry → entry.val.name ≠ r.name
  caches : r.Caches n.cache
  cached : ∀ e k entry, n.cache (cacheKey r.name e k) = some entry → r.Has P n.shared

variable (P r T) in
/-- A node in order, running or not. -/
structure Tracks (n : State H K G) : Prop where
  clock : T n.clock
  rows : r.Rows P T n.shared
  up : n.down = false → r.InOrder P n

variable (P r T) in
/-- The events that keep a node in order; those of other names all do. -/
def Allowed (n : State H K G) : Event H G → Prop
  | .tick now => T now
  | .update _ msg => msg.name = r.name → msg = r.announcement
  | .finish _ msgs => ∀ m ∈ msgs, r.Harmless P m
  | .blobReq req => req.name = r.name → r.Has P n.shared
  | .equivocationProof msg => msg.name ≠ r.name
  | .checkout req => req.name ≠ r.name
  | _ => True

section Steps

variable {n n' : State H K G}

theorem InOrder.keep (h : r.InOrder P n) (hi : Inv n') (hs : SameName r.name n.shared n'.shared)
    (hlocks : n'.shared.locks r.name = n.shared.locks r.name) (hqueue : n'.queue = n.queue) (hworkers : n'.workers = n.workers)
    (htxs : ∀ id entry, n'.rpc.txStore id = some entry → entry.val.name ≠ r.name)
    (hcache : ∀ e k, n'.cache (cacheKey r.name e k) = n.cache (cacheKey r.name e k)) : r.InOrder P n' := by
  refine ⟨hi, ?_, fun w => ?_, fun hw => ?_, htxs, fun e k entry he => ?_, fun e k entry he => ?_⟩
  · rw [hqueue]
    exact h.queue
  · rw [hworkers]
    exact (h.workers w).mono fun plan hc => hc.same hs.blob
  · rw [hworkers] at hw
    exact hlocks.trans (h.lock hw)
  · exact h.caches e k entry ((hcache e k).symm.trans he)
  · exact (h.cached e k entry ((hcache e k).symm.trans he)).same hs

theorem InOrder.onTrack (h : r.InOrder P n) {w : Nat} {x : Worker H K} (hw : n.workers w = x) : r.OnTrack P n.shared x :=
  hw ▸ h.workers w

omit [DecidableEq H] in
theorem onTrack_update {workers : Nat → Worker H K} {w : Nat} {x : Worker H K} (h : ∀ v, r.OnTrack P s (workers v))
    (hx : r.OnTrack P s x) (v : Nat) : r.OnTrack P s (Function.update workers w x v) := by
  by_cases hv : v = w
  · subst hv
    rw [Function.update_self]
    exact hx
  · rw [Function.update_of_ne hv]
    exact h v

/-- A worker that was not syncing the name does not matter for its lock. -/
theorem InOrder.free (h : r.InOrder P n) {w : Nat} {x : Worker H K}
    (hw : ∀ item plan, n.workers w = .locked item plan → item.name ≠ r.name)
    (hnone : ∀ v item plan, Function.update n.workers w x v = .locked item plan → item.name ≠ r.name) :
    n.shared.locks r.name = ⟨0, 0⟩ := by
  refine h.lock fun v item plan hv => ?_
  by_cases hvw : v = w
  · subst hvw
    exact hw item plan hv
  · exact hnone v item plan ((Function.update_of_ne hvw _ _).trans hv)

theorem InOrder.setWorker (h : r.InOrder P n) (hi : Inv n') (hshared : n'.shared = n.shared) {w : Nat} {x : Worker H K}
    (hworkers : n'.workers = Function.update n.workers w x) (hrpc : n'.rpc = n.rpc) (hcache : n'.cache = n.cache)
    (hqueue : ∀ name item, n'.queue.entries name = some item → n.queue.entries name = some item)
    (hx : r.OnTrack P n.shared x) (hw : ∀ item plan, n.workers w = .locked item plan → item.name ≠ r.name) : r.InOrder P n' := by
  refine ⟨hi, fun name item he => h.queue name item (hqueue name item he), fun v => ?_, fun hnone => ?_, ?_, ?_, ?_⟩
  · rw [hshared, hworkers]
    exact onTrack_update h.workers hx v
  · rw [hworkers] at hnone
    rw [hshared]
    exact h.free hw hnone
  · rw [hrpc]
    exact h.txs
  · rw [hcache]
    exact h.caches
  · rw [hcache, hshared]
    exact h.cached

theorem InOrder.update (h : r.InOrder P n) {peerID : H} {msg : Update} (hmsg : msg.name = r.name → msg = r.announcement) :
    r.InOrder P (Node.act P n (.update peerID msg)) := by
  refine ⟨Node.act_inv h.inv _, fun name item he => ?_, h.workers, h.lock, h.txs, h.caches, h.cached⟩
  have hput : ∀ {new : UpdateQueueItem H K}, Function.update n.queue.entries msg.name (some new) name = some item →
      new.name = msg.name → r.Asks new → item.name = name ∧ r.Asks item := by
    intro new he hname hasks
    rw [Function.update_apply] at he
    split at he
    · rename_i heq
      cases he
      exact ⟨hname.trans heq.symm, hasks⟩
    · exact h.queue name item he
  have he : (n.queue.enqueue n.shared.db peerID msg).2.entries name = some item := he
  rcases UpdateQueue.enqueue_cases n.queue n.shared.db peerID msg with ⟨f, hq⟩ | ⟨req, hq, -⟩ | ⟨info, -, -, hq⟩
  · rw [hq] at he
    exact h.queue name item he
  · rw [hq] at he
    exact h.queue name item he
  · have hnew : r.Asks (UpdateQueue.newItem peerID msg info) :=
      fun hname => by rw [UpdateQueue.newItem, hmsg hname]; exact ⟨rfl, rfl⟩
    rw [hq] at he
    rcases UpdateQueue.insert_cases n.queue peerID msg info with ⟨-, hins⟩ | ⟨entry, -, -, hins⟩ |
      ⟨entry, hentry, -, -, -, hins⟩ | ⟨entry, f, -, hins⟩
    · rw [hins] at he
      exact hput he rfl hnew
    · rw [hins] at he
      exact hput he rfl hnew
    · rw [hins] at he
      obtain ⟨hname, hasks⟩ := h.queue msg.name entry hentry
      exact hput he hname hasks
    · rw [hins] at he
      exact h.queue name item he

omit [Zero H] [DecidableEq H] in
theorem dequeue_entry {q q' : UpdateQueue H K} {item : UpdateQueueItem H K} (h : q.dequeue = (some item, q')) :
    ∃ name, q.entries name = some item := by
  unfold UpdateQueue.dequeue at h
  split at h
  · cases h
  · exact ⟨_, (Prod.mk.inj h).1⟩

theorem InOrder.dequeue (h : r.InOrder P n) (w : Nat) : r.InOrder P (Node.act P n (.dequeue w)) ∧
    (Node.act P n (.dequeue w)).shared = n.shared := by
  have hi := Node.act_inv (P := P) h.inv (.dequeue w)
  have hentries : ∀ name item, n.queue.dequeue.2.entries name = some item → n.queue.entries name = some item := by
    intro name item he
    rcases UpdateQueue.dequeue_entries n.queue name with hnone | hsame
    · cases hnone.symm.trans he
    · exact hsame.symm.trans he
  simp only [Node.act] at hi ⊢
  split
  · rename_i hw
    rcases hq : n.queue.dequeue with ⟨_ | item, q⟩
    · simp only [hw, hq] at hi ⊢
      rw [hq] at hentries
      exact ⟨⟨hi, fun name item he => h.queue name item (hentries name item he), h.workers, h.lock, h.txs, h.caches, h.cached⟩,
        trivial⟩
    · simp only [hw, hq] at hi ⊢
      rw [hq] at hentries
      obtain ⟨name, hentry⟩ := dequeue_entry hq
      exact ⟨h.setWorker hi rfl rfl rfl rfl hentries (h.queue name item hentry).2 (fun _ _ hl => by cases hw.symm.trans hl), rfl⟩
  · exact ⟨h, rfl⟩

theorem InOrder.check (h : r.InOrder P n) (hrows : r.Rows P T n.shared) (w : Nat) :
    r.InOrder P (Node.act P n (.check w)) ∧ (Node.act P n (.check w)).shared = n.shared := by
  have hi := Node.act_inv (P := P) h.inv (.check w)
  cases hw : n.workers w with
  | dequeued item =>
    have hasks : r.Asks item := h.onTrack hw
    have hnot : ∀ item plan, n.workers w = .locked item plan → item.name ≠ r.name := fun _ _ hl => by cases hw.symm.trans hl
    cases hc : Protocol.check P n.clock n.shared.db item with
    | error f =>
      simp only [Node.act, hw, hc] at hi ⊢
      exact ⟨h.setWorker hi rfl rfl rfl rfl (fun _ _ he => he) trivial hnot, rfl⟩
    | ok plan =>
      simp only [Node.act, hw, hc] at hi ⊢
      have hcontinued (hname : item.name = r.name) := continued_of_check hrows hname hasks hc
      exact ⟨h.setWorker hi rfl rfl rfl rfl (fun _ _ he => he) ⟨hasks, hcontinued⟩ hnot, rfl⟩
  | _ => simp only [Node.act, hw]; exact ⟨h, trivial⟩

theorem InOrder.lockStep (h : r.InOrder P n) (w : Nat) :
    r.InOrder P (Node.act P n (.lock w)) ∧ SameName r.name n.shared (Node.act P n (.lock w)).shared := by
  have hi := Node.act_inv (P := P) h.inv (.lock w)
  cases hw : n.workers w with
  | admitted item plan =>
    have hadmitted := h.onTrack hw
    have htrack : r.OnTrack P n.shared (.locked item plan) := hadmitted
    have hnot : ∀ item plan, n.workers w = .locked item plan → item.name ≠ r.name := fun _ _ hl => by cases hw.symm.trans hl
    cases hl : n.shared.locks.tryLock item.name with
    | none =>
      simp only [Node.act, hw, hl] at hi ⊢
      exact ⟨h.setWorker hi rfl rfl rfl rfl (fun _ _ he => he) trivial hnot, .refl _⟩
    | some locks =>
      obtain ⟨-, rfl⟩ := MultiLocker.tryLock_eq_some.mp hl
      simp only [Node.act, hw, hl] at hi ⊢
      have hs : SameName r.name n.shared { n.shared with locks := Function.update n.shared.locks item.name ⟨0, 1⟩ } :=
        .of_eq rfl rfl
      have hmono {x : Worker H K} (hx : r.OnTrack P n.shared x) := hx.mono fun plan hc => hc.same hs.blob
      refine ⟨⟨hi, h.queue, onTrack_update (fun v => hmono (h.workers v)) (hmono htrack), fun hnone => ?_, h.txs, h.caches,
        fun e k entry he => (h.cached e k entry he).same hs⟩, hs⟩
      -- the worker is on another name
      have hne : item.name ≠ r.name := hnone w item plan (Function.update_self _ _ _)
      show Function.update n.shared.locks item.name ⟨0, 1⟩ r.name = ⟨0, 0⟩
      rw [Function.update_of_ne hne.symm]
      exact h.free hnot hnone
  | _ => simp only [Node.act, hw]; exact ⟨h, .refl _⟩

theorem InOrder.finish (h : r.InOrder P n) (hrows : r.Rows P T n.shared) (w : Nat) {msgs : List (BlobRes H G)}
    (hm : ∀ m ∈ msgs, r.Harmless P m) :
    r.InOrder P (Node.act P n (.finish w msgs)) ∧ r.Goes P T n.shared (Node.act P n (.finish w msgs)).shared := by
  have hi := Node.act_inv (P := P) h.inv (.finish w msgs)
  cases hw : n.workers w with
  | locked item plan =>
    have hf := finish_eq P n.clock item plan msgs (s := n.shared) (by rw [h.inv.held.lock w item plan hw])
    simp only [Node.act, hw, hf] at hi ⊢
    have hg := (goes_apply n.clock hrows (h.onTrack hw) hm).setLocks (Function.update n.shared.locks item.name ⟨0, 0⟩)
    refine ⟨⟨hi, h.queue, onTrack_update (fun v => (h.workers v).goes hg) trivial, fun hnone => ?_, h.txs, h.caches,
      fun e k entry he => hg.has (h.cached e k entry he)⟩, hg⟩
    show Function.update n.shared.locks item.name ⟨0, 0⟩ r.name = ⟨0, 0⟩
    by_cases hname : item.name = r.name
    · rw [← hname]
      exact Function.update_self _ _ _
    · rw [Function.update_of_ne (Ne.symm hname)]
      refine h.free (fun item' plan' hl => ?_) hnone
      cases hw.symm.trans hl
      exact hname
  | _ => simp only [Node.act, hw]; exact ⟨h, .inl (.refl _)⟩

theorem InOrder.blobReq (h : r.InOrder P n) {req : BlobReq} (hreq : req.name = r.name → r.Has P n.shared) :
    ((Node.act P n (.blobReq req)).down = false → r.InOrder P (Node.act P n (.blobReq req))) ∧
      SameName r.name n.shared (Node.act P n (.blobReq req)).shared := by
  have hi := Node.act_inv (P := P) h.inv (.blobReq req)
  obtain ⟨locks, hshared, -⟩ := onBlobReq_shared n.clock n.shared n.cache req
  have hshared : (Node.act P n (.blobReq req)).shared = { n.shared with locks := locks } := hshared
  have hs : SameName r.name n.shared (Node.act P n (.blobReq req)).shared := .of_eq (by rw [hshared]) (by rw [hshared])
  refine ⟨fun hup => ?_, hs⟩
  by_cases hname : req.name = r.name
  · obtain ⟨header, hwhole⟩ := hreq hname
    obtain ⟨name, e, k⟩ := req
    obtain rfl : name = r.name := hname
    rcases (hwhole.requested h.caches n.clock e k).1 with hpanic | ⟨hsame, hcaches⟩
    · cases hup.symm.trans hpanic
    · have hsame : (Node.act P n (.blobReq ⟨r.name, e, k⟩)).shared = n.shared := hsame
      refine ⟨hi, h.queue, ?_, ?_, h.txs, hcaches, fun _ _ _ _ => ?_⟩
      · rw [hsame]
        exact h.workers
      · rw [hsame]
        exact h.lock
      · rw [hsame]
        exact ⟨header, hwhole⟩
  · obtain ⟨hlocks, hcache⟩ := onBlobReq_other n.clock (Ne.symm hname) n.shared n.cache
    exact h.keep hi hs hlocks rfl rfl h.txs hcache

theorem InOrder.equivocationProof (h : r.InOrder P n) {msg : Wire.EquivocationProof H G} (hne : msg.name ≠ r.name) :
    r.InOrder P (Node.act P n (.equivocationProof msg)) ∧
      SameName r.name n.shared (Node.act P n (.equivocationProof msg)).shared := by
  have hi := Node.act_inv (P := P) h.inv (.equivocationProof msg)
  cases hp : onEquivocationProof P n.clock n.shared.db msg with
  | error f =>
    simp only [Node.act, hp] at hi ⊢
    exact ⟨h.keep hi (.refl _) rfl rfl rfl h.txs fun _ _ => rfl, .refl _⟩
  | ok db =>
    obtain ⟨-, rfl⟩ := onEquivocationProof_ok hp
    simp only [Node.act, hp] at hi ⊢
    have hs : SameName r.name n.shared
        { n.shared with db := (n.shared.db.setEquivocationProof msg.name msg).setHeaderBan n.clock msg.name zeroTime } :=
      have hban : BanStep n.clock msg.name n.shared.db
          ((n.shared.db.setEquivocationProof msg.name msg).setHeaderBan n.clock msg.name zeroTime) := .inr ⟨msg, rfl⟩
      .ban hne.symm hban rfl
    exact ⟨h.keep hi hs rfl rfl rfl h.txs fun _ _ => rfl, hs⟩

theorem InOrder.checkout (h : r.InOrder P n) {req : Rpc.CheckoutReq} (hne : req.name ≠ r.name) :
    r.InOrder P (Node.act P n (.checkout req)) := by
  refine h.keep (Node.act_inv h.inv _) (.refl _) rfl rfl rfl (fun id entry he => ?_) fun _ _ => rfl
  have he : (Rpc.checkout P n.clock n.shared n.rpc req).2.txStore id = some entry := he
  rcases Rpc.checkout_cases P n.clock n.shared n.rpc req with ⟨f, hc⟩ | ⟨size, res, -, hc⟩
  · rw [hc] at he
    exact h.txs id entry he
  · rw [hc] at he
    by_cases hid : id = n.rpc.lastTxID + 1
    · subst hid
      simp only [Cache.set, Function.update_self] at he
      cases he
      exact hne
    · simp only [Cache.set, Function.update_of_ne hid] at he
      exact h.txs id entry he

omit [Zero H] [DecidableEq H] in
theorem txs_follow {srv srv' : Rpc.Server} {txID : UInt32} {f : Tx → Tx} (hf : Rpc.Follows txID f srv srv')
    (hname : ∀ tx, (f tx).name = tx.name) (h : ∀ id entry, srv.txStore id = some entry → entry.val.name ≠ r.name) :
    ∀ id entry, srv'.txStore id = some entry → entry.val.name ≠ r.name := by
  intro id entry he
  obtain ⟨tx, hold, hval | ⟨-, hval⟩⟩ := hf.2 id entry he
  · rw [hval]
    exact h id _ hold
  · rw [hval, hname]
    exact h id _ hold

theorem InOrder.commit (h : r.InOrder P n) (req : Rpc.CommitReq H G) :
    r.InOrder P (Node.act P n (.commit req)) ∧ SameName r.name n.shared (Node.act P n (.commit req)).shared := by
  have hi := Node.act_inv (P := P) h.inv (.commit req)
  have htxs := txs_follow (Rpc.commit_follows P n.clock n.shared req h.inv.live)
    (fun tx => Blob.Tx.lazyInitialize_name tx _) h.txs
  rcases Rpc.commit_live_cases P n.clock n.shared req h.inv.live with ⟨-, hshared, -⟩ | ⟨tx, expiry, hid, -, -, -, hshared, -⟩
  · have hs : SameName r.name n.shared (Node.act P n (.commit req)).shared :=
      .of_eq (congrArg Shared.db hshared) (congrArg Shared.blobs hshared)
    exact ⟨h.keep hi hs (congrFun (congrArg Shared.locks hshared) _) rfl rfl htxs fun _ _ => rfl, hs⟩
  · have hne : r.name ≠ (Rpc.committedHeader P n.clock n.shared req tx).name := Ne.symm (h.txs req.txID _ hid)
    have hs : SameName r.name n.shared (Node.act P n (.commit req)).shared :=
      .setHeader hne (congrArg Shared.db hshared) (congrArg Shared.blobs hshared)
    exact ⟨h.keep hi hs (congrFun (congrArg Shared.locks hshared) _) rfl rfl htxs fun _ _ => rfl, hs⟩

theorem InOrder.act (h : r.InOrder P n) (hrows : r.Rows P T n.shared) {e : Event H G} (he : r.Allowed P T n e) :
    ((Node.act P n e).down = false → r.InOrder P (Node.act P n e)) ∧ r.Goes P T n.shared (Node.act P n e).shared := by
  cases e with
  | tick now =>
    exact ⟨fun _ => h.keep (Node.act_inv h.inv _) (.refl _) rfl rfl rfl h.txs fun _ _ => rfl, .inl (.refl _)⟩
  | update peerID msg => exact ⟨fun _ => h.update he, .inl (.refl _)⟩
  | dequeue w =>
    obtain ⟨h', hs⟩ := h.dequeue w
    exact ⟨fun _ => h', .inl (hs ▸ .refl _)⟩
  | check w =>
    obtain ⟨h', hs⟩ := h.check hrows w
    exact ⟨fun _ => h', .inl (hs ▸ .refl _)⟩
  | lock w =>
    obtain ⟨h', hs⟩ := h.lockStep w
    exact ⟨fun _ => h', .inl hs⟩
  | finish w msgs =>
    obtain ⟨h', hg⟩ := h.finish hrows w he
    exact ⟨fun _ => h', hg⟩
  | blobReq req =>
    obtain ⟨h', hs⟩ := h.blobReq he
    exact ⟨h', .inl hs⟩
  | equivocationProof msg =>
    obtain ⟨h', hs⟩ := h.equivocationProof he
    exact ⟨fun _ => h', .inl hs⟩
  | checkout req => exact ⟨fun _ => h.checkout he, .inl (.refl _)⟩
  | writeSector txID data =>
    have htxs := txs_follow (Rpc.writeSector_follows n.clock n.shared n.rpc txID data) (Rpc.written_name n.shared data) h.txs
    exact ⟨fun _ => h.keep (Node.act_inv h.inv _) (.refl _) rfl rfl rfl htxs fun _ _ => rfl, .inl (.refl _)⟩
  | commit req =>
    obtain ⟨h', hs⟩ := h.commit req
    exact ⟨fun _ => h', .inl hs⟩

theorem Tracks.step (h : r.Tracks P T n) {e : Event H G} (he : r.Allowed P T n e) :
    r.Tracks P T (Node.step P n e) ∧ r.Goes P T n.shared (Node.step P n e).shared := by
  have hclock : T (Node.step P n e).clock := by
    rcases (Node.step_frame P n e).1 with hsame | ⟨now, rfl⟩
    · rw [hsame]
      exact h.clock
    · unfold Node.step
      split
      · exact h.clock
      · show T (max n.clock now)
        rcases Int.le_total n.clock now with hle | hle
        · rw [Int.max_eq_right hle]
          exact he
        · rw [Int.max_eq_left hle]
          exact h.clock
  cases hd : n.down with
  | true =>
    have hstep : Node.step P n e = n := by simp only [Node.step, hd, if_true]
    rw [hstep]
    exact ⟨h, .inl (.refl _)⟩
  | false =>
    have hstep : Node.step P n e = Node.act P n e := by simp only [Node.step, hd, Bool.false_eq_true, if_false]
    obtain ⟨hup, hg⟩ := (h.up hd).act h.rows he
    rw [hstep] at hclock ⊢
    exact ⟨⟨hclock, hg.rows h.rows, hup⟩, hg⟩

theorem tracks_start {clock : Time} (hclock : T clock) {s : Shared H K G} (h : r.Rows P T s) :
    r.Tracks P T (Node.start clock s.db s.blobs) :=
  ⟨hclock, h.same (.of_eq rfl rfl), fun _ => ⟨Node.inv_start _ _ _, nofun, fun _ => trivial, fun _ => rfl, nofun, nofun, nofun⟩⟩

end Steps

end Release

end Fnd

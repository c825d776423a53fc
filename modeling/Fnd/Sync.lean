/-
  Fnd.Sync — what a sync writes, and that two honest nodes converge.

  A response's payload lands behind the sectors the plan kept (`sectors_synced`), so when
  the plan's previous hash is the chain over those sectors, the rehash ends in the chain
  the response was checked with (`stores_of_usable`). The server reads its payload and
  previous hash off the stored blob and hashes (`onBlobReq_answer`). Put together: one
  `UpdateBlob` run against an honest server returns nil and makes the client's copy the
  server's (`updateBlob_syncs`), when the two integers it reads on the way, the count of
  headers and the last import height, decode.
-/

import Fnd.Symbolic
import Fnd.Protocol.SectorServer

namespace Fnd.Protocol

open Blob (File Sector Tx tip hashesOf serialHashSector sealHash maxSectors NoZeroHash)
open Store (DB Header NameInfo)
open Wire (BlobRes BlobReq)
open HashChain (chain)
open Util (MultiLocker)

variable {H K G : Type}

/-! ## The synced blob -/

/-- The payload follows the sectors before the transaction's position. -/
theorem sectors_writeSectors (b : File) : ∀ (payload : List Sector) {tx : Tx}, tx.Live →
    tx.sectorSize.toNat + payload.length < 65536 →
    ((writeSectors b tx payload).view b).sectors (tx.sectorSize.toNat + payload.length) =
      (tx.view b).sectors tx.sectorSize.toNat ++ payload := by
  intro payload
  induction payload with
  | nil => intro tx _ _; simp [writeSectors]
  | cons x xs ih =>
    intro tx hl hlen
    obtain ⟨tx', hw, hl', hs, hv⟩ := hl.writeSector b x
    simp only [List.length_cons] at hlen ⊢
    have hpos : tx'.sectorSize.toNat = tx.sectorSize.toNat + 1 := by
      rw [hs, UInt16.toNat_add]
      simp only [UInt16.reduceToNat]
      omega
    have hkeep : (tx'.view b).sectors tx.sectorSize.toNat = (tx.view b).sectors tx.sectorSize.toNat :=
      File.sectors_congr fun i hi => by rw [hv, File.sectorAt_writeSector_ne _ _ (by omega)]
    have hwrite : (tx'.view b).sectorAt tx.sectorSize.toNat = x := by rw [hv, File.sectorAt_writeSector_self]
    have hnext := ih hl' (by omega)
    have hfold : writeSectors b tx (x :: xs) = writeSectors b tx' xs := by simp only [writeSectors, List.foldl_cons, hw]
    rw [hpos, File.sectors_succ, hkeep, hwrite, Nat.add_assoc, Nat.add_comm 1] at hnext
    rw [hfold, hnext, List.append_assoc]
    rfl

/-- What the plan keeps of the blob: nothing for a new epoch. -/
def kept (plan : Plan H) (b : File) : List Sector :=
  (if plan.epochUpdated then File.zero else b).sectors plan.sectorSize.toNat

theorem sectors_synced (item : UpdateQueueItem H K) (plan : Plan H) (b : File) (payload : List Sector)
    (h : plan.sectorSize.toNat + payload.length ≤ maxSectors) :
    (synced item plan b payload).sectors (plan.sectorSize.toNat + payload.length) = kept plan b ++ payload :=
  sectors_writeSectors b payload (startTx_live item plan) (Nat.lt_of_le_of_lt h (by decide))

section

variable [Zero H] [DecidableEq H] {P : Prims H K G}

/-- A usable response that ends at the item's size is stored, when the plan's previous
    hash is the chain over the sectors it keeps. -/
theorem stores_of_usable (hz : NoZeroHash P) {now : Time} {item : UpdateQueueItem H K} {plan : Plan H}
    {s : Shared H K G} {msg : BlobRes H G} (hu : Usable P s.db (plan.opts item.name) msg)
    (hsched : plan.epochUpdated = true → plan.epochHeight ≤ currentEpoch P now item.name + 1)
    (hlen : plan.sectorSize.toNat + msg.payload.length ≤ maxSectors)
    (hitem : item.sectorSize.toNat = plan.sectorSize.toNat + msg.payload.length)
    (hprev : plan.prevHash = chain (serialHashSector P) 0 (kept plan (s.blobs item.name)))
    (hcount : s.db.TakesHeader item.name) : Stores P now item plan s msg := by
  refine ⟨hu, by omega, hsched, by omega, ?_, hcount⟩
  have hp : msg.prevHash = plan.prevHash := hu.prevHash.symm
  rw [syncedHashes, hitem, sectors_synced item plan _ _ hlen, Blob.tip_hashesOf P hz
    (by simp only [List.length_append, kept, File.length_sectors]; omega), HashChain.chain_append, hp, hprev]

end

/-! ## The server's answer -/

theorem readSectors_eq (b : File) : ∀ (k i : Nat), i + k ≤ maxSectors →
    readSectors b k i = .ok ((b.sectors (i + k)).drop i) := by
  intro k
  induction k with
  | zero => intro i _; simp [readSectors, List.drop_of_length_le]
  | succ k ih =>
    intro i h
    have hi : i < (b.sectors (i + (k + 1))).length := by rw [File.length_sectors]; omega
    have hcopy : Blob.zeroSector.copy (b.readAt (i * Blob.sectorBytes) Blob.sectorBytes) = b.sectorAt i :=
      (Sector.copy_of_length _ (File.length_readAt _ _ _)).trans (Subtype.ext (File.readAt_sector _ _))
    simp only [readSectors, Blob.readBlobAt_sector b (show i < maxSectors by omega), ih (i + 1) (by omega), hcopy]
    rw [List.drop_eq_getElem_cons hi, File.getElem_sectors, Nat.add_assoc i 1 k, Nat.add_comm 1 k]

section

variable [Zero H] [DecidableEq H]

/-- An honest server: a signed header that describes its blob, on a name no writer holds. -/
structure Serving (P : Prims H K G) (S : Shared H K G) (name : Name) (key : K) (header : Header H G) : Prop where
  found : S.db.headers name = some header
  pos : 1 ≤ header.sectorSize.toNat
  size : header.sectorSize.toNat ≤ maxSectors
  hashes : S.db.sectorHashes name = some (hashesOf P ((S.blobs name).sectors header.sectorSize.toNat))
  tip : header.sectorTipHash = tip (hashesOf P ((S.blobs name).sectors header.sectorSize.toNat))
  root : header.reservedRoot = 0
  signature : P.verifySigPub key header.signature
    (sealHash P name header.epochHeight header.sectorSize header.sectorTipHash header.reservedRoot) = true
  unlocked : (S.locks name).writers = 0

/-- What the server sends from sector `n` on. -/
def answer (P : Prims H K G) (S : Shared H K G) (name : Name) (header : Header H G) (n : UInt16) : BlobRes H G :=
  ⟨name, header.epochHeight, n, chain (serialHashSector P) 0 ((S.blobs name).sectors n.toNat), 0,
    ((S.blobs name).sectors header.sectorSize.toNat).drop n.toNat, header.signature⟩

variable {P : Prims H K G} {S : Shared H K G} {name : Name} {key : K} {header : Header H G}

omit [DecidableEq H] in
theorem sectors_answer (P : Prims H K G) (S : Shared H K G) (name : Name) {n : UInt16}
    (hn : n.toNat < header.sectorSize.toNat) :
    (S.blobs name).sectors n.toNat ++ (answer P S name header n).payload = (S.blobs name).sectors header.sectorSize.toNat := by
  simp only [answer]
  rw [← File.take_sectors _ (Nat.le_of_lt hn), List.take_append_drop]

omit [DecidableEq H] in
theorem length_answer (P : Prims H K G) (S : Shared H K G) (name : Name) {n : UInt16}
    (hn : n.toNat < header.sectorSize.toNat) :
    n.toNat + (answer P S name header n).payload.length = header.sectorSize.toNat := by
  simp only [answer, List.length_drop, File.length_sectors]; omega

theorem chain_answer (hz : NoZeroHash P) (hS : Serving P S name key header) {n : UInt16}
    (hn : n.toNat < header.sectorSize.toNat) :
    chain (serialHashSector P) (answer P S name header n).prevHash (answer P S name header n).payload =
      header.sectorTipHash := by
  rw [hS.tip, Blob.tip_hashesOf P hz (by rw [File.length_sectors]; exact hS.size), ← sectors_answer P S name hn,
    HashChain.chain_append]
  rfl

omit [DecidableEq H] in
/-- The hash before the requested sectors is the chain over the sectors before them. -/
theorem prevHashOf_stored {db : DB H K G} {b : File} {m : Nat} {req : BlobReq}
    (hs : db.sectorHashes req.name = some (hashesOf P (b.sectors m))) (hm : m ≤ maxSectors)
    (hn : req.sectorSize.toNat ≤ m) :
    prevHashOf db req = .ok (chain (serialHashSector P) 0 (b.sectors req.sectorSize.toNat)) := by
  by_cases h0 : req.sectorSize = 0
  · simp only [prevHashOf, h0, if_true]
    rfl
  · have hpos : 0 < req.sectorSize.toNat := Nat.pos_of_ne_zero fun h => h0 (UInt16.toNat_inj.mp h)
    have hidx : (req.sectorSize - 1).toNat = req.sectorSize.toNat - 1 := by
      rw [UInt16.toNat_sub_of_le _ _ (by rw [UInt16.le_iff_toNat_le]; exact hpos)]; rfl
    have hle : ¬ (req.sectorSize - 1).toNat > maxSectors := by omega
    have hlt : (req.sectorSize - 1).toNat < maxSectors := by omega
    simp only [prevHashOf, h0, if_false, DB.getSectorHash, hs, hle, dif_pos hlt]
    simp only [hidx, hashesOf, File.length_sectors]
    rw [if_pos (by omega), Nat.sub_add_cancel hpos, File.take_sectors _ (by omega)]

theorem prevHashOf_eq (hS : Serving P S name key header) {e n : UInt16} (hn : n.toNat < header.sectorSize.toNat) :
    prevHashOf S.db ⟨name, e, n⟩ = .ok (chain (serialHashSector P) 0 ((S.blobs name).sectors n.toNat)) :=
  prevHashOf_stored hS.hashes hS.size (Nat.le_of_lt hn)

theorem onBlobReq_answer (hS : Serving P S name key header) {e n : UInt16} (he : e ≤ header.epochHeight)
    (hn : n.toNat < header.sectorSize.toNat) {now : Time} {cache : ResponseCache}
    (hcache : (cache.get now (cacheKey name e n)).1 = none) :
    (onBlobReq now S cache ⟨name, e, n⟩).1 = .ok (.blobRes (answer P S name header n)) := by
  have hsz := hS.size
  obtain ⟨locks, hlock⟩ := MultiLocker.tryRLock_free hS.unlocked
  obtain ⟨locks', hunlock⟩ := MultiLocker.rUnlock_of_tryRLock hlock
  have hread := readSectors_eq (S.blobs name) (header.sectorSize.toNat - n.toNat) n.toNat (by omega)
  rw [Nat.add_sub_cancel' (by omega)] at hread
  have hepoch : ¬ header.epochHeight < e := UInt16.not_lt.mpr he
  have hmax : ¬ n.toNat = maxSectors := by omega
  rcases hc : cache.get now (cacheKey name e n) with ⟨r, c⟩
  rw [hc] at hcache
  cases hcache
  simp only [onBlobReq, respond, hS.found, hepoch, hmax, if_false, hlock, serve, prevHashOf_eq hS hn, hc, hread, if_true, hunlock]
  rfl

/-! ## Convergence -/

/-- The client of a sync: it knows the key, and nothing bars or holds the name. -/
structure Ready (C : Shared H K G) (name : Name) (key : K) : Prop where
  info : ∃ info, C.db.nameInfo name = some info ∧ info.publicKey = key
  valid : validateName name = .ok ()
  nameBan : C.db.nameBans name = false
  headerBan : C.db.headerBans name = none
  unlocked : C.locks name = ⟨0, 0⟩

/-- What the client holds: nothing, a prefix of the server's epoch, or an epoch that may be left. -/
def Behind (P : Prims H K G) (now : Time) (C S : Shared H K G) (item : UpdateQueueItem H K) (header : Header H G) : Prop :=
  C.db.headers item.name = none ∨
  (∃ h, C.db.headers item.name = some h ∧ h.epochHeight = header.epochHeight ∧ h.sectorSize < header.sectorSize ∧
    h.sectorTipHash = tip (hashesOf P ((C.blobs item.name).sectors h.sectorSize.toNat)) ∧
    (C.blobs item.name).sectors h.sectorSize.toNat = (S.blobs item.name).sectors h.sectorSize.toNat) ∨
  (∃ h, C.db.headers item.name = some h ∧ h.epochHeight < header.epochHeight ∧
    checkRollover P now h zeroTime item = .ok ())

/-- A plan that continues what the client and the server share. -/
structure Continues (P : Prims H K G) (now : Time) (C S : Shared H K G) (item : UpdateQueueItem H K) (header : Header H G)
    (plan : Plan H) : Prop where
  admitted : check P now C.db item = .ok plan
  epoch : plan.epochHeight ≤ header.epochHeight
  size : plan.sectorSize.toNat < header.sectorSize.toNat
  schedule : plan.epochUpdated = true → plan.epochHeight ≤ currentEpoch P now item.name + 1
  shared : kept plan (C.blobs item.name) = (S.blobs item.name).sectors plan.sectorSize.toNat
  prevHash : plan.prevHash = chain (serialHashSector P) 0 (kept plan (C.blobs item.name))

theorem continues_of_behind (hz : NoZeroHash P) {now : Time} {C : Shared H K G} {item : UpdateQueueItem H K}
    (hS : Serving P S item.name key header) (hban : C.db.headerBans item.name = none)
    (he : item.epochHeight = header.epochHeight) (hn : item.sectorSize = header.sectorSize)
    (hb : Behind P now C S item header) : ∃ plan, Continues P now C S item header plan := by
  have hpos := hS.pos
  have hnoban : C.db.getHeaderBan (ε := UpdaterErr) item.name = .ok zeroTime := by simp only [DB.getHeaderBan, hban]
  have hfirst : (0 : UInt16) ≤ currentEpoch P now item.name + 1 := by simp
  rcases hb with hh | ⟨h, hh, hhe, hhn, htip, hshare⟩ | ⟨h, hh, hhe, hroll⟩
  · refine ⟨⟨0, 0, 0, true⟩, ?_, by simp, hpos, fun _ => hfirst, rfl, rfl⟩
    simp [check, hh, hnoban, Plan.ofHeader]
  · have hlt : h.sectorSize.toNat < header.sectorSize.toNat := UInt16.lt_iff_toNat_lt.mp hhn
    have hsz := hS.size
    refine ⟨⟨h.epochHeight, h.sectorSize, h.sectorTipHash, false⟩, ?_, by simp [hhe], hlt, by simp, hshare, ?_⟩
    · have hsync : ¬ h.sectorSize ≥ item.sectorSize := by rw [hn]; exact UInt16.not_le.mpr hhn
      simp [check, hh, hnoban, Plan.ofHeader, hhe, he, hsync]
    · rw [htip, Blob.tip_hashesOf P hz (by rw [File.length_sectors]; omega)]
      rfl
  · have hup : item.epochHeight > h.epochHeight := by rw [he]; exact hhe
    have hne : ¬ h.epochHeight = item.epochHeight := fun e => absurd (e ▸ hup) (UInt16.lt_irrefl _)
    have hback : ¬ item.epochHeight < h.epochHeight := UInt16.not_lt.mpr (UInt16.le_of_lt hup)
    refine ⟨⟨item.epochHeight, 0, 0, true⟩, ?_, by simp [he], hpos, fun _ => (checkRollover_ok hroll).2.2, rfl, rfl⟩
    simp [check, hh, hnoban, Plan.ofHeader, hne, hback, hup, hroll]

/-- The server's answer to the plan's request passes the client's checks. -/
theorem usable_answer (hz : NoZeroHash P) {now : Time} {C : Shared H K G} {item : UpdateQueueItem H K} {plan : Plan H}
    (hS : Serving P S item.name key header) (hC : Ready C item.name key) (hp : Continues P now C S item header plan) :
    Usable P C.db (plan.opts item.name) (answer P S item.name header plan.sectorSize) := by
  have hsz := hS.size
  have hlen := length_answer P S item.name hp.size
  have hlt := header.sectorSize.toNat_lt
  have hend : endSize plan.sectorSize (answer P S item.name header plan.sectorSize).payload = header.sectorSize :=
    UInt16.toNat_inj.mp (by rw [endSize_toNat (by omega), hlen])
  have hpos : (answer P S item.name header plan.sectorSize).payloadPosition = plan.sectorSize := rfl
  refine ⟨rfl, hp.epoch, rfl, by rw [hpos, hend]; exact hsz, ?_, ?_⟩
  · obtain ⟨info, hinfo, hkey⟩ := hC.info
    refine validateBlobUpdate_ok.mpr ⟨hC.valid, hC.nameBan, info, hinfo, ?_⟩
    rw [hpos, hend, chain_answer hz hS hp.size, hkey]
    have hsig := hS.signature
    rw [hS.root] at hsig
    exact hsig
  · show plan.prevHash = chain (serialHashSector P) 0 ((S.blobs item.name).sectors plan.sectorSize.toNat)
    rw [hp.prevHash, hp.shared]

/-- One run against an honest server. Whatever else arrives first is for other names; the
    server's answer to the run's own request comes next. Then the run returns nil, and the
    client holds the server's version: header, signature and sectors. -/
theorem updateBlob_syncs (hz : NoZeroHash P) {now : Time} {C : Shared H K G} {item : UpdateQueueItem H K}
    (hS : Serving P S item.name key header) (hC : Ready C item.name key) (he : item.epochHeight = header.epochHeight)
    (hn : item.sectorSize = header.sectorSize) (hb : Behind P now C S item header) (hcount : C.db.TakesHeader item.name)
    (himport : DB.Decodes C.db.lastNameImportHeight) :
    ∃ plan, check P now C.db item = .ok plan ∧
      ∀ (t : Time) (cache : ResponseCache), (cache.get t (cacheKey item.name plan.epochHeight plan.sectorSize)).1 = none →
        ∃ res, (onBlobReq t S cache (plan.opts item.name).request).1 = .ok (.blobRes res) ∧
          ∀ pre post : List (BlobRes H G), (∀ m ∈ pre, m.name ≠ item.name) →
            ∃ h gossip C', updateBlobToEnd P now item (pre ++ res :: post) C = (.ok ⟨some h, gossip⟩, C') ∧
              C'.db.headers item.name = some h ∧ h.epochHeight = header.epochHeight ∧ h.sectorSize = header.sectorSize ∧
              h.sectorTipHash = header.sectorTipHash ∧ h.signature = header.signature ∧
              (C'.blobs item.name).sectors header.sectorSize.toNat = (S.blobs item.name).sectors header.sectorSize.toNat := by
  obtain ⟨plan, hp⟩ := continues_of_behind hz hS hC.headerBan he hn hb
  have hu := usable_answer hz hS hC hp
  have hlen := length_answer P S item.name hp.size
  have hchain := chain_answer hz hS hp.size
  have hsectors := sectors_answer P S item.name hp.size
  refine ⟨plan, hp.admitted, fun t cache hcache => ⟨_, onBlobReq_answer hS hp.epoch hp.size hcache, ?_⟩⟩
  generalize hres : answer P S item.name header plan.sectorSize = res at hu hlen hchain hsectors
  intro pre post hpre
  have hsz := hS.size
  have hst : Stores P now item plan C res :=
    stores_of_usable hz hu hp.schedule (by omega) (by rw [hn, hlen]) hp.prevHash hcount
  -- responses for other names are skipped, the answer ends the sync
  have hsync : syncSectors P now (plan.opts item.name) (C.blobs item.name) ⟨C.db, startTx item plan, []⟩ (pre ++ res :: post) =
      (.ok (some (updateOf P res)), ⟨C.db, writeSectors (C.blobs item.name) (startTx item plan) res.payload, []⟩) := by
    rw [syncSectors_skip fun m hm => by simp only [receive, Plan.opts, hpre m hm, ne_eq, not_false_eq_true, if_true]]
    simp only [syncSectors, receive_usable (s := ⟨C.db, startTx item plan, []⟩) now (C.blobs item.name) hu]
  have hend := updateBlobToEnd_stored ((updateBlob_eq _ hp.admitted hC.unlocked).trans (apply_stores hst hsync))
  refine ⟨_, _, _, hend.trans (if_pos himport), ?_, he, hn, ?_, ?_, ?_⟩
  · simp only [store, DB.setHeader_headers]
    exact Function.update_self _ _ _
  · exact hst.tip.trans hchain
  · rw [← hres]; rfl
  · have hsynced := sectors_synced item plan (C.blobs item.name) res.payload (by omega)
    rw [hlen, hp.shared, hsectors] at hsynced
    simpa only [store, Function.update_self] using hsynced

end

/-! ## A host -/

section

open Symbolic (Sym Sig prims site fill names fresh weeks)

/-- The publisher's header over its sectors, at epoch 5, and a node that holds both. -/
def hosted (xs : List Sector) : Header Sym Sig :=
  ⟨site, 5, UInt16.ofNat xs.length, tip (hashesOf prims xs),
    Symbolic.sign 5 (UInt16.ofNat xs.length) (tip (hashesOf prims xs)), 0, weeks 5⟩

def hostOf (xs : List Sector) : Shared Sym Nat Sig :=
  { fresh with db := names.setHeader (hosted xs) (hashesOf prims xs), blobs := fun _ => File.ofSectors xs }

def host : Shared Sym Nat Sig := hostOf [fill 1, fill 2]

theorem toNat_hosted {xs : List Sector} (h : xs.length ≤ maxSectors) : (hosted xs).sectorSize.toNat = xs.length :=
  UInt16.toNat_ofNat_of_lt' (Nat.lt_of_le_of_lt h (by decide))

theorem serving_hostOf {xs : List Sector} (hpos : 1 ≤ xs.length) (hsize : xs.length ≤ maxSectors) :
    Serving prims (hostOf xs) site 1 (hosted xs) := by
  have hsectors : ((hostOf xs).blobs site).sectors (hosted xs).sectorSize.toNat = xs := by
    rw [toNat_hosted hsize]
    exact File.sectors_ofSectors xs
  refine ⟨rfl, ?_, ?_, ?_, ?_, rfl, ?_, rfl⟩
  · rw [toNat_hosted hsize]
    exact hpos
  · rw [toNat_hosted hsize]
    exact hsize
  · rw [hsectors]
    rfl
  · rw [hsectors]
    rfl
  · simp [prims, hosted, Symbolic.sign]

theorem ready_hostOf (xs : List Sector) : Ready (hostOf xs) site 1 :=
  ⟨⟨_, rfl, rfl⟩, rfl, rfl, rfl, rfl⟩

/-- A node that holds the first sector asks the host for the second. -/
theorem a_node_with_a_part_syncs_the_rest : ∃ plan : Plan Sym, ∃ res h gossip C',
    check prims (weeks 6) (hostOf [fill 1]).db (Symbolic.item 5 2) = .ok plan ∧ plan.sectorSize = 1 ∧
    (onBlobReq (weeks 6) host Util.Cache.new (plan.opts site).request).1 = .ok (.blobRes res) ∧
    updateBlobToEnd prims (weeks 6) (Symbolic.item 5 2) [res] (hostOf [fill 1]) = (.ok ⟨some h, gossip⟩, C') ∧
    C'.db.headers site = some h ∧ h.sectorSize = 2 ∧ h.signature = (hosted [fill 1, fill 2]).signature ∧
    (C'.blobs site).sectors 2 = [fill 1, fill 2] := by
  have hserving : Serving prims host site 1 (hosted [fill 1, fill 2]) := serving_hostOf (by decide) (by decide)
  have hb : Behind prims (weeks 6) (hostOf [fill 1]) host (Symbolic.item 5 2) (hosted [fill 1, fill 2]) :=
    .inr (.inl ⟨hosted [fill 1], rfl, rfl, by decide, rfl, rfl⟩)
  obtain ⟨plan, hplan, hrun⟩ :=
    updateBlob_syncs Symbolic.noZeroHash hserving (ready_hostOf [fill 1]) rfl rfl hb (.inl rfl) (by decide)
  obtain ⟨res, hres, hsync⟩ := hrun (weeks 6) Util.Cache.new rfl
  obtain ⟨h, gossip, C', heq, hh, -, hsize, -, hsig, hsec⟩ := hsync [] [] nofun
  have hone : plan.sectorSize = 1 := by
    rcases check_cases hplan with ⟨hnone, -⟩ | ⟨header, hsome, -, -, rfl⟩ | ⟨header, _, hsome, hlt, -⟩
    · cases hnone
    · cases hsome
      rfl
    · cases hsome
      exact absurd hlt (by decide)
  exact ⟨plan, res, h, gossip, C', hplan, hone, hres, heq, hh, hsize, hsig, hsec⟩

end

end Fnd.Protocol

/-
  Fnd.Rpc.Server — the RPC server's write transactions (`rpc/server.go`): `Checkout` opens
  a blob transaction and files it under a fresh ID, `WriteSector` appends to it, `Commit`
  checks its hashes and the publisher's signature and stores header and blob.

  Looking up an ID that is not there, or whose transaction has expired, converts a nil
  interface and panics. The commit's tip arrives as bytes: `none` when they are not 32.
-/

import Mathlib.Tactic.ByContra
import Fnd.Protocol.Updater
import Fnd.Util.Cache

namespace Fnd.Rpc

open Blob (File Tx TxErr ReadErr serialHash sealHash tip sectorBytes)
open Store (DB Header)
open Protocol (Shared currentEpoch)
open Util (MultiLocker Cache)

variable {H K G : Type}

/-- `TransactionExpiry`, in milliseconds. -/
def transactionExpiry : Int := 15000

structure Server where
  lastTxID : UInt32
  txStore : Cache UInt32 Tx

def Server.new : Server := ⟨0, Cache.new⟩

inductive RpcErr where
  /-- "cannot reset epoch ahead of schedule" -/
  | aheadOfSchedule
  | tx (e : TxErr)
  | noNameInfo
  | badTipHash
  | hash (e : ReadErr)
  | tipMismatch
  | badSignature
  | busy
  deriving DecidableEq, Repr

structure CheckoutReq where
  name : Name
  resetEpoch : Bool

structure CheckoutRes (H : Type) where
  txID : UInt32
  epochHeight : UInt16
  sectorSize : UInt16
  sectorTipHash : H

structure CommitReq (H G : Type) where
  txID : UInt32
  epochHeight : UInt32
  sectorSize : UInt32
  sectorTipHash : Option H
  signature : G
  broadcast : Bool

/-- A `Commit` call: its result with the update it gossiped, the header it stored, if any,
    and what it left. -/
structure CommitOut (H K G : Type) where
  res : Except (Fault RpcErr) (Option Wire.Update)
  stored : Option (Header H G)
  shared : Shared H K G
  server : Server

/-- `WriteSector`: the write error reported to the client, if any. -/
def writeSector (now : Time) (s : Shared H K G) (srv : Server) (txID : UInt32) (data : Bytes) :
    Except (Fault RpcErr) (Option TxErr) × Server :=
  match srv.txStore.get now txID with
  | (none, txs) => (.error .panic, { srv with txStore := txs })
  | (some tx, txs) =>
    match tx.writeSector (s.blobs tx.name) (Blob.zeroSector.copy data) with
    | .error e => (.ok (some e), { srv with txStore := txs })
    | .ok tx => (.ok none, { srv with txStore := txs.assign txID tx })

variable [Zero H] (P : Prims H K G)

/-- What `Checkout` starts from: epoch, size and tip of the stored header. -/
def base (now : Time) (db : DB H K G) (name : Name) : UInt16 × UInt16 × H :=
  match db.headers name with
  | none => (currentEpoch P now name, 0, 0)
  | some header => (header.epochHeight, header.sectorSize, header.sectorTipHash)

def checkout (now : Time) (s : Shared H K G) (srv : Server) (req : CheckoutReq) :
    Except (Fault RpcErr) (CheckoutRes H) × Server :=
  let txID := srv.lastTxID + 1
  let srv := { srv with lastTxID := txID }
  let (epochHeight, sectorSize, sectorTipHash) := base P now s.db req.name
  let seek (tx : Tx) (epochHeight sectorSize : UInt16) (sectorTipHash : H) : Except (Fault RpcErr) (CheckoutRes H) × Server :=
    match tx.seek (sectorSize.toNat * sectorBytes : Nat) .start with
    | .error e => (.error (.err (.tx e)), srv)
    | .ok tx =>
      (.ok ⟨txID, epochHeight, sectorSize, sectorTipHash⟩,
        { srv with txStore := srv.txStore.set now txID tx transactionExpiry })
  if req.resetEpoch then
    if epochHeight > currentEpoch P now req.name then (.error (.err .aheadOfSchedule), srv)
    else match (Tx.new req.name).truncate with
      | .error e => (.error (.err (.tx e)), srv)
      | .ok tx => seek tx (epochHeight + 1) 0 0
  else seek (Tx.new req.name) epochHeight sectorSize sectorTipHash

variable [DecidableEq H]

/-- `Commit` once the signature was checked: under the name's lock, the header, then the blob. -/
def commitLocked (now : Time) (s : Shared H K G) (srv : Server) (req : CommitReq H G) (name : Name) (tx : Tx)
    (tipHash : H) (hashes : Blob.SectorHashes H) : CommitOut H K G :=
  match s.locks.tryLock name with
  | none => ⟨.error (.err .busy), none, s, srv⟩
  | some _ =>
    -- the deferred `Unlock` frees the lock just taken
    let header : Header H G :=
      ⟨name, req.epochHeight.toUInt16, req.sectorSize.toUInt16, tipHash, req.signature, 0, now⟩
    match s.db.setHeaderTx header hashes with
    | .error f => ⟨.error f, none, s, srv⟩
    | .ok db =>
      let s := { s with db := db }
      match tx.commit (s.blobs name) with
      | .error e => ⟨.error (.err (.tx e)), some header, s, srv⟩
      | .ok (b, _) =>
        ⟨.ok (if req.broadcast then some ⟨name, header.epochHeight, header.sectorSize⟩ else none), some header,
          { s with blobs := Function.update s.blobs name b }, { srv with txStore := srv.txStore.del req.txID }⟩

def commit (now : Time) (s : Shared H K G) (srv : Server) (req : CommitReq H G) : CommitOut H K G :=
  match srv.txStore.get now req.txID with
  | (none, txs) => ⟨.error .panic, none, s, { srv with txStore := txs }⟩
  | (some tx, txs) =>
    let name := tx.name
    let srv := { srv with txStore := txs }
    match s.db.nameInfo name with
    | none => ⟨.error (.err .noNameInfo), none, s, srv⟩
    | some info =>
      match req.sectorTipHash with
      | none => ⟨.error (.err .badTipHash), none, s, srv⟩
      | some tipHash =>
        match serialHash P (s.blobs name) tx 0 req.sectorSize.toUInt16 with
        | (.error .panic, tx) => ⟨.error .panic, none, s, { srv with txStore := txs.assign req.txID tx }⟩
        | (.error (.err e), tx) => ⟨.error (.err (.hash e)), none, s, { srv with txStore := txs.assign req.txID tx }⟩
        | (.ok hashes, tx) =>
          let srv := { srv with txStore := txs.assign req.txID tx }
          if tip hashes ≠ tipHash then ⟨.error (.err .tipMismatch), none, s, srv⟩
          else if P.verifySigPub info.publicKey req.signature
              (sealHash P name req.epochHeight.toUInt16 req.sectorSize.toUInt16 tipHash 0) then
            commitLocked now s srv req name tx tipHash hashes
          else ⟨.error (.err .badSignature), none, s, srv⟩

/-! ## What a call can do to the transactions -/

section

variable {P} {now : Time} {s : Shared H K G} {srv : Server} {req : CommitReq H G}

/-- Every transaction of `srv'` was there before, as it is now; or it is `txID` and was
    changed by `f`. -/
def Follows (txID : UInt32) (f : Tx → Tx) (srv srv' : Server) : Prop :=
  srv'.lastTxID = srv.lastTxID ∧ ∀ id entry, srv'.txStore id = some entry →
    ∃ tx, srv.txStore id = some { entry with val := tx } ∧ (entry.val = tx ∨ id = txID ∧ entry.val = f tx)

theorem follows_get {f : Tx → Tx} {txs : Cache UInt32 Tx} {r : Option Tx} {id : UInt32}
    (h : srv.txStore.get now id = (r, txs)) : Follows id f srv { srv with txStore := txs } := by
  refine ⟨rfl, fun k entry hk => ?_⟩
  cases r with
  | some tx =>
    obtain ⟨rfl, -⟩ := Cache.get_some h
    exact ⟨entry.val, hk, .inl rfl⟩
  | none =>
    have h := Cache.get_none h
    subst h
    by_cases e : k = id
    · subst e; simp at hk
    · exact ⟨entry.val, by simpa [Function.update_of_ne e] using hk, .inl rfl⟩

theorem follows_assign {f : Tx → Tx} {txs : Cache UInt32 Tx} {tx tx' : Tx} {id : UInt32}
    (h : srv.txStore.get now id = (some tx, txs)) (ht : tx' = tx ∨ tx' = f tx) :
    Follows id f srv { srv with txStore := txs.assign id tx' } := by
  obtain ⟨rfl, expiry, hid⟩ := Cache.get_some h
  refine ⟨rfl, fun k entry hk => ?_⟩
  rcases Cache.assign_some hk with hold | ⟨rfl, hv, v, hold⟩
  · exact ⟨entry.val, hold, .inl rfl⟩
  · obtain rfl : v = tx := by rw [hid] at hold; cases hold; rfl
    exact ⟨v, hold, hv ▸ ht.imp_right fun h => ⟨rfl, h⟩⟩

theorem Follows.del {txID : UInt32} {f : Tx → Tx} {srv srv' : Server} (h : Follows txID f srv srv') (id : UInt32) :
    Follows txID f srv { srv' with txStore := srv'.txStore.del id } :=
  ⟨h.1, fun k entry hk => h.2 k entry (Cache.del_some hk).2⟩

/-- The store's side of a commit: nothing, or what `commitLocked` does with a signature
    checked over the fields it stores. -/
theorem commit_cases (P : Prims H K G) (now : Time) (s : Shared H K G) (srv : Server) (req : CommitReq H G) :
    ((commit P now s srv req).stored = none ∧ (commit P now s srv req).shared = s ∧
      ∀ u, (commit P now s srv req).res ≠ .ok u) ∨
    ∃ tx txs info hashes tx', srv.txStore.get now req.txID = (some tx, txs) ∧ s.db.nameInfo tx.name = some info ∧
      req.sectorTipHash = some (tip hashes) ∧
      serialHash P (s.blobs tx.name) tx 0 req.sectorSize.toUInt16 = (.ok hashes, tx') ∧
      P.verifySigPub info.publicKey req.signature
        (sealHash P tx.name req.epochHeight.toUInt16 req.sectorSize.toUInt16 (tip hashes) 0) = true ∧
      commit P now s srv req =
        commitLocked now s { srv with txStore := txs.assign req.txID tx' } req tx.name tx' (tip hashes) hashes := by
  rcases hget : srv.txStore.get now req.txID with ⟨_ | tx, txs⟩
  · left; simp [commit, hget]
  cases hinfo : s.db.nameInfo tx.name with
  | none => left; simp [commit, hget, hinfo]
  | some info =>
    cases htip : req.sectorTipHash with
    | none => left; simp [commit, hget, hinfo, htip]
    | some tipHash =>
      rcases hhash : serialHash P (s.blobs tx.name) tx 0 req.sectorSize.toUInt16 with ⟨(e | _) | hashes, tx'⟩
      · left; simp [commit, hget, hinfo, htip, hhash]
      · left; simp [commit, hget, hinfo, htip, hhash]
      · by_cases he : tip hashes = tipHash
        · subst he
          by_cases hsig : P.verifySigPub info.publicKey req.signature
              (sealHash P tx.name req.epochHeight.toUInt16 req.sectorSize.toUInt16 (tip hashes) 0) = true
          · exact .inr ⟨tx, txs, info, hashes, tx', rfl, hinfo, rfl, hhash, hsig, by
              simp [commit, hget, hinfo, htip, hhash, hsig]⟩
          · left; simp [commit, hget, hinfo, htip, hhash, hsig]
        · left; simp [commit, hget, hinfo, htip, hhash, he]

/-- A header that a commit stores has its signature checked over its own fields. -/
theorem commit_stored {header : Header H G} (h : (commit P now s srv req).stored = some header) :
    ∃ info, s.db.nameInfo header.name = some info ∧ header.reservedRoot = 0 ∧
      P.verifySigPub info.publicKey header.signature
        (sealHash P header.name header.epochHeight header.sectorSize header.sectorTipHash 0) = true := by
  rcases commit_cases P now s srv req with ⟨hn, -⟩ | ⟨tx, txs, info, hashes, tx', -, hinfo, -, -, hsig, hc⟩
  · rw [hn] at h; cases h
  rw [hc] at h
  cases hlock : s.locks.tryLock tx.name with
  | none => simp [commitLocked, hlock] at h
  | some locks =>
    simp only [commitLocked, hlock] at h
    split at h
    · cases h
    · cases hcommit : tx'.commit (s.blobs tx.name) <;> simp only [hcommit, Option.some.injEq] at h <;>
        (subst h; exact ⟨info, hinfo, rfl, hsig⟩)

def Server.Live (srv : Server) : Prop := ∀ id entry, srv.txStore id = some entry → entry.val.Live

theorem Server.Live.get (hl : srv.Live) {tx : Tx} {txs : Cache UInt32 Tx} {id : UInt32}
    (h : srv.txStore.get now id = (some tx, txs)) : tx.Live := by
  obtain ⟨-, expiry, hid⟩ := Cache.get_some h
  exact hl id _ hid

theorem Follows.live {txID : UInt32} {f : Tx → Tx} {srv srv' : Server} (h : Follows txID f srv srv')
    (hf : ∀ tx, tx.Live → (f tx).Live) (hl : srv.Live) : srv'.Live := by
  intro id entry he
  obtain ⟨tx, ht, hv⟩ := h.2 id entry he
  rcases hv with hv | ⟨-, hv⟩ <;> rw [hv]
  · exact hl id _ ht
  · exact hf tx (hl id _ ht)

def written (s : Shared H K G) (data : Bytes) (tx : Tx) : Tx :=
  match tx.writeSector (s.blobs tx.name) (Blob.zeroSector.copy data) with
  | .error _ => tx
  | .ok tx => tx

omit [Zero H] [DecidableEq H] in
theorem written_name (s : Shared H K G) (data : Bytes) (tx : Tx) : (written s data tx).name = tx.name := by
  unfold written Tx.writeSector
  by_cases hc : tx.closed = true
  · simp [hc]
  · by_cases hr : tx.removed = true <;> simp [hc, hr]

omit [Zero H] [DecidableEq H] in
theorem written_live (s : Shared H K G) (data : Bytes) {tx : Tx} (ht : tx.Live) : (written s data tx).Live := by
  obtain ⟨tx', hw, hlive, -⟩ := ht.writeSector (s.blobs tx.name) (Blob.zeroSector.copy data)
  simpa only [written, hw] using hlive

omit [Zero H] [DecidableEq H] in
/-- A write to a transaction that is found changes it and nothing else. -/
theorem writeSector_server (s : Shared H K G) (data : Bytes) {tx : Tx} {txs : Cache UInt32 Tx} {id : UInt32}
    (hget : srv.txStore.get now id = (some tx, txs)) :
    (writeSector now s srv id data).2 = { srv with txStore := txs.assign id (written s data tx) } := by
  cases hw : tx.writeSector (s.blobs tx.name) (Blob.zeroSector.copy data) with
  | error e =>
    obtain ⟨rfl, expiry, hid⟩ := Cache.get_some hget
    simp only [writeSector, hget, written, hw]
    rw [Cache.assign_self hid]
  | ok tx' => simp only [writeSector, hget, written, hw]

omit [Zero H] [DecidableEq H] in
theorem writeSector_served (s : Shared H K G) (data : Bytes) {tx : Tx} (hlive : tx.Live) {txs : Cache UInt32 Tx}
    {id : UInt32} (hget : srv.txStore.get now id = (some tx, txs)) :
    ∃ tx', writeSector now s srv id data = (.ok none, { srv with txStore := txs.assign id tx' }) ∧ tx'.Live ∧
      tx'.name = tx.name ∧ tx'.sectorSize = tx.sectorSize + 1 ∧
      tx'.view (s.blobs tx.name) =
        (tx.view (s.blobs tx.name)).writeSector tx.sectorSize.toNat (Blob.zeroSector.copy data) := by
  obtain ⟨tx', hw, hlive', hsz, hview⟩ := hlive.writeSector (s.blobs tx.name) (Blob.zeroSector.copy data)
  have hname : tx'.name = tx.name := by
    have hn := written_name s data tx
    simpa only [written, hw] using hn
  exact ⟨tx', by simp only [writeSector, hget, hw], hlive', hname, hsz, hview⟩

omit [Zero H] [DecidableEq H] in
theorem writeSector_follows (now : Time) (s : Shared H K G) (srv : Server) (txID : UInt32) (data : Bytes) :
    Follows txID (written s data) srv (writeSector now s srv txID data).2 := by
  rcases hget : srv.txStore.get now txID with ⟨_ | tx, txs⟩
  · simpa [writeSector, hget] using follows_get hget
  · rw [writeSector_server s data hget]
    exact follows_assign hget (.inr rfl)

omit [DecidableEq H] in
/-- With the signature checked, a live transaction is committed and deleted, unless the name
    is locked or the header count does not decode. -/
theorem commitLocked_server (now : Time) (s : Shared H K G) (srv : Server) (req : CommitReq H G) (name : Name) {tx : Tx}
    (ht : tx.Live) (tipHash : H) (hashes : Blob.SectorHashes H) :
    ((∀ u, (commitLocked now s srv req name tx tipHash hashes).res ≠ .ok u) ∧
      (commitLocked now s srv req name tx tipHash hashes).server = srv) ∨
    (∃ u, (commitLocked now s srv req name tx tipHash hashes).res = .ok u) ∧
      (commitLocked now s srv req name tx tipHash hashes).server = { srv with txStore := srv.txStore.del req.txID } := by
  cases hlock : s.locks.tryLock name with
  | none => left; simp [commitLocked, hlock]
  | some locks =>
    simp only [commitLocked, hlock]
    split
    · exact .inl ⟨nofun, rfl⟩
    · right; simp [Tx.commit, ht.1]

omit [DecidableEq H] in
theorem commitLocked_ok {name : Name} {tx : Tx} {tipHash : H} {hashes : Blob.SectorHashes H} {u : Option Wire.Update}
    (h : (commitLocked now s srv req name tx tipHash hashes).res = .ok u) : s.locks name = ⟨0, 0⟩ ∧ s.db.TakesHeader name := by
  cases hlock : s.locks.tryLock name with
  | none => simp [commitLocked, hlock] at h
  | some locks =>
    refine ⟨(MultiLocker.tryLock_eq_some.mp hlock).1, ?_⟩
    by_contra hcount
    simp [commitLocked, hlock, DB.setHeaderTx_eq, hcount] at h

/-- A checkout is accepted: an epoch that is reset is not ahead of its schedule, and one that
    goes on fits the blob. -/
def Accepts (P : Prims H K G) (now : Time) (db : DB H K G) (req : CheckoutReq) : Prop :=
  if req.resetEpoch then ¬ (base P now db req.name).1 > currentEpoch P now req.name
  else (base P now db req.name).2.1.toNat ≤ Blob.maxSectors

instance (P : Prims H K G) (now : Time) (db : DB H K G) (req : CheckoutReq) : Decidable (Accepts P now db req) :=
  inferInstanceAs (Decidable (if req.resetEpoch then _ else _))

/-- What an accepted checkout hands out. -/
def checkedOut (P : Prims H K G) (now : Time) (db : DB H K G) (req : CheckoutReq) : UInt16 × UInt16 × H :=
  if req.resetEpoch then ((base P now db req.name).1 + 1, 0, 0) else base P now db req.name

omit [DecidableEq H] in
/-- It files one transaction, at the stored size or, truncated, at zero. -/
theorem checkout_accepted (srv : Server) {req : CheckoutReq} (h : Accepts P now s.db req) : checkout P now s srv req =
    (.ok ⟨srv.lastTxID + 1, (checkedOut P now s.db req).1, (checkedOut P now s.db req).2.1, (checkedOut P now s.db req).2.2⟩,
      ⟨srv.lastTxID + 1, srv.txStore.set now (srv.lastTxID + 1)
        ⟨req.name, File.zero, (checkedOut P now s.db req).2.1, req.resetEpoch, false, false⟩ transactionExpiry⟩) := by
  unfold Accepts at h
  unfold checkedOut
  rcases hb : base P now s.db req.name with ⟨e, n, tip⟩
  rw [hb] at h
  cases hr : req.resetEpoch with
  | true =>
    simp only [hr, if_true] at h
    simp only [checkout, hb, hr, h, Tx.truncate, Tx.new, if_true, if_false, Bool.false_eq_true]
    rw [Tx.seek_start rfl, if_pos (by decide)]
    rfl
  | false =>
    simp only [hr, Bool.false_eq_true, if_false] at h
    simp only [checkout, hb, hr, Tx.new, if_false, Bool.false_eq_true]
    rw [Tx.seek_start rfl, if_pos h, UInt16.ofNat_toNat]

omit [DecidableEq H] in
theorem checkout_refused (srv : Server) {req : CheckoutReq} (h : ¬ Accepts P now s.db req) :
    ∃ e, checkout P now s srv req = (.error (.err e), { srv with lastTxID := srv.lastTxID + 1 }) := by
  unfold Accepts at h
  rcases hb : base P now s.db req.name with ⟨e, n, tip⟩
  rw [hb] at h
  cases hr : req.resetEpoch with
  | true =>
    simp only [hr, if_true, not_not] at h
    exact ⟨.aheadOfSchedule, by simp [checkout, hb, hr, h]⟩
  | false =>
    simp only [hr, Bool.false_eq_true, if_false] at h
    refine ⟨.tx .seekBeyondBounds, ?_⟩
    simp only [checkout, hb, hr, Tx.new, if_false, Bool.false_eq_true]
    rw [Tx.seek_start rfl, if_neg h]

omit [DecidableEq H] in
/-- A checkout fails, or files one transaction, at the stored size or, truncated, at zero. -/
theorem checkout_cases (P : Prims H K G) (now : Time) (s : Shared H K G) (srv : Server) (req : CheckoutReq) :
    (∃ f, checkout P now s srv req = (.error f, { srv with lastTxID := srv.lastTxID + 1 })) ∨
    ∃ (size : UInt16) (res : CheckoutRes H), size = (if req.resetEpoch then 0 else (base P now s.db req.name).2.1) ∧
      checkout P now s srv req =
        (.ok res, ⟨srv.lastTxID + 1, srv.txStore.set now (srv.lastTxID + 1)
          ⟨req.name, File.zero, size, req.resetEpoch, false, false⟩ transactionExpiry⟩) := by
  by_cases h : Accepts P now s.db req
  · refine .inr ⟨_, _, ?_, checkout_accepted srv h⟩
    unfold checkedOut
    split <;> rfl
  · obtain ⟨e, he⟩ := checkout_refused srv h
    exact .inl ⟨_, he⟩

/-- A commit may fix the clone of its transaction; one that succeeds deletes it. -/
theorem commit_server (P : Prims H K G) (now : Time) (s : Shared H K G) (req : CommitReq H G) (hl : srv.Live)
    {tx : Tx} {txs : Cache UInt32 Tx} (hget : srv.txStore.get now req.txID = (some tx, txs)) :
    ∃ tx', (tx' = tx ∨ tx' = tx.lazyInitialize (s.blobs tx.name)) ∧
      ((∀ u, (commit P now s srv req).res ≠ .ok u) ∧
          (commit P now s srv req).server = { srv with txStore := txs.assign req.txID tx' } ∨
        (∃ u, (commit P now s srv req).res = .ok u) ∧
          (commit P now s srv req).server = { srv with txStore := (txs.assign req.txID tx').del req.txID }) := by
  have hself : txs.assign req.txID tx = txs := by
    obtain ⟨rfl, expiry, hid⟩ := Cache.get_some hget
    exact Cache.assign_self hid
  cases hinfo : s.db.nameInfo tx.name with
  | none => exact ⟨tx, .inl rfl, .inl (by simp [commit, hget, hinfo, hself])⟩
  | some info =>
    cases htip : req.sectorTipHash with
    | none => exact ⟨tx, .inl rfl, .inl (by simp [commit, hget, hinfo, htip, hself])⟩
    | some tipHash =>
      have hlive := hl.get hget
      have hhash := Blob.serialHash_eq P hlive (s.blobs tx.name) req.sectorSize.toUInt16
      generalize hn : (if req.sectorSize.toUInt16.toNat = 0 then tx else tx.lazyInitialize (s.blobs tx.name)) = tx' at hhash
      have htx : tx' = tx ∨ tx' = tx.lazyInitialize (s.blobs tx.name) := by
        rw [← hn]; split
        · exact .inl rfl
        · exact .inr rfl
      have hlive' : tx'.Live := by
        rcases htx with rfl | rfl
        · exact hlive
        · exact ⟨by simpa using hlive.1, by simpa using hlive.2⟩
      refine ⟨tx', htx, ?_⟩
      by_cases hsz : req.sectorSize.toUInt16.toNat ≤ Blob.maxSectors
      · rw [if_pos hsz] at hhash
        simp only [commit, hget, hinfo, htip, hhash]
        split
        · exact .inl ⟨nofun, rfl⟩
        split
        · exact commitLocked_server now s { srv with txStore := txs.assign req.txID tx' } req tx.name hlive' tipHash _
        · exact .inl ⟨nofun, rfl⟩
      · rw [if_neg hsz] at hhash
        simp only [commit, hget, hinfo, htip, hhash]
        exact .inl ⟨nofun, trivial⟩

theorem commit_follows (P : Prims H K G) (now : Time) (s : Shared H K G) (req : CommitReq H G) (hl : srv.Live) :
    Follows req.txID (fun tx => tx.lazyInitialize (s.blobs tx.name)) srv (commit P now s srv req).server := by
  rcases hget : srv.txStore.get now req.txID with ⟨_ | tx, txs⟩
  · simpa [commit, hget] using follows_get hget
  obtain ⟨tx', htx, ⟨-, hs⟩ | ⟨-, hs⟩⟩ := commit_server P now s req hl hget <;> rw [hs]
  · exact follows_assign hget htx
  · exact (follows_assign hget htx).del _

omit [DecidableEq H] in
theorem Server.Live.checkout (hl : srv.Live) (P : Prims H K G) (now : Time) (s : Shared H K G) (req : CheckoutReq) :
    (checkout P now s srv req).2.Live := by
  rcases checkout_cases P now s srv req with ⟨f, hc⟩ | ⟨size, res, -, hc⟩ <;> rw [hc]
  · exact hl
  · intro id entry he
    by_cases hid : id = srv.lastTxID + 1
    · subst hid
      simp only [Cache.set, Function.update_self] at he
      cases he; exact ⟨rfl, rfl⟩
    · simp only [Cache.set, Function.update_of_ne hid] at he
      exact hl id entry he

omit [Zero H] [DecidableEq H] in
theorem Server.Live.writeSector (hl : srv.Live) (now : Time) (s : Shared H K G) (txID : UInt32) (data : Bytes) :
    (writeSector now s srv txID data).2.Live :=
  (writeSector_follows now s srv txID data).live (fun _ ht => written_live s data ht) hl

theorem Server.Live.commit (hl : srv.Live) (P : Prims H K G) (now : Time) (s : Shared H K G) (req : CommitReq H G) :
    (commit P now s srv req).server.Live :=
  (commit_follows P now s req hl).live (fun _ ht => ⟨by simpa using ht.1, by simpa using ht.2⟩) hl

/-- The sectors a commit stores: those its transaction reads. -/
def committedHashes (P : Prims H K G) (s : Shared H K G) (req : CommitReq H G) (tx : Tx) : Blob.SectorHashes H :=
  Blob.hashesOf P ((tx.view (s.blobs tx.name)).sectors req.sectorSize.toUInt16.toNat)

def committedHeader (P : Prims H K G) (now : Time) (s : Shared H K G) (req : CommitReq H G) (tx : Tx) : Header H G :=
  ⟨tx.name, req.epochHeight.toUInt16, req.sectorSize.toUInt16, tip (committedHashes P s req tx), req.signature, 0, now⟩

/-- A live transaction whose sectors were hashed commits what it reads. -/
theorem commit_hashed {tx : Tx} (ht : tx.Live) (b : File) (n : Nat) :
    (if n = 0 then tx else tx.lazyInitialize b).commit b =
      .ok (tx.view b, { (if n = 0 then tx else tx.lazyInitialize b) with closed := true }) := by
  split <;> simp [Tx.commit, ht.1, ht.2]

/-- A commit on a live transaction changes nothing in the store, or succeeds, with the
    sectors its transaction reads. -/
theorem commit_live_cases (P : Prims H K G) (now : Time) (s : Shared H K G) (req : CommitReq H G) (hl : srv.Live) :
    ((commit P now s srv req).stored = none ∧ (commit P now s srv req).shared = s ∧
      ∀ u, (commit P now s srv req).res ≠ .ok u) ∨
    ∃ tx expiry, srv.txStore req.txID = some ⟨tx, expiry⟩ ∧ s.locks tx.name = ⟨0, 0⟩ ∧
      req.sectorSize.toUInt16.toNat ≤ Blob.maxSectors ∧
      (commit P now s srv req).stored = some (committedHeader P now s req tx) ∧
      (commit P now s srv req).shared =
        { s with
          db := s.db.setHeader (committedHeader P now s req tx) (committedHashes P s req tx)
          blobs := Function.update s.blobs tx.name (tx.view (s.blobs tx.name)) } ∧
      ∃ u, (commit P now s srv req).res = .ok u := by
  rcases commit_cases P now s srv req with h | ⟨tx, txs, info, hashes, tx', hget, -, htip, hhash, -, hc⟩
  · exact .inl h
  have hlive := hl.get hget
  rw [Blob.serialHash_eq P hlive] at hhash
  obtain ⟨h1, h2⟩ := Prod.mk.inj hhash
  have hsz : req.sectorSize.toUInt16.toNat ≤ Blob.maxSectors := by
    by_contra hc; rw [if_neg hc] at h1; cases h1
  rw [if_pos hsz] at h1
  obtain rfl := Except.ok.inj h1
  have hcommit : tx'.commit (s.blobs tx.name) = .ok (tx.view (s.blobs tx.name), { tx' with closed := true }) := by
    subst h2
    exact commit_hashed hlive _ _
  obtain ⟨-, expiry, hid⟩ := Cache.get_some hget
  rw [hc]
  cases hlock : s.locks.tryLock tx.name with
  | none => left; simp [commitLocked, hlock]
  | some locks =>
    by_cases hcount : s.db.TakesHeader tx.name
    · simp only [commitLocked, hlock, DB.setHeaderTx_eq, hcount, if_true, hcommit]
      exact .inr ⟨tx, expiry, hid, (MultiLocker.tryLock_eq_some.mp hlock).1, hsz, rfl, rfl, _, rfl⟩
    · simp only [commitLocked, hlock, DB.setHeaderTx_eq, hcount, if_false]
      exact .inl ⟨trivial, trivial, nofun⟩

/-- A commit that passes every check: the tip is that of what its transaction reads, the
    signature verifies, the name is free and its header can be counted. -/
theorem commit_accepted (P : Prims H K G) (now : Time) (s : Shared H K G) (srv : Server) (req : CommitReq H G) {tx : Tx}
    (hlive : tx.Live) {txs : Cache UInt32 Tx} {info : Store.NameInfo K}
    (hget : srv.txStore.get now req.txID = (some tx, txs)) (hinfo : s.db.nameInfo tx.name = some info)
    (hsz : req.sectorSize.toUInt16.toNat ≤ Blob.maxSectors)
    (htip : req.sectorTipHash = some (tip (committedHashes P s req tx)))
    (hsig : P.verifySigPub info.publicKey req.signature (sealHash P tx.name req.epochHeight.toUInt16
      req.sectorSize.toUInt16 (tip (committedHashes P s req tx)) 0) = true)
    (hlock : s.locks tx.name = ⟨0, 0⟩) (hcount : s.db.TakesHeader tx.name) :
    (commit P now s srv req).shared =
      { s with
        db := s.db.setHeader (committedHeader P now s req tx) (committedHashes P s req tx)
        blobs := Function.update s.blobs tx.name (tx.view (s.blobs tx.name)) } ∧
    (commit P now s srv req).res =
      .ok (if req.broadcast then some ⟨tx.name, req.epochHeight.toUInt16, req.sectorSize.toUInt16⟩ else none) := by
  have hhash := Blob.serialHash_eq P hlive (s.blobs tx.name) req.sectorSize.toUInt16
  rw [if_pos hsz] at hhash
  have htry := MultiLocker.tryLock_eq_some.mpr ⟨hlock, rfl⟩
  simp only [committedHashes] at htip hsig
  simp only [commit, hget, hinfo, htip, hhash, ne_eq, not_true_eq_false, if_false, hsig, if_true, commitLocked, htry,
    DB.setHeaderTx_eq, hcount, commit_hashed hlive]
  exact ⟨rfl, trivial⟩

end

end Fnd.Rpc

/-
  Fnd.Protocol.Syncer — `SyncSectors` and `validateBlobUpdate` (`protocol/syncer.go`).

  The responses are the list of `BlobRes` messages in the order the loop receives them,
  from whatever peers; its end is the timeout. Each one is skipped, ends the sync with an
  error, or is used (`receive`): the first that is not skipped decides (`syncSectors`).
  `receivedPayloads` only ever holds the position of the response that ended the call, so
  at every response looked at it is empty. A goroutine that outlives an error may still
  look at one more response; it can then only record one more ban and proof.
-/

import Fnd.Blob.Hash
import Fnd.Protocol.Names
import Fnd.Store.DB

namespace Fnd.Protocol

open Blob (Sector File Tx serialHashSector sealHash maxSectors)
open Store (DB Header)
open Wire (BlobRes BlobReq EquivocationProof Update)
open HashChain (chain)

variable {H K G : Type} (P : Prims H K G)

inductive ValidateErr where
  | invalidName (e : NameErr)
  | nameBanned
  | noNameInfo
  /-- `ErrInvalidPayloadSignature` -/
  | invalidPayloadSignature
  deriving DecidableEq, Repr

def validateBlobUpdate (db : DB H K G) (name : Name) (epochHeight sectorSize : UInt16) (sectorTipHash reservedRoot : H)
    (sig : G) : Except (Fault ValidateErr) Unit :=
  match validateName name with
  | .error .panic => .error .panic
  | .error (.err e) => .error (.err (.invalidName e))
  | .ok () =>
    if db.nameBans name then .error (.err .nameBanned)
    else match db.nameInfo name with
      | none => .error (.err .noNameInfo)
      | some info =>
        if P.verifySigPub info.publicKey sig (sealHash P name epochHeight sectorSize sectorTipHash reservedRoot) then .ok ()
        else .error (.err .invalidPayloadSignature)

inductive SyncErr where
  /-- `ErrInvalidPayloadSignature` -/
  | invalidPayloadSignature
  /-- `ErrPayloadEquivocation` -/
  | payloadEquivocation
  deriving DecidableEq, Repr

structure SyncUpdate (H G : Type) where
  sectorTipHash : H
  reservedRoot : H
  signature : G
  deriving DecidableEq

structure SyncSectorsOpts (H : Type) where
  epochHeight : UInt16
  sectorSize : UInt16
  prevHash : H
  name : Name

/-- The request sent to up to seven of the item's peers. -/
def SyncSectorsOpts.request (opts : SyncSectorsOpts H) : BlobReq := ⟨opts.name, opts.epochHeight, opts.sectorSize⟩

/-- What the sync has changed so far: the store, its transaction, the updates gossiped. -/
structure Sync (H K G : Type) where
  db : DB H K G
  tx : Tx
  gossip : List Update

/-- How the loop leaves the `select` for one response. -/
inductive Received (H G : Type) where
  | skipped
  | failed (e : SyncErr)
  | panicked
  | processed (u : SyncUpdate H G)

/-- The `uint16` size after the payload. -/
def endSize (position : UInt16) (payload : List Sector) : UInt16 := position + UInt16.ofNat payload.length

theorem endSize_toNat {position : UInt16} {payload : List Sector} (h : position.toNat + payload.length < 65536) :
    (endSize position payload).toNat = position.toNat + payload.length := by
  simp only [endSize, UInt16.toNat_add, UInt16.toNat_ofNat']
  omega

/-- A failed write is logged and the next sector tried. -/
def writeSectors (b : File) (tx : Tx) (payload : List Sector) : Tx :=
  payload.foldl (fun tx sector => match tx.writeSector b sector with | .ok tx => tx | .error _ => tx) tx

/-- The proof recorded for a response that conflicts with the stored header. -/
def proofOf (msg : BlobRes H G) (header : Header H G) : EquivocationProof H G where
  name := msg.name
  remoteEpochHeight := msg.epochHeight
  remotePayloadPosition := msg.payloadPosition
  remotePrevHash := msg.prevHash
  remoteReservedRoot := msg.reservedRoot
  remotePayload := msg.payload
  remoteSignature := msg.signature
  localEpochHeight := header.epochHeight
  localSectorSize := header.sectorSize
  localSectorTipHash := header.sectorTipHash
  localReservedRoot := header.reservedRoot
  localSignature := header.signature

variable [DecidableEq H]

def receive (now : Time) (opts : SyncSectorsOpts H) (b : File) (s : Sync H K G) (msg : BlobRes H G) :
    Received H G × Sync H K G :=
  if msg.name ≠ opts.name then (.skipped, s)
  else if opts.epochHeight > msg.epochHeight then (.skipped, s)
  else if opts.sectorSize ≠ msg.payloadPosition then (.skipped, s)
  else if (endSize msg.payloadPosition msg.payload).toNat > maxSectors then (.skipped, s)
  else
    let sectorTipHash := chain (serialHashSector P) msg.prevHash msg.payload
    match validateBlobUpdate P s.db msg.name msg.epochHeight (endSize msg.payloadPosition msg.payload) sectorTipHash
        msg.reservedRoot msg.signature with
    | .error .panic => (.panicked, s)
    | .error (.err _) => (.failed .invalidPayloadSignature, s)
    | .ok () =>
      if opts.prevHash ≠ msg.prevHash then
        if opts.epochHeight = msg.epochHeight then
          if (s.db.equivocationProofs msg.name).isSome then (.failed .payloadEquivocation, s)
          else match s.db.headers msg.name with
            -- the `break` leaves the select, not the loop, and no error is sent
            | none => (.skipped, s)
            | some header =>
              (.failed .payloadEquivocation,
                { s with
                  db := (s.db.setHeaderBan now msg.name zeroTime).setEquivocationProof msg.name (proofOf msg header)
                  gossip := s.gossip ++ [⟨msg.name, msg.epochHeight, 0⟩] })
        else (.failed .payloadEquivocation, s)
      else (.processed ⟨sectorTipHash, msg.reservedRoot, msg.signature⟩, { s with tx := writeSectors b s.tx msg.payload })

/-- `SyncSectors`; on a timeout neither an update nor an error. -/
def syncSectors (now : Time) (opts : SyncSectorsOpts H) (b : File) : Sync H K G → List (BlobRes H G) →
    Except (Fault SyncErr) (Option (SyncUpdate H G)) × Sync H K G
  | s, [] => (.ok none, s)
  | s, msg :: msgs =>
    match receive P now opts b s msg with
    | (.skipped, s) => syncSectors now opts b s msgs
    | (.failed e, s) => (.error (.err e), s)
    | (.panicked, s) => (.error .panic, s)
    | (.processed u, s) => (.ok (some u), s)

/-! ## What a response can do -/

section

variable {P} {now : Time} {opts : SyncSectorsOpts H} {b : File} {s : Sync H K G} {msg : BlobRes H G}

omit [DecidableEq H] in
theorem validateBlobUpdate_ok {db : DB H K G} {name : Name} {e n : UInt16} {tip root : H} {sig : G} :
    validateBlobUpdate P db name e n tip root sig = .ok () ↔
      validateName name = .ok () ∧ db.nameBans name = false ∧
        ∃ info, db.nameInfo name = some info ∧ P.verifySigPub info.publicKey sig (sealHash P name e n tip root) = true := by
  unfold validateBlobUpdate
  constructor
  · intro h
    split at h <;> try cases h
    rename_i hv
    split at h
    · cases h
    · rename_i hb
      split at h
      · cases h
      · rename_i info hi
        split at h
        · rename_i hs; exact ⟨hv, by simpa using hb, info, hi, hs⟩
        · cases h
  · rintro ⟨hv, hb, info, hi, hs⟩
    simp [hv, hb, hi, hs]

/-- The checks a response passes that ends the sync with an update. -/
structure Usable (P : Prims H K G) (db : DB H K G) (opts : SyncSectorsOpts H) (msg : BlobRes H G) : Prop where
  name : msg.name = opts.name
  epoch : opts.epochHeight ≤ msg.epochHeight
  position : opts.sectorSize = msg.payloadPosition
  size : (endSize msg.payloadPosition msg.payload).toNat ≤ maxSectors
  valid : validateBlobUpdate P db msg.name msg.epochHeight (endSize msg.payloadPosition msg.payload)
    (chain (serialHashSector P) msg.prevHash msg.payload) msg.reservedRoot msg.signature = .ok ()
  prevHash : opts.prevHash = msg.prevHash

def updateOf (P : Prims H K G) (msg : BlobRes H G) : SyncUpdate H G :=
  ⟨chain (serialHashSector P) msg.prevHash msg.payload, msg.reservedRoot, msg.signature⟩

/-- Nothing, or a ban of `name` at `now` with a proof. -/
def BanStep (now : Time) (name : Name) (db db' : DB H K G) : Prop :=
  db' = db ∨ ∃ proof, db' = (db.setHeaderBan now name zeroTime).setEquivocationProof name proof

structure SameHeaders (db db' : DB H K G) : Prop where
  headers : db'.headers = db.headers
  sectorHashes : db'.sectorHashes = db.sectorHashes
  nameInfo : db'.nameInfo = db.nameInfo

omit [DecidableEq H] in
theorem BanStep.sameHeaders {name : Name} {db db' : DB H K G} (h : BanStep now name db db') : SameHeaders db db' := by
  rcases h with rfl | ⟨proof, rfl⟩ <;> exact ⟨rfl, rfl, rfl⟩

omit [DecidableEq H] in
theorem BanStep.headerBans {name : Name} {db db' : DB H K G} (h : BanStep now name db db') (name' : Name) :
    db'.headerBans name' = db.headerBans name' ∨ db'.headerBans name' = some (DB.mustEncodeInt (unix now)) := by
  rcases h with rfl | ⟨proof, rfl⟩
  · exact .inl rfl
  · by_cases he : name' = name
    · subst he
      exact .inr (by simp [DB.setHeaderBan])
    · exact .inl (by simp [DB.setHeaderBan, he])

theorem receive_usable (now : Time) (b : File) (h : Usable P s.db opts msg) :
    receive P now opts b s msg = (.processed (updateOf P msg), { s with tx := writeSectors b s.tx msg.payload }) := by
  have he : ¬ opts.epochHeight > msg.epochHeight := by simpa using h.epoch
  have hs : ¬ (endSize msg.payloadPosition msg.payload).toNat > maxSectors := by have := h.size; omega
  simp only [receive, h.name, he, h.position, hs, h.prevHash, ne_eq, not_true_eq_false, if_false]
  rw [← h.name, h.valid]
  rfl

/-- The checks a response passes that is taken for an equivocation: signed, at the sync's
    epoch and position, after other sectors. -/
structure Equivocates (P : Prims H K G) (db : DB H K G) (opts : SyncSectorsOpts H) (msg : BlobRes H G) : Prop where
  name : msg.name = opts.name
  epoch : msg.epochHeight = opts.epochHeight
  position : opts.sectorSize = msg.payloadPosition
  size : (endSize msg.payloadPosition msg.payload).toNat ≤ maxSectors
  valid : validateBlobUpdate P db msg.name msg.epochHeight (endSize msg.payloadPosition msg.payload)
    (chain (serialHashSector P) msg.prevHash msg.payload) msg.reservedRoot msg.signature = .ok ()
  prevHash : opts.prevHash ≠ msg.prevHash

omit [DecidableEq H] in
/-- The ban for a response, with the proof it makes against the stored header. -/
def banWith (now : Time) (db : DB H K G) (msg : BlobRes H G) (header : Header H G) : DB H K G :=
  (db.setHeaderBan now msg.name zeroTime).setEquivocationProof msg.name (proofOf msg header)

omit [DecidableEq H] in
theorem banWith_equivocationProofs (now : Time) (db : DB H K G) (msg : BlobRes H G) (header : Header H G) :
    (banWith now db msg header).equivocationProofs msg.name = some (proofOf msg header) := Function.update_self _ _ _

/-- An equivocation ends the sync; it is recorded if no proof is stored yet. -/
theorem receive_equivocates (now : Time) (b : File) (h : Equivocates P s.db opts msg) {header : Header H G}
    (hh : s.db.headers msg.name = some header) :
    receive P now opts b s msg = (.failed .payloadEquivocation,
      if (s.db.equivocationProofs msg.name).isSome then s
      else { s with db := banWith now s.db msg header, gossip := s.gossip ++ [⟨msg.name, msg.epochHeight, 0⟩] }) := by
  have he : ¬ opts.epochHeight > msg.epochHeight := by rw [h.epoch]; exact UInt16.lt_irrefl _
  have hs : ¬ (endSize msg.payloadPosition msg.payload).toNat > maxSectors := Nat.not_lt.mpr h.size
  simp only [receive, if_neg (not_not_intro h.name), if_neg he, if_neg (not_not_intro h.position), if_neg hs, h.valid,
    if_pos h.prevHash, if_pos h.epoch.symm, hh]
  split <;> rfl

/-- A response is skipped, panics, is refused, is an equivocation that is not on record yet,
    or is used. -/
theorem receive_cases (P : Prims H K G) (now : Time) (opts : SyncSectorsOpts H) (b : File) (s : Sync H K G)
    (msg : BlobRes H G) :
    receive P now opts b s msg = (.skipped, s) ∨
    receive P now opts b s msg = (.panicked, s) ∨
    (∃ e, receive P now opts b s msg = (.failed e, s)) ∨
    (Equivocates P s.db opts msg ∧ s.db.equivocationProofs msg.name = none ∧
      ∃ header, s.db.headers msg.name = some header) ∨
    Usable P s.db opts msg := by
  by_cases hn : msg.name ≠ opts.name
  · exact .inl (by simp only [receive, if_pos hn])
  by_cases he : opts.epochHeight > msg.epochHeight
  · exact .inl (by simp only [receive, if_neg hn, if_pos he])
  by_cases hp : opts.sectorSize ≠ msg.payloadPosition
  · exact .inl (by simp only [receive, if_neg hn, if_neg he, if_pos hp])
  by_cases hs : (endSize msg.payloadPosition msg.payload).toNat > maxSectors
  · exact .inl (by simp only [receive, if_neg hn, if_neg he, if_neg hp, if_pos hs])
  cases hv : validateBlobUpdate P s.db msg.name msg.epochHeight (endSize msg.payloadPosition msg.payload)
      (chain (serialHashSector P) msg.prevHash msg.payload) msg.reservedRoot msg.signature with
  | error f =>
    simp only [receive, if_neg hn, if_neg he, if_neg hp, if_neg hs, hv]
    cases f with
    | panic => exact .inr (.inl rfl)
    | err e => exact .inr (.inr (.inl ⟨_, rfl⟩))
  | ok _ =>
    have hn' : msg.name = opts.name := Decidable.not_not.mp hn
    have hp' : opts.sectorSize = msg.payloadPosition := Decidable.not_not.mp hp
    by_cases hh : opts.prevHash ≠ msg.prevHash
    · simp only [receive, if_neg hn, if_neg he, if_neg hp, if_neg hs, hv, if_pos hh]
      by_cases heq : opts.epochHeight = msg.epochHeight
      · simp only [if_pos heq]
        cases hproof : s.db.equivocationProofs msg.name with
        | some proof => exact .inr (.inr (.inl ⟨_, rfl⟩))
        | none =>
          cases hheader : s.db.headers msg.name with
          | none => exact .inl rfl
          | some header => exact .inr (.inr (.inr (.inl ⟨⟨hn', heq.symm, hp', Nat.not_lt.mp hs, hv, hh⟩, rfl, header, rfl⟩)))
      · exact .inr (.inr (.inl ⟨_, by rw [if_neg heq]⟩))
    · exact .inr (.inr (.inr (.inr ⟨hn', UInt16.not_lt.mp he, hp', Nat.not_lt.mp hs, hv, Decidable.not_not.mp hh⟩)))

/-- The response that decides the sync: the first that is not skipped. -/
def deciding (P : Prims H K G) (now : Time) (opts : SyncSectorsOpts H) (b : File) (s : Sync H K G)
    (msgs : List (BlobRes H G)) : Option (BlobRes H G) :=
  msgs.find? fun msg => match receive P now opts b s msg with | (.skipped, _) => false | _ => true

/-- A sync ends with the update of the deciding response, which passed every check, or
    without an update and with at most a ban. -/
theorem syncSectors_cases (P : Prims H K G) (now : Time) (opts : SyncSectorsOpts H) (b : File) (s : Sync H K G) :
    ∀ msgs : List (BlobRes H G),
      (∃ msg ∈ msgs, deciding P now opts b s msgs = some msg ∧ Usable P s.db opts msg ∧
        syncSectors P now opts b s msgs =
          (.ok (some (updateOf P msg)), { s with tx := writeSectors b s.tx msg.payload })) ∨
      (∃ r s', syncSectors P now opts b s msgs = (r, s') ∧ (∀ u, r ≠ .ok (some u)) ∧ BanStep now opts.name s.db s'.db) := by
  intro msgs
  induction msgs with
  | nil => exact .inr ⟨.ok none, s, rfl, nofun, .inl rfl⟩
  | cons msg msgs ih =>
    rcases receive_cases P now opts b s msg with h | h | ⟨e, h⟩ | ⟨he, hnone, header, hh⟩ | hu
    · rcases ih with ⟨m, hm, hd, hu, hr⟩ | ⟨r, s', hr, hne, hb⟩
      · refine .inl ⟨m, List.mem_cons_of_mem _ hm, ?_, hu, ?_⟩
        · simpa only [deciding, List.find?_cons, h] using hd
        · simpa only [syncSectors, h] using hr
      · exact .inr ⟨r, s', by simpa only [syncSectors, h] using hr, hne, hb⟩
    · exact .inr ⟨.error .panic, s, by simp only [syncSectors, h], nofun, .inl rfl⟩
    · exact .inr ⟨.error (.err e), s, by simp only [syncSectors, h], nofun, .inl rfl⟩
    · have h := receive_equivocates now b he hh
      rw [hnone] at h
      exact .inr ⟨.error (.err .payloadEquivocation), _, by simp only [syncSectors, h]; rfl, nofun,
        .inr ⟨proofOf msg header, by rw [← he.name]; rfl⟩⟩
    · have h := receive_usable now b hu
      refine .inl ⟨msg, List.mem_cons_self, ?_, hu, by simp only [syncSectors, h]⟩
      simp only [deciding, List.find?_cons, h]

/-- The sync is the one with the deciding response alone; without one, a timeout. -/
theorem syncSectors_deciding (P : Prims H K G) (now : Time) (opts : SyncSectorsOpts H) (b : File) (s : Sync H K G) :
    ∀ msgs : List (BlobRes H G), syncSectors P now opts b s msgs =
      match deciding P now opts b s msgs with
      | none => (.ok none, s)
      | some msg => syncSectors P now opts b s [msg] := by
  intro msgs
  induction msgs with
  | nil => rfl
  | cons msg msgs ih =>
    rcases receive_cases P now opts b s msg with h | h | ⟨e, h⟩ | ⟨he, -, header, hh⟩ | hu
    · simp only [syncSectors, deciding, List.find?_cons, h] at ih ⊢
      exact ih
    · simp only [syncSectors, deciding, List.find?_cons, h]
    · simp only [syncSectors, deciding, List.find?_cons, h]
    · simp only [syncSectors, deciding, List.find?_cons, receive_equivocates now b he hh]
    · simp only [syncSectors, deciding, List.find?_cons, receive_usable now b hu]

/-- A sync leaves the store as it was unless an equivocation decides it that is not on record. -/
theorem syncSectors_db (P : Prims H K G) (now : Time) (opts : SyncSectorsOpts H) (b : File) (s : Sync H K G)
    (msgs : List (BlobRes H G)) :
    (syncSectors P now opts b s msgs).2.db = s.db ∨
    ∃ msg header, deciding P now opts b s msgs = some msg ∧ Equivocates P s.db opts msg ∧
      s.db.equivocationProofs msg.name = none ∧ s.db.headers msg.name = some header := by
  rw [syncSectors_deciding]
  cases hd : deciding P now opts b s msgs with
  | none => exact .inl rfl
  | some msg =>
    rcases receive_cases P now opts b s msg with h | h | ⟨e, h⟩ | ⟨he, hnone, header, hh⟩ | hu
    · exact .inl (by simp only [syncSectors, h])
    · exact .inl (by simp only [syncSectors, h])
    · exact .inl (by simp only [syncSectors, h])
    · exact .inr ⟨msg, header, rfl, he, hnone, hh⟩
    · exact .inl (by simp only [syncSectors, receive_usable now b hu])

theorem syncSectors_skip {pre : List (BlobRes H G)}
    (hpre : ∀ m ∈ pre, receive P now opts b s m = (.skipped, s)) (msgs : List (BlobRes H G)) :
    syncSectors P now opts b s (pre ++ msgs) = syncSectors P now opts b s msgs := by
  induction pre with
  | nil => rfl
  | cons m pre ih =>
    simp only [List.cons_append, syncSectors, hpre m List.mem_cons_self]
    exact ih fun m hm => hpre m (List.mem_cons_of_mem _ hm)

end

end Fnd.Protocol

/-
  Fnd.Authentic — whether a stored header carries the publisher's signature over its own
  fields.

  A commit checks the signature over the fields it stores. `UpdateBlob` does not: the sync
  checks the signature over the response's epoch and end, the header takes epoch and size
  from the queue item. So a stored header is authentic when the response that decided the
  sync is at the item's epoch and size (`stored_headers_authentic_iff`), and only then, as
  long as a signature signs one seal. Neither `SyncSectors` nor `UpdateBlob` compares the
  two epochs: an older signature is stored under the epoch a peer announced
  (`an_announced_epoch_is_stored_unsigned`).
-/

import Fnd.Rpc.Server
import Fnd.Symbolic

namespace Fnd.Protocol

open Blob (sealHash SealInjective)
open Store (DB Header)
open Wire (BlobRes)

variable {H K G : Type}

/-- The header's signature verifies, under the name's key, over the seal of its fields. -/
def authentic (P : Prims H K G) (db : DB H K G) (header : Header H G) : Bool :=
  match db.nameInfo header.name with
  | none => false
  | some info =>
    P.verifySigPub info.publicKey header.signature
      (sealHash P header.name header.epochHeight header.sectorSize header.sectorTipHash header.reservedRoot)

/-- Under one key, a signature verifies for one hash. For signatures with key recovery this
    is a property of the curve: key and signature determine the hash. -/
def SigBinding (P : Prims H K G) : Prop := ∀ key sig h h',
  P.verifySigPub key sig h = true → P.verifySigPub key sig h' = true → h = h'

theorem authentic_iff {P : Prims H K G} {db : DB H K G} {header : Header H G} : authentic P db header = true ↔
    ∃ info, db.nameInfo header.name = some info ∧ P.verifySigPub info.publicKey header.signature
      (sealHash P header.name header.epochHeight header.sectorSize header.sectorTipHash header.reservedRoot) = true := by
  unfold authentic
  cases h : db.nameInfo header.name <;> simp

variable [Zero H] [DecidableEq H] {P : Prims H K G}

/-- The response that decides the item's sync is at the item's epoch and ends at its size. -/
def DecidedByItem (P : Prims H K G) (now : Time) (item : UpdateQueueItem H K) (s : Shared H K G)
    (msgs : List (BlobRes H G)) : Prop :=
  ∃ plan msg, check P now s.db item = .ok plan ∧ decidingRes P now item plan s msgs = some msg ∧
    msg.epochHeight = item.epochHeight ∧ endSize msg.payloadPosition msg.payload = item.sectorSize

/-- What is known of a header that `UpdateBlob` stored: the signature was checked over the
    seal of the response's epoch and end, with the header's tip and root. -/
theorem updateBlob_checked {now : Time} {item : UpdateQueueItem H K} {msgs : List (BlobRes H G)} {s : Shared H K G}
    {header : Header H G} (h : storedIn (updateBlob P now item msgs s).1 = some header) :
    ∃ plan msg info, check P now s.db item = .ok plan ∧ decidingRes P now item plan s msgs = some msg ∧
      s.db.nameInfo header.name = some info ∧
      P.verifySigPub info.publicKey header.signature
        (sealHash P header.name msg.epochHeight (endSize msg.payloadPosition msg.payload) header.sectorTipHash
          header.reservedRoot) = true ∧
      header.epochHeight = item.epochHeight ∧ header.sectorSize = item.sectorSize := by
  rcases updateBlob_cases P now item msgs s with ⟨plan, msg, -, ha, hd, hst, gossip, heq⟩ | ⟨r, db, heq, hnone, -⟩
  · rw [heq] at h
    obtain rfl := Option.some.inj h
    obtain ⟨-, -, info, hinfo, hsig⟩ := validateBlobUpdate_ok.mp hst.usable.valid
    have hname : msg.name = item.name := hst.usable.name
    rw [hname] at hinfo hsig
    rw [← hst.tip] at hsig
    exact ⟨plan, msg, info, ha, hd, hinfo, hsig, rfl, rfl⟩
  · rw [heq, hnone] at h; cases h

/-- A header `UpdateBlob` stores is authentic when the deciding response is the item's; and
    only then, if seals are unambiguous and signatures bind. A header a commit stores is
    always authentic. -/
theorem stored_headers_authentic_iff (P : Prims H K G) :
    (∀ now item msgs (s : Shared H K G) header, storedIn (updateBlob P now item msgs s).1 = some header →
      (DecidedByItem P now item s msgs → authentic P s.db header = true) ∧
      (SealInjective P → SigBinding P → authentic P s.db header = true → DecidedByItem P now item s msgs)) ∧
    (∀ now (s : Shared H K G) srv req header, (Rpc.commit P now s srv req).stored = some header →
      authentic P s.db header = true) := by
  constructor
  · intro now item msgs s header h
    obtain ⟨plan, msg, info, ha, hd, hinfo, hsig, he, hn⟩ := updateBlob_checked h
    constructor
    · rintro ⟨plan', msg', ha', hd', hme, hms⟩
      obtain rfl := Except.ok.inj (ha.symm.trans ha')
      obtain rfl := Option.some.inj (hd.symm.trans hd')
      rw [hme, hms, ← he, ← hn] at hsig
      exact authentic_iff.mpr ⟨info, hinfo, hsig⟩
    · intro hseal hbind hauth
      obtain ⟨info', hinfo', hsig'⟩ := authentic_iff.mp hauth
      obtain rfl := Option.some.inj (hinfo.symm.trans hinfo')
      obtain ⟨-, hme, hms, -⟩ := hseal _ _ _ _ _ _ _ _ _ _ (hbind _ _ _ _ hsig hsig')
      exact ⟨plan, msg, ha, hd, hme.trans he, hms.trans hn⟩
  · intro now s srv req header h
    obtain ⟨info, hinfo, hroot, hsig⟩ := Rpc.commit_stored h
    exact authentic_iff.mpr ⟨info, hinfo, by rw [hroot]; exact hsig⟩

theorem sigBinding_prims : SigBinding Symbolic.prims := by
  intro key sig h h' hs hs'
  simp only [Symbolic.prims, Bool.and_eq_true, beq_iff_eq] at hs hs'
  exact hs.2.symm.trans hs'.2

/-- The publisher's response at the announced epoch: stored, authentic, and decided by it. -/
theorem an_announced_epoch_is_stored_signed : ∃ header,
    storedIn (updateBlob Symbolic.prims (Symbolic.weeks 6) (Symbolic.item 7 1)
      [Symbolic.res 7 [] [Symbolic.fill 0]] Symbolic.fresh).1 = some header ∧
    authentic Symbolic.prims Symbolic.names header = true ∧
    DecidedByItem Symbolic.prims (Symbolic.weeks 6) (Symbolic.item 7 1) Symbolic.fresh
      [Symbolic.res 7 [] [Symbolic.fill 0]] := by
  have hrun : (storedIn (updateBlob Symbolic.prims (Symbolic.weeks 6) (Symbolic.item 7 1)
      [Symbolic.res 7 [] [Symbolic.fill 0]] Symbolic.fresh).1).map (authentic Symbolic.prims Symbolic.names) =
        some true := by decide +kernel
  obtain ⟨header, h, ha⟩ := Option.map_eq_some_iff.mp hrun
  exact ⟨header, h, ha, ((stored_headers_authentic_iff Symbolic.prims).1 _ _ _ _ _ h).2 Symbolic.sealInjective
    sigBinding_prims ha⟩

/-- First sight of a name, announced at epoch 7; the peer answers with the sectors the
    publisher signed at epoch 5. The header is stored at epoch 7 with that signature. -/
theorem an_announced_epoch_is_stored_unsigned :
    SealInjective Symbolic.prims ∧
    (storedIn (updateBlob Symbolic.prims (Symbolic.weeks 6) (Symbolic.item 7 1)
      [Symbolic.res 5 [] [Symbolic.fill 0]] Symbolic.fresh).1).map
        (fun header => (header.epochHeight, authentic Symbolic.prims Symbolic.names header)) = some (7, false) :=
  ⟨Symbolic.sealInjective, by decide +kernel⟩

end Fnd.Protocol

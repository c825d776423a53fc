/-
  Fnd.Equivocation — what an equivocation proof that `onEquivocationProof` accepts proves.

  The handler checks both signatures, one epoch, and that the remote payload starts where
  the local commitment ends. It does not compare the two hashes at that point, as
  `SyncSectors` does before it makes a proof, and it adds position and payload length in
  sixteen bits. So an accepted proof shows a conflict exactly when its remote previous hash
  differs from its local tip and the sum does not wrap (`accepted_proof_conflicts_iff`).
  Such a proof cannot be made against a publisher who extends one chain (the second half
  of the theorem); one with equal hashes can, from a single signature
  (`one_signature_bans_its_publisher`).
-/

import Fnd.Protocol.SectorServer
import Fnd.Symbolic

namespace Fnd.Protocol

open Blob (Sector sealHash serialHashSector)
open Store (DB)
open Wire (EquivocationProof)
open HashChain (chain CollisionFree)

variable {H K G : Type}

/-- The signature is the key's, on `n` sectors with tip `tip` at epoch `e`. -/
def Commits (P : Prims H K G) (key : K) (name : Name) (e : UInt16) (n : Nat) (tip root : H) (sig : G) : Prop :=
  ∃ size : UInt16, size.toNat = n ∧ P.verifySigPub key sig (sealHash P name e size tip root) = true

/-- The proof's two signed commitments conflict: one epoch; `localSectorSize` sectors with
    the local tip; and an extension by the remote payload of as many sectors with another. -/
structure Conflicts (P : Prims H K G) (key : K) (msg : EquivocationProof H G) : Prop where
  epoch : msg.localEpochHeight = msg.remoteEpochHeight
  mine : Commits P key msg.name msg.localEpochHeight msg.localSectorSize.toNat msg.localSectorTipHash
    msg.localReservedRoot msg.localSignature
  theirs : Commits P key msg.name msg.remoteEpochHeight (msg.localSectorSize.toNat + msg.remotePayload.length)
    (chain (serialHashSector P) msg.remotePrevHash msg.remotePayload) msg.remoteReservedRoot msg.remoteSignature
  differ : msg.remotePrevHash ≠ msg.localSectorTipHash

/-- The hashes at the point of the conflict differ, and the remote size does not wrap. -/
def Differs (msg : EquivocationProof H G) : Prop :=
  msg.remotePrevHash ≠ msg.localSectorTipHash ∧
    msg.remotePayloadPosition.toNat + msg.remotePayload.length < 65536

/-- All the key ever signed for the name at an epoch are prefixes of one list of sectors. -/
def SignsOneChain [Zero H] (P : Prims H K G) (key : K) (name : Name) (sectors : UInt16 → List Sector) : Prop :=
  ∀ sig e n tip root, P.verifySigPub key sig (sealHash P name e n tip root) = true →
    n.toNat ≤ (sectors e).length ∧ tip = chain (serialHashSector P) 0 ((sectors e).take n.toNat)

theorem Accepted.signatures {P : Prims H K G} {db : DB H K G} {msg : EquivocationProof H G} (h : Accepted P db msg) :
    ∃ info, db.nameInfo msg.name = some info ∧
      P.verifySigPub info.publicKey msg.localSignature
        (sealHash P msg.name msg.localEpochHeight msg.localSectorSize msg.localSectorTipHash msg.localReservedRoot) = true ∧
      P.verifySigPub info.publicKey msg.remoteSignature
        (sealHash P msg.name msg.localEpochHeight (endSize msg.localSectorSize msg.remotePayload)
          (chain (serialHashSector P) msg.remotePrevHash msg.remotePayload) msg.remoteReservedRoot) = true := by
  obtain ⟨-, -, info, hinfo, hl⟩ := validateBlobUpdate_ok.mp h.localValid
  obtain ⟨-, -, info', hinfo', hr⟩ := validateBlobUpdate_ok.mp h.remoteValid
  obtain rfl := Option.some.inj (hinfo.symm.trans hinfo')
  rw [← h.epoch, ← h.position] at hr
  exact ⟨info, hinfo, hl, hr⟩

theorem Accepted.conflicts {P : Prims H K G} {db : DB H K G} {msg : EquivocationProof H G} (h : Accepted P db msg)
    (hd : Differs msg) : ∃ info, db.nameInfo msg.name = some info ∧ Conflicts P info.publicKey msg := by
  obtain ⟨info, hinfo, hl, hr⟩ := h.signatures
  have hsize := endSize_toNat (h.position ▸ hd.2)
  rw [h.epoch] at hr
  exact ⟨info, hinfo, h.epoch, ⟨_, rfl, hl⟩, ⟨_, hsize, hr⟩, hd.1⟩

variable [Zero H]

theorem SignsOneChain.no_conflict {P : Prims H K G} (hc : CollisionFree (serialHashSector P)) {key : K}
    {msg : EquivocationProof H G} {sectors : UInt16 → List Sector} (hs : SignsOneChain P key msg.name sectors) :
    ¬ Conflicts P key msg := by
  rintro ⟨hepoch, ⟨size, hn, hl⟩, ⟨size', hn', hr⟩, hne⟩
  obtain ⟨hlen, htip⟩ := hs _ _ _ _ _ hl
  obtain ⟨hlen', htip'⟩ := hs _ _ _ _ _ hr
  rw [hn, hepoch] at htip
  -- split the longer prefix where the shorter one ends
  rw [hn', List.take_add, HashChain.chain_append, ← htip] at htip'
  exact hne (HashChain.chain_inj hc _ _ (by rw [List.length_take, List.length_drop]; omega) htip').1

/-- An accepted proof shows a conflict exactly when it `Differs`; and one that does is never
    accepted against a publisher who signs one chain an epoch. -/
theorem accepted_proof_conflicts_iff (P : Prims H K G) :
    (∀ now (db : DB H K G) msg db', onEquivocationProof P now db msg = .ok db' →
      ∃ info, db.nameInfo msg.name = some info ∧ (Conflicts P info.publicKey msg ↔ Differs msg)) ∧
    (CollisionFree (serialHashSector P) → ∀ now (db : DB H K G) msg info sectors, db.nameInfo msg.name = some info →
      SignsOneChain P info.publicKey msg.name sectors → Differs msg →
      ∀ db', onEquivocationProof P now db msg ≠ .ok db') := by
  constructor
  · intro now db msg db' h
    obtain ⟨ha, -⟩ := onEquivocationProof_ok h
    obtain ⟨info, hinfo, -⟩ := ha.signatures
    refine ⟨info, hinfo, fun hc => ⟨hc.differ, ?_⟩, fun hd => ?_⟩
    · obtain ⟨size, hsize, -⟩ := hc.theirs
      rw [← ha.position, ← hsize]
      exact size.toNat_lt
    · obtain ⟨info', hinfo', hc⟩ := ha.conflicts hd
      obtain rfl := Option.some.inj (hinfo.symm.trans hinfo')
      exact hc
  · intro hc now db msg info sectors hinfo hs hd db' h
    obtain ⟨info', hinfo', hconflict⟩ := (onEquivocationProof_ok h).1.conflicts hd
    obtain rfl := Option.some.inj (hinfo.symm.trans hinfo')
    exact hs.no_conflict hc hconflict

/-- A proof at epoch 5 against the sector `fill 0`: the sectors `ys` after a chain of one
    sector with tip `prev`, of which the publisher signed `tip`. -/
def proof (prev : Symbolic.Sym) (ys : List Sector) (tip : Symbolic.Sym) :
    EquivocationProof Symbolic.Sym Symbolic.Sig where
  name := Symbolic.site
  remoteEpochHeight := 5
  remotePayloadPosition := 1
  remotePrevHash := prev
  remoteReservedRoot := 0
  remotePayload := ys
  remoteSignature := Symbolic.sign 5 (endSize 1 ys) tip
  localEpochHeight := 5
  localSectorSize := 1
  localSectorTipHash := Symbolic.tipOf [Symbolic.fill 0]
  localReservedRoot := 0
  localSignature := Symbolic.sign 5 1 (Symbolic.tipOf [Symbolic.fill 0])

def holding : DB Symbolic.Sym Nat Symbolic.Sig :=
  Symbolic.names.setHeader
    ⟨Symbolic.site, 5, 1, Symbolic.tipOf [Symbolic.fill 0], Symbolic.sign 5 1 (Symbolic.tipOf [Symbolic.fill 0]), 0,
      Symbolic.weeks 5⟩
    (Blob.hashesOf Symbolic.prims [Symbolic.fill 0])

def banIn (r : Except (Fault ProofErr) (DB Symbolic.Sym Nat Symbolic.Sig)) : Option Nat :=
  match r with
  | .ok db => db.headerBans Symbolic.site
  | .error _ => none

/-- The publisher who signed that sector and nothing else. -/
def once : Prims Symbolic.Sym Nat Symbolic.Sig :=
  Symbolic.signer [Blob.sealHash Symbolic.prims Symbolic.site 5 1 (Symbolic.tipOf [Symbolic.fill 0]) 0]

/-- The publisher who also signed two other sectors. -/
def twice : Prims Symbolic.Sym Nat Symbolic.Sig :=
  Symbolic.signer [Blob.sealHash Symbolic.prims Symbolic.site 5 1 (Symbolic.tipOf [Symbolic.fill 0]) 0,
    Blob.sealHash Symbolic.prims Symbolic.site 5 2 (Symbolic.tipOf [Symbolic.fill 1, Symbolic.fill 2]) 0]

theorem once_signsOneChain : SignsOneChain once 1 Symbolic.site fun _ => [Symbolic.fill 0] := by
  intro sig e n tip root h
  simp only [once, Symbolic.signer, Bool.and_eq_true, List.contains_eq_mem, List.mem_singleton, decide_eq_true_eq] at h
  obtain ⟨-, -, rfl, rfl, -⟩ := Symbolic.sealInjective _ _ _ _ _ _ _ _ _ _ h.2
  exact ⟨Nat.le_refl 1, rfl⟩

/-- Two chains from one publisher: the proof is accepted and conflicts. The same proof is
    not accepted against the publisher who signed one of them. -/
theorem a_second_chain_is_proved :
    Conflicts twice 1 (proof (Symbolic.tipOf [Symbolic.fill 1]) [Symbolic.fill 2]
      (Symbolic.tipOf [Symbolic.fill 1, Symbolic.fill 2])) ∧
    ∀ db', onEquivocationProof once (Symbolic.weeks 6) holding (proof (Symbolic.tipOf [Symbolic.fill 1]) [Symbolic.fill 2]
      (Symbolic.tipOf [Symbolic.fill 1, Symbolic.fill 2])) ≠ .ok db' := by
  have hdiffers : Differs (proof (Symbolic.tipOf [Symbolic.fill 1]) [Symbolic.fill 2]
      (Symbolic.tipOf [Symbolic.fill 1, Symbolic.fill 2])) := ⟨by decide +kernel, by decide⟩
  constructor
  · have hban : (banIn (onEquivocationProof twice (Symbolic.weeks 6) holding (proof (Symbolic.tipOf [Symbolic.fill 1])
        [Symbolic.fill 2] (Symbolic.tipOf [Symbolic.fill 1, Symbolic.fill 2])))).isSome = true := by decide +kernel
    cases hrun : onEquivocationProof twice (Symbolic.weeks 6) holding (proof (Symbolic.tipOf [Symbolic.fill 1])
        [Symbolic.fill 2] (Symbolic.tipOf [Symbolic.fill 1, Symbolic.fill 2])) with
    | error f => rw [hrun] at hban; cases hban
    | ok db =>
      obtain ⟨info, hinfo, hiff⟩ := (accepted_proof_conflicts_iff twice).1 _ _ _ _ hrun
      obtain rfl : _ = info := Option.some.inj hinfo
      exact hiff.mpr hdiffers
  · exact (accepted_proof_conflicts_iff once).2 (Blob.collisionFree_of_injective Symbolic.blake2b_injective) _ _ _ _ _ rfl
      once_signsOneChain hdiffers

/-- One signature, given as both halves of a proof with no payload: no conflict, from a
    publisher of one chain, and the name is banned. -/
theorem one_signature_bans_its_publisher :
    CollisionFree (serialHashSector once) ∧ SignsOneChain once 1 Symbolic.site (fun _ => [Symbolic.fill 0]) ∧
    ¬ Conflicts once 1 (proof (Symbolic.tipOf [Symbolic.fill 0]) [] (Symbolic.tipOf [Symbolic.fill 0])) ∧
    banIn (onEquivocationProof once (Symbolic.weeks 6) holding
      (proof (Symbolic.tipOf [Symbolic.fill 0]) [] (Symbolic.tipOf [Symbolic.fill 0]))) = some 1581465600 :=
  ⟨Blob.collisionFree_of_injective Symbolic.blake2b_injective, once_signsOneChain, fun h => h.differ rfl, by decide +kernel⟩

end Fnd.Protocol

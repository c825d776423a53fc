/-
  Fnd.Evidence — whether the equivocation proofs a sync stores convince other nodes.

  `SyncSectors` puts the response and the stored header side by side: their epochs and
  sizes are those of the sync's plan for the response, and whatever the store holds for the
  header. `onEquivocationProof` wants one epoch, and the response to start where the header
  ends. So the stored bytes are accepted by every node that is open to them exactly when
  the header is the one the plan was made from (`stored_proof_accepted_iff`): in an append
  to it. After a rollover the two halves are of different epochs, and the name is banned
  here with a proof that no one takes (`a_rollover_proof_convinces_no_one`).
-/

import Fnd.Authentic
import Fnd.Protocol.SectorServer
import Fnd.Wire.Decode

namespace Fnd.Protocol

open Blob (Sector sealHash serialHashSector)
open Store (DB Header NameInfo)
open Wire (Bytes32 Bytes65 BlobRes EquivocationProof)
open Dwire (maxVariableArrayLen maxByteFieldLen)

def zeroBytes (n : Nat) : { bs : Bytes // bs.length = n } := ⟨List.replicate n 0, List.length_replicate⟩

instance : Zero Bytes32 := ⟨zeroBytes 32⟩

variable {K : Type}

/-- Headers are stored under their names, with signatures that verify. -/
def HeadersValid (P : Prims Bytes32 K Bytes65) (db : DB Bytes32 K Bytes65) : Prop :=
  ∀ name header, db.headers name = some header → header.name = name ∧ authentic P db header = true

/-- A node with the same info for the name, no ban of it, and a header not above the epoch. -/
structure OpenTo (db db' : DB Bytes32 K Bytes65) (name : Name) (epochHeight : UInt16) : Prop where
  info : db'.nameInfo name = db.nameInfo name
  nameBan : db'.nameBans name = false
  headerBan : db'.headerBans name = none
  header : ∃ header, db'.headers name = some header ∧ header.epochHeight ≤ epochHeight

/-- The bytes decode to a proof that the handler takes: it stores it and bans the name. -/
def Takes (P : Prims Bytes32 K Bytes65) (now : Time) (db : DB Bytes32 K Bytes65) (bytes : Bytes) : Prop :=
  ∃ m rest, EquivocationProof.decode bytes = .ok (m, rest) ∧
    onEquivocationProof P now db m = .ok ((db.setEquivocationProof m.name m).setHeaderBan now m.name zeroTime)

/-- The stored header has the epoch and the size the sync went by. -/
def MatchesPlan (db : DB Bytes32 K Bytes65) (name : Name) (plan : Plan Bytes32) : Prop :=
  ∃ header, db.headers name = some header ∧ header.epochHeight = plan.epochHeight ∧ header.sectorSize = plan.sectorSize

variable {P : Prims Bytes32 K Bytes65}

theorem validateName_length {name : Name} (h : validateName name = .ok ()) : name.length ≤ maxByteFieldLen := by
  unfold validateName at h
  split at h
  · cases h
  split at h
  · cases h
  rename_i hlen
  exact Nat.le_trans (Nat.not_lt.mp hlen) (by decide)

/-- A node open to a stored proof takes it if it was stored whole and passes the checks. -/
theorem takes_stored_iff {now : Time} {db db' : DB Bytes32 K Bytes65} {proof : EquivocationProof Bytes32 Bytes65}
    (hname : proof.name.length ≤ maxByteFieldLen) (hopen : OpenTo db db' proof.name proof.remoteEpochHeight) :
    Takes P now db' proof.stored ↔ proof.remotePayload.length ≤ maxVariableArrayLen ∧ Accepted P db' proof := by
  by_cases hlen : proof.remotePayload.length ≤ maxVariableArrayLen
  · have hdecode := EquivocationProof.decode_stored hname hlen []
    rw [List.append_nil] at hdecode
    obtain ⟨header, hh, hle⟩ := hopen.header
    constructor
    · rintro ⟨m, rest, hm, hok⟩
      cases hdecode.symm.trans hm
      exact ⟨hlen, (onEquivocationProof_ok hok).1⟩
    · rintro ⟨-, ha⟩
      exact ⟨proof, [], hdecode, onEquivocationProof_unbanned now hh hle hopen.headerBan ha⟩
  · have hdecode := EquivocationProof.decode_stored_cut hname (Nat.not_le.mp hlen)
    constructor
    · rintro ⟨m, rest, hm, -⟩
      cases hdecode.symm.trans hm
    · exact fun h => absurd h.1 hlen

/-- A proof against a valid header passes the checks elsewhere if the header matches the plan. -/
theorem proofOf_accepted_iff {db db' : DB Bytes32 K Bytes65} {plan : Plan Bytes32} {name : Name}
    {msg : BlobRes Bytes32 Bytes65} {header : Header Bytes32 Bytes65} (he : Equivocates P db (plan.opts name) msg)
    (hauth : HeadersValid P db) (hh : db.headers name = some header)
    (hopen : OpenTo db db' name (proofOf msg header).remoteEpochHeight) :
    Accepted P db' (proofOf msg header) ↔ header.epochHeight = plan.epochHeight ∧ header.sectorSize = plan.sectorSize := by
  have hname : msg.name = name := he.name
  have hepoch : msg.epochHeight = plan.epochHeight := he.epoch
  have hposition : plan.sectorSize = msg.payloadPosition := he.position
  constructor
  · intro ha
    have h1 : header.epochHeight = msg.epochHeight := ha.epoch
    have h2 : header.sectorSize = msg.payloadPosition := ha.position
    exact ⟨h1.trans hepoch, h2.trans hposition.symm⟩
  · rintro ⟨h1, h2⟩
    obtain ⟨hvalid, -, info, hinfo, hsig⟩ := validateBlobUpdate_ok.mp he.valid
    obtain ⟨hheader, hauth⟩ := hauth name header hh
    obtain ⟨info', hinfo', hsig'⟩ := authentic_iff.mp hauth
    rw [hname] at hvalid hinfo hsig
    rw [hheader] at hinfo' hsig'
    obtain rfl := Option.some.inj (hinfo.symm.trans hinfo')
    have hinfo'' := hopen.info.trans hinfo
    refine ⟨h1.trans hepoch.symm, h2.trans hposition, validateBlobUpdate_ok.mpr ?_, he.size, validateBlobUpdate_ok.mpr ?_⟩
    all_goals
      simp only [proofOf, hname]
      exact ⟨hvalid, hopen.nameBan, info, hinfo'', ‹_›⟩

/-- A node that the proof can be put to: this one, before it knew of the name's bans, with
    the header at epoch 0. -/
def beginner (db : DB Bytes32 K Bytes65) (header : Header Bytes32 Bytes65) (name : Name) : DB Bytes32 K Bytes65 :=
  { db with
    headers := Function.update db.headers name (some { header with epochHeight := 0 })
    headerBans := fun _ => none }

theorem openTo_beginner {db : DB Bytes32 K Bytes65} {name : Name} (header : Header Bytes32 Bytes65) (epochHeight : UInt16)
    (hban : db.nameBans name = false) : OpenTo db (beginner db header name) name epochHeight :=
  ⟨rfl, hban, rfl, _, Function.update_self _ _ _, UInt16.zero_le⟩

/-- `UpdateBlob` stores a proof, over headers whose signatures verify. Every other node that
    is open to it takes the stored bytes exactly if the header matches the plan of the sync
    and the payload is one the wire carries. With the header unchanged since the checks,
    it matches in an append and not after a rollover. -/
theorem stored_proof_accepted_iff (P : Prims Bytes32 K Bytes65) (now : Time) (item : UpdateQueueItem Bytes32 K)
    (plan : Plan Bytes32) (msgs : List (BlobRes Bytes32 Bytes65)) (s : Shared Bytes32 K Bytes65)
    (proof : EquivocationProof Bytes32 Bytes65) (hauth : HeadersValid P s.db)
    (hnone : s.db.equivocationProofs item.name = none)
    (hproof : (apply P now item plan msgs s).2.db.equivocationProofs item.name = some proof) :
    ((∀ now' db', OpenTo s.db db' item.name proof.remoteEpochHeight → Takes P now' db' proof.stored) ↔
      MatchesPlan s.db item.name plan ∧ proof.remotePayload.length ≤ maxVariableArrayLen) ∧
    (∀ t₀ db₀, check P t₀ db₀ item = .ok plan → db₀.headers item.name = s.db.headers item.name →
      (MatchesPlan s.db item.name plan ↔ plan.epochUpdated = false)) := by
  rcases apply_proofs P now item plan msgs s with hsame | ⟨msg, header, -, he, -, hh, hdb⟩
  · rw [hsame, hnone] at hproof; cases hproof
  have hname : msg.name = item.name := he.name
  obtain rfl : proofOf msg header = proof := by
    rw [hdb, ← hname, banWith_equivocationProofs] at hproof
    exact Option.some.inj hproof
  obtain ⟨hvalid, hban, -⟩ := validateBlobUpdate_ok.mp he.valid
  have hlen := validateName_length hvalid
  have hmatches : MatchesPlan s.db item.name plan ↔
      header.epochHeight = plan.epochHeight ∧ header.sectorSize = plan.sectorSize := by
    constructor
    · rintro ⟨header', hh', h⟩
      obtain rfl := Option.some.inj (hh.symm.trans hh')
      exact h
    · exact fun h => ⟨header, hh, h⟩
  have htakes {now' : Time} {db' : DB Bytes32 K Bytes65} (hopen : OpenTo s.db db' item.name msg.epochHeight) :
      Takes P now' db' (proofOf msg header).stored ↔
        MatchesPlan s.db item.name plan ∧ msg.payload.length ≤ maxVariableArrayLen := by
    rw [takes_stored_iff hlen (hname.symm ▸ hopen), proofOf_accepted_iff he hauth hh hopen, hmatches]
    exact and_comm
  refine ⟨⟨fun h => ?_, fun h now' db' hopen => (htakes hopen).mpr h⟩, fun t₀ db₀ hcheck hsame => ?_⟩
  · have hopen := openTo_beginner header msg.epochHeight (hname ▸ hban)
    exact (htakes hopen).mp (h now _ hopen)
  · rw [hmatches]
    rw [hh] at hsame
    rcases check_cases hcheck with ⟨hn, -⟩ | ⟨old, hold, -, -, rfl⟩ | ⟨old, _, hold, hlt, -, -, rfl⟩
    · cases hn.symm.trans hsame
    · obtain rfl := Option.some.inj (hsame.symm.trans hold)
      exact ⟨fun _ => rfl, fun _ => ⟨rfl, rfl⟩⟩
    · obtain rfl := Option.some.inj (hsame.symm.trans hold)
      exact ⟨fun h => absurd (h.1 ▸ hlt) (UInt16.lt_irrefl _), nofun⟩

/-! ## A publisher whose hashes are 32 bytes -/

/-- The little-endian bytes of a number. -/
def digits (n : Nat) : Bytes32 := ⟨(List.range 32).map fun i => UInt8.ofNat (n / 256 ^ i), by simp⟩

/-- A checksum in the place of blake2b. -/
def checksum (xs : List (Atom Bytes32)) : Bytes32 :=
  digits ((xs.flatMap fun | .byte b => [b] | .hash h => h.1).foldl (fun acc b => (257 * acc + b.toNat + 1) % 2 ^ 256) 0)

/-- A signature is the hash it signs; there is one key. -/
def signature (h : Bytes32) : Bytes65 := ⟨h.1 ++ List.replicate 33 0, by simp [h.2]⟩

def bytePrims : Prims Bytes32 Nat Bytes65 where
  blake2b := checksum
  hashName _ := []
  verifySigPub key sig h := key == 1 && sig == signature h

def tipAfter (h : Bytes32) (xs : List Sector) : Bytes32 := HashChain.chain (serialHashSector bytePrims) h xs

/-- Sectors the publisher signed at an epoch, as a chain from a hash of its choice. -/
def signedRes (epochHeight position : UInt16) (prevHash : Bytes32) (xs : List Sector) : BlobRes Bytes32 Bytes65 :=
  ⟨Symbolic.site, epochHeight, position, prevHash, 0, xs,
    signature (sealHash bytePrims Symbolic.site epochHeight (endSize position xs) (tipAfter prevHash xs) 0)⟩

def firstHeader : Header Bytes32 Bytes65 :=
  ⟨Symbolic.site, 5, 1, tipAfter 0 [Symbolic.fill 0],
    signature (sealHash bytePrims Symbolic.site 5 1 (tipAfter 0 [Symbolic.fill 0]) 0), 0, Symbolic.weeks 5⟩

def holdingFirst : Shared Bytes32 Nat Bytes65 :=
  ⟨(DB.empty (fun n => if n = Symbolic.site then some ⟨Symbolic.site, 1, 0⟩ else none) fun _ => false).setHeader firstHeader
      (Blob.hashesOf bytePrims [Symbolic.fill 0]), fun _ => Blob.File.zero, Util.MultiLocker.new⟩

def firstItem (epochHeight sectorSize : UInt16) : UpdateQueueItem Bytes32 Nat :=
  ⟨[], Symbolic.site, epochHeight, sectorSize, 1, 0⟩

theorem holdingFirst_headers : holdingFirst.db.headers = Function.update (fun _ => none) Symbolic.site (some firstHeader) := rfl

theorem holdingFirst_valid : HeadersValid bytePrims holdingFirst.db := by
  have hauth : authentic bytePrims holdingFirst.db firstHeader = true := by decide +kernel
  intro name header h
  rw [holdingFirst_headers] at h
  by_cases hn : name = Symbolic.site
  · subst hn
    rw [Function.update_self] at h
    obtain rfl := Option.some.inj h
    exact ⟨rfl, hauth⟩
  · rw [Function.update_of_ne hn] at h
    cases h

theorem holdingFirst_openTo {epochHeight : UInt16} (h : 5 ≤ epochHeight) :
    OpenTo holdingFirst.db holdingFirst.db Symbolic.site epochHeight :=
  ⟨rfl, rfl, rfl, firstHeader, by rw [holdingFirst_headers, Function.update_self], h⟩

def appendPlan : Plan Bytes32 := ⟨5, 1, firstHeader.sectorTipHash, false⟩

/-- A second sector that does not go on from the stored one. -/
def forked : BlobRes Bytes32 Bytes65 := signedRes 5 1 0 [Symbolic.fill 1]

/-- In an append, the proof is taken. -/
theorem an_append_proof_convinces :
    Takes bytePrims (Symbolic.weeks 6) holdingFirst.db (proofOf forked firstHeader).stored := by
  have hproof : (apply bytePrims (Symbolic.weeks 6) (firstItem 5 2) appendPlan [forked] holdingFirst).2.db.equivocationProofs
      (firstItem 5 2).name = some (proofOf forked firstHeader) := by decide +kernel
  have hiff := (stored_proof_accepted_iff bytePrims (Symbolic.weeks 6) (firstItem 5 2) appendPlan [forked] holdingFirst
    (proofOf forked firstHeader) holdingFirst_valid rfl hproof).1
  have hmatches : MatchesPlan holdingFirst.db Symbolic.site appendPlan :=
    ⟨firstHeader, by rw [holdingFirst_headers, Function.update_self], rfl, rfl⟩
  exact hiff.mpr ⟨hmatches, by decide⟩ _ _ (holdingFirst_openTo (by decide))

/-- A rollover to epoch 7, for which the publisher signed a chain that does not start at
    the zero hash. The name is banned, and a node that was in the same state a moment ago
    does not take the proof. -/
theorem a_rollover_proof_convinces_no_one :
    let msg := signedRes 7 0 firstHeader.sectorTipHash [Symbolic.fill 1]
    (updateBlob bytePrims (Symbolic.weeks 8) (firstItem 7 1) [msg] holdingFirst).2.db.equivocationProofs Symbolic.site =
      some (proofOf msg firstHeader) ∧
    HeadersValid bytePrims holdingFirst.db ∧ OpenTo holdingFirst.db holdingFirst.db Symbolic.site msg.epochHeight ∧
    ∀ now, ¬ Takes bytePrims now holdingFirst.db (proofOf msg firstHeader).stored := by
  refine ⟨by decide +kernel, holdingFirst_valid, holdingFirst_openTo (by decide), fun now h => ?_⟩
  have haccepted := ((takes_stored_iff (by decide) (holdingFirst_openTo (by decide))).mp h).2
  exact absurd haccepted.epoch (by decide)

end Fnd.Protocol

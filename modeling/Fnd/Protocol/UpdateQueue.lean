/-
  Fnd.Protocol.UpdateQueue — the queue of announced updates (`protocol/update_queue.go`,
  `protocol/peer_set.go`).

  `Enqueue` checks an update against the store before it takes the queue's mutex
  (`precheck`), then files it (`insert`): at most one item a name, in the order the names
  became pending. An update of size zero is not queued; it asks its sender for an
  equivocation proof.
-/

import Fnd.Blob.File
import Fnd.Protocol.Names
import Fnd.Store.DB

namespace Fnd.Protocol

open Store (DB Header NameInfo)
open Wire (Update BlobReq)

variable {H K G : Type}

structure UpdateQueueItem (H K : Type) where
  /-- The `PeerSet`: no peer twice, in the order they were added. -/
  peerIDs : List H
  name : Name
  epochHeight : UInt16
  sectorSize : UInt16
  pub : K
  height : Int
  deriving DecidableEq

structure UpdateQueue (H K : Type) where
  maxLen : Int
  entries : Name → Option (UpdateQueueItem H K)
  queue : List Name
  /-- An `int32`, like `MaxLen`. It would wrap at 2^31 names, more than a process can hold. -/
  queueLen : Int

inductive QueueErr where
  /-- `ErrUpdateQueueMaxLen` -/
  | maxLen
  | initialImportIncomplete
  | invalidName (e : NameErr)
  | nameBanned
  | headerBanned
  | noNameInfo
  /-- `ErrUpdateQueueEpochUpdated` -/
  | epochUpdated
  /-- `ErrUpdateQueueStaleSector` -/
  | staleSector
  /-- `ErrUpdateQueueSectorUpdated` -/
  | sectorUpdated
  deriving DecidableEq, Repr

def PeerSet.add [DecidableEq H] (ids : List H) (peerID : H) : List H := if peerID ∈ ids then ids else ids ++ [peerID]

theorem PeerSet.mem_add [DecidableEq H] {ids : List H} {peerID p : H} : p ∈ PeerSet.add ids peerID ↔ p ∈ ids ∨ p = peerID := by
  unfold PeerSet.add
  split
  · exact ⟨.inl, fun h => h.elim id fun e => e ▸ ‹_›⟩
  · simp

namespace UpdateQueue

def new : UpdateQueue H K := ⟨1000, fun _ => none, [], 0⟩

def validateUpdate (db : DB H K G) (name : Name) : Except (Fault QueueErr) Unit :=
  match validateName name with
  | .error .panic => .error .panic
  | .error (.err e) => .error (.err (.invalidName e))
  | .ok () =>
    if db.nameBans name then .error (.err .nameBanned)
    else match db.getHeaderBan name with
      | .error f => .error f
      | .ok headerBan => if headerBan ≠ zeroTime then .error (.err .headerBanned) else .ok ()

/-- Neither below the stored header nor equal to it. -/
def compareHeader (header : Option (Header H G)) (update : Update) : Except (Fault QueueErr) Unit :=
  let epochHeight := match header with | none => 0 | some h => h.epochHeight
  let sectorSize := match header with | none => 0 | some h => h.sectorSize
  if epochHeight > update.epochHeight then .error (.err .epochUpdated)
  else if epochHeight = update.epochHeight ∧ sectorSize > update.sectorSize then .error (.err .staleSector)
  else if epochHeight = update.epochHeight ∧ sectorSize = update.sectorSize then .error (.err .sectorUpdated)
  else .ok ()

/-- `Enqueue` up to the mutex: a request to send back, or the name's info. -/
def precheck (q : UpdateQueue H K) (db : DB H K G) (update : Update) :
    Except (Fault QueueErr) (BlobReq ⊕ NameInfo K) :=
  if q.queueLen ≥ q.maxLen then .error (.err .maxLen)
  else if !db.initialImportComplete then .error (.err .initialImportIncomplete)
  else if update.sectorSize = 0 then .ok (.inl ⟨update.name, update.epochHeight, UInt16.ofNat Blob.maxSectors⟩)
  else match validateUpdate db update.name with
    | .error f => .error f
    | .ok () =>
      match db.nameInfo update.name with
      | none => .error (.err .noNameInfo)
      | some info =>
        match compareHeader (db.headers update.name) update with
        | .error f => .error f
        | .ok () => .ok (.inr info)

def newItem (peerID : H) (update : Update) (info : NameInfo K) : UpdateQueueItem H K :=
  ⟨[peerID], update.name, update.epochHeight, update.sectorSize, info.publicKey, info.importHeight⟩

/-- `Enqueue` under the mutex. -/
def insert [DecidableEq H] (q : UpdateQueue H K) (peerID : H) (update : Update) (info : NameInfo K) :
    Except (Fault QueueErr) Unit × UpdateQueue H K :=
  match q.entries update.name with
  | none =>
    (.ok (), { q with
      entries := Function.update q.entries update.name (some (newItem peerID update info))
      queue := q.queue ++ [update.name]
      queueLen := q.queueLen + 1 })
  | some entry =>
    -- a larger size replaces the entry whatever the epochs are
    if entry.sectorSize < update.sectorSize then
      (.ok (), { q with entries := Function.update q.entries update.name (some (newItem peerID update info)) })
    else if entry.epochHeight > update.epochHeight then (.error (.err .epochUpdated), q)
    else if entry.epochHeight = update.epochHeight ∧ entry.sectorSize > update.sectorSize then
      (.error (.err .staleSector), q)
    else
      (.ok (), { q with
        entries := Function.update q.entries update.name
          (some { entry with peerIDs := PeerSet.add entry.peerIDs peerID }) })

/-- `Enqueue`: what it sends back to the peer, if anything. -/
def enqueue [DecidableEq H] (q : UpdateQueue H K) (db : DB H K G) (peerID : H) (update : Update) :
    Except (Fault QueueErr) (Option BlobReq) × UpdateQueue H K :=
  match q.precheck db update with
  | .error f => (.error f, q)
  | .ok (.inl req) => (.ok (some req), q)
  | .ok (.inr info) =>
    match q.insert peerID update info with
    | (.error f, q) => (.error f, q)
    | (.ok (), q) => (.ok none, q)

def dequeue (q : UpdateQueue H K) : Option (UpdateQueueItem H K) × UpdateQueue H K :=
  match q.queue with
  | [] => (none, q)
  | name :: rest =>
    (q.entries name, { q with
      queue := rest
      queueLen := q.queueLen - 1
      entries := Function.update q.entries name none })

/-! ## What a call can do -/

section

variable [DecidableEq H] {q : UpdateQueue H K}

/-- The locked section: the name joins the queue; a larger size replaces the item; the peer
    joins one that is not larger, and not older unless it is the same; or the update is refused. -/
theorem insert_cases (q : UpdateQueue H K) (peerID : H) (update : Update) (info : NameInfo K) :
    (q.entries update.name = none ∧ q.insert peerID update info =
      (.ok (), { q with
        entries := Function.update q.entries update.name (some (newItem peerID update info))
        queue := q.queue ++ [update.name]
        queueLen := q.queueLen + 1 })) ∨
    (∃ entry, q.entries update.name = some entry ∧ entry.sectorSize < update.sectorSize ∧
      q.insert peerID update info =
        (.ok (), { q with entries := Function.update q.entries update.name (some (newItem peerID update info)) })) ∨
    (∃ entry, q.entries update.name = some entry ∧ update.sectorSize ≤ entry.sectorSize ∧
      entry.epochHeight ≤ update.epochHeight ∧
      (entry.epochHeight = update.epochHeight → entry.sectorSize = update.sectorSize) ∧
      q.insert peerID update info =
        (.ok (), { q with
          entries := Function.update q.entries update.name
            (some { entry with peerIDs := PeerSet.add entry.peerIDs peerID }) })) ∨
    (∃ entry f, q.entries update.name = some entry ∧ q.insert peerID update info = (.error f, q)) := by
  cases he : q.entries update.name with
  | none => exact .inl ⟨rfl, by simp only [insert, he]⟩
  | some entry =>
    simp only [insert, he]
    by_cases hs : entry.sectorSize < update.sectorSize
    · exact .inr (.inl ⟨entry, rfl, hs, by rw [if_pos hs]⟩)
    by_cases hb : entry.epochHeight > update.epochHeight
    · exact .inr (.inr (.inr ⟨entry, _, rfl, by rw [if_neg hs, if_pos hb]⟩))
    by_cases hst : entry.epochHeight = update.epochHeight ∧ entry.sectorSize > update.sectorSize
    · exact .inr (.inr (.inr ⟨entry, _, rfl, by rw [if_neg hs, if_neg hb, if_pos hst]⟩))
    have hle := UInt16.not_lt.mp hs
    refine .inr (.inr (.inl ⟨entry, rfl, hle, UInt16.not_lt.mp hb, fun h => ?_, by rw [if_neg hs, if_neg hb, if_neg hst]⟩))
    exact UInt16.le_antisymm (UInt16.not_lt.mp fun hlt => hst ⟨h, hlt⟩) hle

theorem insert_queue (q : UpdateQueue H K) (peerID : H) (update : Update) (info : NameInfo K) :
    (q.insert peerID update info).2.maxLen = q.maxLen ∧
    ((q.entries update.name = none ∧ (q.insert peerID update info).2.queue = q.queue ++ [update.name] ∧
        (q.insert peerID update info).2.queueLen = q.queueLen + 1) ∨
      (q.entries update.name ≠ none ∧ (q.insert peerID update info).2.queue = q.queue ∧
        (q.insert peerID update info).2.queueLen = q.queueLen)) := by
  rcases insert_cases q peerID update info with ⟨hn, h⟩ | ⟨e, he, -, h⟩ | ⟨e, he, -, -, -, h⟩ | ⟨e, f, he, h⟩ <;> rw [h]
  · exact ⟨rfl, .inl ⟨hn, rfl, rfl⟩⟩
  all_goals exact ⟨rfl, .inr ⟨by rw [he]; nofun, rfl, rfl⟩⟩

/-- A call is refused, answered with a request for a proof, or files the update. -/
theorem enqueue_cases (q : UpdateQueue H K) (db : DB H K G) (peerID : H) (update : Update) :
    (∃ f, q.enqueue db peerID update = (.error f, q)) ∨
    (∃ req, q.enqueue db peerID update = (.ok (some req), q) ∧ update.sectorSize = 0) ∨
    (∃ info, q.precheck db update = .ok (.inr info) ∧ (q.insert peerID update info).1 = .ok () ∧
      q.enqueue db peerID update = (.ok none, (q.insert peerID update info).2)) := by
  unfold enqueue
  cases hc : q.precheck db update with
  | error f => exact .inl ⟨f, rfl⟩
  | ok r =>
    cases r with
    | inl req =>
      refine .inr (.inl ⟨req, rfl, ?_⟩)
      unfold precheck at hc
      split at hc
      · cases hc
      split at hc
      · cases hc
      split at hc
      · assumption
      split at hc
      · cases hc
      split at hc
      · cases hc
      split at hc <;> cases hc
    | inr info =>
      rcases insert_cases q peerID update info with ⟨-, h⟩ | ⟨e, -, -, h⟩ | ⟨e, -, -, -, -, h⟩ | ⟨e, f, -, h⟩
      · exact .inr (.inr ⟨info, rfl, by rw [h], by simp only [h]⟩)
      · exact .inr (.inr ⟨info, rfl, by rw [h], by simp only [h]⟩)
      · exact .inr (.inr ⟨info, rfl, by rw [h], by simp only [h]⟩)
      · exact .inl ⟨f, by simp only [h]⟩

omit [DecidableEq H] in
theorem precheck_room {db : DB H K G} {update : Update} {info : NameInfo K} (h : q.precheck db update = .ok (.inr info)) :
    q.queueLen < q.maxLen := by
  unfold precheck at h
  split at h
  · cases h
  · rename_i hlt
    exact Int.not_le.mp hlt

omit [DecidableEq H] in
theorem dequeue_queue (q : UpdateQueue H K) : q.dequeue.2.maxLen = q.maxLen ∧
    (q.queue = [] ∧ q.dequeue.2 = q ∨
      ∃ name, q.queue = name :: q.dequeue.2.queue ∧ q.dequeue.2.queueLen = q.queueLen - 1) := by
  cases hq : q.queue with
  | nil => exact ⟨by simp only [dequeue, hq], .inl ⟨rfl, by simp only [dequeue, hq]⟩⟩
  | cons name rest => exact ⟨by simp only [dequeue, hq], .inr ⟨name, by simp only [dequeue, hq], by simp only [dequeue, hq]⟩⟩

omit [DecidableEq H] in
theorem dequeue_entries (q : UpdateQueue H K) (name : Name) :
    q.dequeue.2.entries name = none ∨ q.dequeue.2.entries name = q.entries name := by
  unfold dequeue
  split
  · exact .inr rfl
  · rename_i head rest _
    by_cases h : name = head
    · subst h; exact .inl (Function.update_self _ _ _)
    · exact .inr (Function.update_of_ne h _ _)

end

end UpdateQueue

end Fnd.Protocol

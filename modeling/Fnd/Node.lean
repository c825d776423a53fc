/-
  Fnd.Node — one node as a state machine over the components' functions.

  A step is one event: the clock moves on; an update is enqueued; a worker (`runWorker`)
  takes an item off the queue, then goes through the three parts of `UpdateBlob` (the
  checks, `TryLock`, the sync with the writes) as separate steps; a `BlobReq` or an
  `EquivocationProof` is handled; an RPC client checks out, writes or commits. Workers,
  handlers and clients interleave in any order. A panic takes the process down: from then
  on no step does anything.

  Proved here: a worker between `TryLock` and `Unlock` is alone on its name (`Held`), the
  RPC's open transactions are live, a worker only makes its own moves (`step_worker`), and
  every step either stores no header, blob or sector hashes, or is a worker's write or a
  commit (`step_cases`). A worker's three steps in a row are `UpdateBlob` (`run_updateBlob`).
-/

import Fnd.Lib.Machine
import Fnd.Protocol.SectorServer
import Fnd.Rpc.Server
import Fnd.Symbolic

namespace Fnd.Node

open Blob (File Tx tip)
open Store (DB Header)
open Wire (BlobRes BlobReq EquivocationProof Update)
open Protocol
open Util (MultiLocker)

variable {H K G : Type}

/-- Where a worker is in its loop. -/
inductive Worker (H K : Type) where
  | idle
  | dequeued (item : UpdateQueueItem H K)
  | admitted (item : UpdateQueueItem H K) (plan : Plan H)
  | locked (item : UpdateQueueItem H K) (plan : Plan H)
  deriving DecidableEq

structure State (H K G : Type) where
  clock : Time
  down : Bool
  shared : Shared H K G
  queue : UpdateQueue H K
  workers : Nat → Worker H K
  cache : ResponseCache
  rpc : Rpc.Server
  /-- Ghost: how many headers were stored for a name. -/
  stores : Name → Nat
  /-- Ghost: that number, for a transaction's name, when it was checked out. -/
  seen : UInt32 → Nat
  /-- Ghost: the ban record a worker's last successful checks read. -/
  banRead : Nat → Option Nat

inductive Event (H G : Type) where
  | tick (now : Time)
  | update (peerID : H) (msg : Update)
  | dequeue (w : Nat)
  | check (w : Nat)
  | lock (w : Nat)
  | finish (w : Nat) (msgs : List (BlobRes H G))
  | blobReq (req : BlobReq)
  | equivocationProof (msg : EquivocationProof H G)
  | checkout (req : Rpc.CheckoutReq)
  | writeSector (txID : UInt32) (data : Bytes)
  | commit (req : Rpc.CommitReq H G)

/-- A node that has just started over the given store and blobs. -/
def start (clock : Time) (db : DB H K G) (blobs : Name → File) : State H K G :=
  ⟨clock, false, ⟨db, blobs, MultiLocker.new⟩, UpdateQueue.new, fun _ => .idle, Util.Cache.new, Rpc.Server.new,
    fun _ => 0, fun _ => 0, fun _ => none⟩

def panicked {ε α : Type} : Except (Fault ε) α → Bool
  | .error f => f.isPanic
  | .ok _ => false

def State.setWorker (n : State H K G) (w : Nat) (x : Worker H K) : State H K G :=
  { n with workers := Function.update n.workers w x }

def count (stores : Name → Nat) : Option (Header H G) → Name → Nat
  | none => stores
  | some header => Function.update stores header.name (stores header.name + 1)

variable [Zero H] [DecidableEq H] (P : Prims H K G)

/-- The header an event stores at a running node, if any. -/
def writes (n : State H K G) : Event H G → Option (Header H G)
  | .finish w msgs =>
    match n.workers w with
    | .locked item plan => storedIn (apply P n.clock item plan msgs n.shared).1
    | _ => none
  | .commit req => (Rpc.commit P n.clock n.shared n.rpc req).stored
  | _ => none

def act (n : State H K G) : Event H G → State H K G
  | .tick now => { n with clock := max n.clock now }
  | .update peerID msg =>
    let (r, q) := n.queue.enqueue n.shared.db peerID msg
    { n with queue := q, down := panicked r }
  | .dequeue w =>
    match n.workers w with
    | .idle =>
      match n.queue.dequeue with
      | (none, q) => { n with queue := q }
      | (some item, q) => { n with queue := q }.setWorker w (.dequeued item)
    | _ => n
  | .check w =>
    match n.workers w with
    | .dequeued item =>
      match Protocol.check P n.clock n.shared.db item with
      | .error f => { n with down := f.isPanic }.setWorker w .idle
      | .ok plan =>
        { n with banRead := Function.update n.banRead w (n.shared.db.headerBans item.name) }.setWorker w (.admitted item plan)
    | _ => n
  | .lock w =>
    match n.workers w with
    | .admitted item plan =>
      match n.shared.locks.tryLock item.name with
      | none => n.setWorker w .idle
      | some locks => { n with shared := { n.shared with locks := locks } }.setWorker w (.locked item plan)
    | _ => n
  | .finish w msgs =>
    match n.workers w with
    | .locked item plan =>
      let (r, s) := Protocol.finish P n.clock item plan msgs n.shared
      { n with shared := s, down := panicked (readImportHeight s.db r)
               stores := count n.stores (writes P n (.finish w msgs)) }.setWorker w .idle
    | _ => n
  | .blobReq req =>
    let (r, s, cache) := onBlobReq n.clock n.shared n.cache req
    { n with shared := s, cache := cache, down := panicked r }
  | .equivocationProof msg =>
    match onEquivocationProof P n.clock n.shared.db msg with
    | .error f => { n with down := f.isPanic }
    | .ok db => { n with shared := { n.shared with db := db } }
  | .checkout req =>
    let (r, srv) := Rpc.checkout P n.clock n.shared n.rpc req
    { n with rpc := srv, down := panicked r
             seen := match r with
               | .ok _ => Function.update n.seen srv.lastTxID (n.stores req.name)
               | .error _ => n.seen }
  | .writeSector txID data =>
    let (r, srv) := Rpc.writeSector n.clock n.shared n.rpc txID data
    { n with rpc := srv, down := panicked r }
  | .commit req =>
    let out := Rpc.commit P n.clock n.shared n.rpc req
    { n with shared := out.shared, rpc := out.server, down := panicked out.res
             stores := count n.stores (writes P n (.commit req)) }

def step (n : State H K G) (e : Event H G) : State H K G := if n.down then n else act P n e

def stored (n : State H K G) (e : Event H G) : Option (Header H G) := if n.down then none else writes P n e

/-! ## Workers and locks -/

/-- A worker past `TryLock` holds its name's lock, and no other worker is there. -/
structure Held (n : State H K G) : Prop where
  lock : ∀ w item plan, n.workers w = .locked item plan → n.shared.locks item.name = ⟨0, 1⟩
  alone : ∀ w w' item plan item' plan', n.workers w = .locked item plan → n.workers w' = .locked item' plan' →
    item.name = item'.name → w = w'

structure Inv (n : State H K G) : Prop where
  held : Held n
  live : n.rpc.Live

section

variable {n : State H K G}

omit [Zero H] [DecidableEq H] in
theorem Held.keep (h : Held n) {n' : State H K G}
    (hw : ∀ w item plan, n'.workers w = .locked item plan → n.workers w = .locked item plan)
    (hl : ∀ k, (n.shared.locks k).writers > 0 → n'.shared.locks k = n.shared.locks k) : Held n' where
  lock w item plan hx := by
    have hlock := h.lock w item plan (hw w item plan hx)
    rw [hl _ (by rw [hlock]; decide), hlock]
  alone w w' item plan item' plan' hx hx' := h.alone w w' item plan item' plan' (hw _ _ _ hx) (hw _ _ _ hx')

omit [Zero H] [DecidableEq H] in
theorem Held.setWorker (h : Held n) {n' : State H K G} {w : Nat} {x : Worker H K}
    (hw : n'.workers = Function.update n.workers w x) (hs : n'.shared.locks = n.shared.locks)
    (hx : ∀ item plan, x ≠ .locked item plan) : Held n' := by
  refine h.keep (fun v item plan hv => ?_) fun _ _ => by rw [hs]
  rw [hw] at hv
  by_cases e : v = w
  · subst e
    rw [Function.update_self] at hv
    exact absurd hv (hx item plan)
  · rwa [Function.update_of_ne e] at hv

omit [Zero H] [DecidableEq H] in
theorem Held.tryLock (h : Held n) {w : Nat} {item : UpdateQueueItem H K} {plan : Plan H} {locks : MultiLocker Name}
    (hl : n.shared.locks.tryLock item.name = some locks) :
    Held ({ n with shared := { n.shared with locks := locks } }.setWorker w (.locked item plan)) := by
  obtain ⟨hfree, rfl⟩ := MultiLocker.tryLock_eq_some.mp hl
  have hother : ∀ v item' plan', n.workers v = .locked item' plan' → item'.name ≠ item.name := by
    intro v item' plan' hv e
    have := h.lock v item' plan' hv
    rw [e, hfree] at this; cases this
  have hcases : ∀ v item' plan', Function.update n.workers w (.locked item plan) v = .locked item' plan' →
      (v = w ∧ item' = item) ∨ (v ≠ w ∧ n.workers v = .locked item' plan') := by
    intro v item' plan' hv
    by_cases e : v = w
    · subst e
      rw [Function.update_self] at hv
      cases hv; exact .inl ⟨rfl, rfl⟩
    · rw [Function.update_of_ne e] at hv; exact .inr ⟨e, hv⟩
  constructor
  · intro v item' plan' hv
    rcases hcases v item' plan' hv with ⟨-, rfl⟩ | ⟨-, hv⟩
    · simp [State.setWorker]
    · simpa [State.setWorker, Function.update_of_ne (hother v item' plan' hv)] using h.lock v item' plan' hv
  · intro v v' i p i' p' hv hv' hname
    rcases hcases v i p hv with ⟨hvw, hi⟩ | ⟨-, hv⟩ <;> rcases hcases v' i' p' hv' with ⟨hvw', hi'⟩ | ⟨-, hv'⟩
    · rw [hvw, hvw']
    · exact absurd (hname.symm.trans (by rw [hi])) (hother v' i' p' hv')
    · exact absurd (hname.trans (by rw [hi'])) (hother v i p hv)
    · exact h.alone v v' i p i' p' hv hv' hname

omit [Zero H] [DecidableEq H] in
theorem Held.unlock (h : Held n) {w : Nat} {item : UpdateQueueItem H K} {plan : Plan H}
    (hw : n.workers w = .locked item plan) {n' : State H K G}
    (hworkers : n'.workers = Function.update n.workers w .idle)
    (hlocks : n'.shared.locks = Function.update n.shared.locks item.name ⟨0, 0⟩) : Held n' := by
  have hcases : ∀ v item' plan', n'.workers v = .locked item' plan' → v ≠ w ∧ n.workers v = .locked item' plan' := by
    intro v item' plan' hv
    rw [hworkers] at hv
    by_cases e : v = w
    · subst e; rw [Function.update_self] at hv; cases hv
    · rw [Function.update_of_ne e] at hv; exact ⟨e, hv⟩
  constructor
  · intro v item' plan' hv
    obtain ⟨hne, hv⟩ := hcases v item' plan' hv
    have hname : item'.name ≠ item.name := fun e => hne (h.alone v w item' plan' item plan hv hw e)
    rw [hlocks, Function.update_of_ne hname, h.lock v item' plan' hv]
  · intro v v' i p i' p' hv hv'
    exact h.alone v v' i p i' p' (hcases v i p hv).2 (hcases v' i' p' hv').2

variable {P}

theorem act_inv (hi : Inv n) (e : Event H G) : Inv (act P n e) := by
  obtain ⟨hh, hl⟩ := hi
  have hkeep {n' : State H K G} (hw : n'.workers = n.workers) (hs : n'.shared.locks = n.shared.locks) : Held n' :=
    hh.keep (fun w item plan hx => by rwa [hw] at hx) fun k _ => by rw [hs]
  cases e with
  | tick now => exact ⟨hkeep rfl rfl, hl⟩
  | update peerID msg => exact ⟨hkeep rfl rfl, hl⟩
  | dequeue w =>
    simp only [act]
    split
    · split
      · exact ⟨hkeep rfl rfl, hl⟩
      · exact ⟨hh.setWorker rfl rfl nofun, hl⟩
    · exact ⟨hh, hl⟩
  | check w =>
    simp only [act]
    split
    · split
      · exact ⟨hh.setWorker rfl rfl nofun, hl⟩
      · exact ⟨hh.setWorker rfl rfl nofun, hl⟩
    · exact ⟨hh, hl⟩
  | lock w =>
    simp only [act]
    split
    · split
      · exact ⟨hh.setWorker rfl rfl nofun, hl⟩
      · rename_i hlock; exact ⟨hh.tryLock hlock, hl⟩
    · exact ⟨hh, hl⟩
  | finish w msgs =>
    simp only [act]
    split
    · rename_i item plan hw
      have hf := finish_eq P n.clock item plan msgs (s := n.shared) (by rw [hh.lock w item plan hw])
      exact ⟨hh.unlock hw rfl (by simp only [State.setWorker, hf]), hl⟩
    · exact ⟨hh, hl⟩
  | blobReq req =>
    obtain ⟨locks, hs, hlocks⟩ := onBlobReq_shared n.clock n.shared n.cache req
    refine ⟨hh.keep (fun _ _ _ hx => hx) fun k hk => ?_, hl⟩
    simp only [act, hs]
    exact hlocks k hk
  | equivocationProof msg =>
    simp only [act]
    split <;> exact ⟨hkeep rfl rfl, hl⟩
  | checkout req => exact ⟨hkeep rfl rfl, hl.checkout P n.clock n.shared req⟩
  | writeSector txID data => exact ⟨hkeep rfl rfl, hl.writeSector n.clock n.shared txID data⟩
  | commit req =>
    refine ⟨hkeep rfl ?_, hl.commit P n.clock n.shared req⟩
    simp only [act]
    rcases Rpc.commit_live_cases P n.clock n.shared req hl with ⟨-, hs, -⟩ | ⟨tx, expiry, -, -, -, -, hs, -⟩ <;> rw [hs]

theorem step_inv (hi : Inv n) (e : Event H G) : Inv (step P n e) := by
  unfold step
  split
  · exact hi
  · exact act_inv hi e

/-! ## What a step leaves alone -/

def Event.isRpc : Event H G → Bool
  | .checkout _ | .writeSector .. | .commit _ => true
  | _ => false

/-- A worker's steps before it syncs. -/
def Event.isEarly : Event H G → Bool
  | .dequeue _ | .check _ | .lock _ => true
  | _ => false

/-- What such a step leaves alone: all but the queue, the workers, what they read and the locks. -/
structure Untouched (n n' : State H K G) : Prop where
  clock : n'.clock = n.clock
  db : n'.shared.db = n.shared.db
  blobs : n'.shared.blobs = n.shared.blobs
  cache : n'.cache = n.cache
  rpc : n'.rpc = n.rpc
  stores : n'.stores = n.stores
  seen : n'.seen = n.seen

theorem act_untouched (P : Prims H K G) (n : State H K G) {e : Event H G} (he : e.isEarly = true) : Untouched n (act P n e) := by
  cases e with
  | dequeue w | check w | lock w =>
    simp only [act]
    split
    · split <;> exact ⟨rfl, rfl, rfl, rfl, rfl, rfl, rfl⟩
    · exact ⟨rfl, rfl, rfl, rfl, rfl, rfl, rfl⟩
  | _ => cases he

/-- Only a tick moves the clock; only an RPC call touches the transactions. -/
theorem step_frame (P : Prims H K G) (n : State H K G) (e : Event H G) :
    ((step P n e).clock = n.clock ∨ ∃ now, e = .tick now) ∧
    ((step P n e).rpc = n.rpc ∧ (step P n e).seen = n.seen ∨ e.isRpc = true) := by
  unfold step
  split
  · exact ⟨.inl rfl, .inl ⟨rfl, rfl⟩⟩
  have hearly : e.isEarly = true → Untouched n (act P n e) := act_untouched P n
  cases e with
  | tick now => exact ⟨.inr ⟨now, rfl⟩, .inl ⟨rfl, rfl⟩⟩
  | checkout _ | writeSector _ _ | commit _ => exact ⟨.inl rfl, .inr rfl⟩
  | dequeue w | check w | lock w =>
    exact ⟨.inl (hearly rfl).clock, .inl ⟨(hearly rfl).rpc, (hearly rfl).seen⟩⟩
  | finish _ _ | equivocationProof _ =>
    simp only [act]
    split <;> exact ⟨.inl rfl, .inl ⟨rfl, rfl⟩⟩
  | update _ _ | blobReq _ => exact ⟨.inl rfl, .inl ⟨rfl, rfl⟩⟩

theorem step_clock (P : Prims H K G) (n : State H K G) (e : Event H G) : n.clock ≤ (step P n e).clock := by
  rcases (step_frame P n e).1 with h | ⟨now, rfl⟩
  · exact Int.le_of_eq h.symm
  · simp only [step, act]
    split
    · exact Int.le_refl _
    · exact Int.le_max_left _ _

/-! ## How a worker moves -/

/-- The moves of worker `w`: the event, where it then is, and the ban record it then has read. -/
inductive Moved (P : Prims H K G) (n : State H K G) (w : Nat) : Event H G → Worker H K → Option Nat → Prop
  | dequeued (item : UpdateQueueItem H K) :
      n.workers w = .idle → Moved P n w (.dequeue w) (.dequeued item) (n.banRead w)
  | rejected (item : UpdateQueueItem H K) (f : Fault UpdaterErr) :
      n.workers w = .dequeued item → Protocol.check P n.clock n.shared.db item = .error f →
      Moved P n w (.check w) .idle (n.banRead w)
  | admitted (item : UpdateQueueItem H K) (plan : Plan H) :
      n.workers w = .dequeued item → Protocol.check P n.clock n.shared.db item = .ok plan →
      Moved P n w (.check w) (.admitted item plan) (n.shared.db.headerBans item.name)
  | busy (item : UpdateQueueItem H K) (plan : Plan H) :
      n.workers w = .admitted item plan → Moved P n w (.lock w) .idle (n.banRead w)
  | locked (item : UpdateQueueItem H K) (plan : Plan H) :
      n.workers w = .admitted item plan → (n.shared.locks.tryLock item.name).isSome = true →
      Moved P n w (.lock w) (.locked item plan) (n.banRead w)
  | finished (item : UpdateQueueItem H K) (plan : Plan H) (msgs : List (BlobRes H G)) :
      n.workers w = .locked item plan → Moved P n w (.finish w msgs) .idle (n.banRead w)

omit [DecidableEq H] in
theorem Moved.setWorker {m : State H K G} {e : Event H G} {v : Nat} {x : Worker H K} (h : Moved P n v e x (n.banRead v))
    (hw : m.workers = n.workers) (hb : m.banRead = n.banRead) (w : Nat) :
    (m.setWorker v x).workers w = n.workers w ∧ (m.setWorker v x).banRead w = n.banRead w ∨
      Moved P n w e ((m.setWorker v x).workers w) ((m.setWorker v x).banRead w) := by
  have hread : (m.setWorker v x).banRead = n.banRead := hb
  rw [hread]
  by_cases hv : w = v
  · subst hv
    rw [show (m.setWorker w x).workers w = x from Function.update_self _ _ _]
    exact .inr h
  · exact .inl ⟨(Function.update_of_ne hv _ _).trans (congrFun hw w), rfl⟩

theorem step_worker (P : Prims H K G) (n : State H K G) (e : Event H G) (w : Nat) :
    (step P n e).workers w = n.workers w ∧ (step P n e).banRead w = n.banRead w ∨
      Moved P n w e ((step P n e).workers w) ((step P n e).banRead w) := by
  unfold step
  split
  · exact .inl ⟨rfl, rfl⟩
  cases e with
  | dequeue v =>
    cases hv : n.workers v with
    | idle =>
      rcases hq : n.queue.dequeue with ⟨_ | item, q⟩
      · exact .inl ⟨by simp only [act, hv, hq], by simp only [act, hv, hq]⟩
      · simp only [act, hv, hq]
        exact Moved.setWorker (.dequeued item hv) rfl rfl w
    | _ => exact .inl ⟨by simp only [act, hv], by simp only [act, hv]⟩
  | check v =>
    cases hv : n.workers v with
    | dequeued item =>
      cases ha : Protocol.check P n.clock n.shared.db item with
      | error f =>
        simp only [act, hv, ha]
        exact Moved.setWorker (.rejected item f hv ha) rfl rfl w
      | ok plan =>
        -- the one move that also sets what the worker has read
        simp only [act, hv, ha]
        by_cases h : v = w
        · subst h
          simp only [State.setWorker, Function.update_self]
          exact .inr (.admitted item plan hv ha)
        · exact .inl ⟨Function.update_of_ne (Ne.symm h) _ _, Function.update_of_ne (Ne.symm h) _ _⟩
    | _ => exact .inl ⟨by simp only [act, hv], by simp only [act, hv]⟩
  | lock v =>
    cases hv : n.workers v with
    | admitted item plan =>
      cases hl : n.shared.locks.tryLock item.name with
      | none =>
        simp only [act, hv, hl]
        exact Moved.setWorker (.busy item plan hv) rfl rfl w
      | some locks =>
        simp only [act, hv, hl]
        exact Moved.setWorker (.locked item plan hv (by rw [hl]; rfl)) rfl rfl w
    | _ => exact .inl ⟨by simp only [act, hv], by simp only [act, hv]⟩
  | finish v msgs =>
    cases hv : n.workers v with
    | locked item plan =>
      simp only [act, hv]
      exact Moved.setWorker (.finished item plan msgs hv) rfl rfl w
    | _ => exact .inl ⟨by simp only [act, hv], by simp only [act, hv]⟩
  | equivocationProof msg =>
    simp only [act]
    split <;> exact .inl ⟨rfl, rfl⟩
  | _ => exact .inl ⟨rfl, rfl⟩

/-- A worker past `TryLock` was there before, or has just got the lock. -/
theorem step_locked {e : Event H G} {w : Nat} {item : UpdateQueueItem H K} {plan : Plan H}
    (h : (step P n e).workers w = .locked item plan) : (step P n e).banRead w = n.banRead w ∧
      (n.workers w = .locked item plan ∨
        e = .lock w ∧ n.workers w = .admitted item plan ∧ (n.shared.locks.tryLock item.name).isSome = true) := by
  have hm := step_worker P n e w
  generalize (step P n e).banRead w = ban at hm ⊢
  rw [h] at hm
  rcases hm with ⟨hw, hb⟩ | hm
  · exact ⟨hb, .inl hw.symm⟩
  · cases hm with
    | locked _ _ ha hl => exact ⟨rfl, .inr ⟨rfl, ha, hl⟩⟩

/-- A worker past the checks was there before, or has just passed them. -/
theorem step_admitted {e : Event H G} {w : Nat} {item : UpdateQueueItem H K} {plan : Plan H}
    (h : (step P n e).workers w = .admitted item plan) :
    (n.workers w = .admitted item plan ∧ (step P n e).banRead w = n.banRead w) ∨
      (e = .check w ∧ n.workers w = .dequeued item ∧ Protocol.check P n.clock n.shared.db item = .ok plan ∧
        (step P n e).banRead w = n.shared.db.headerBans item.name) := by
  have hm := step_worker P n e w
  generalize (step P n e).banRead w = ban at hm ⊢
  rw [h] at hm
  rcases hm with ⟨hw, hb⟩ | hm
  · exact .inl ⟨hw.symm, hb⟩
  · cases hm with
    | admitted _ _ hd ha => exact .inr ⟨rfl, hd, ha, rfl⟩

/-! ## What a step stores -/

/-- A worker's write: its name is locked, the response decided the sync and passed every check. -/
structure WorkerWrite (P : Prims H K G) (n : State H K G) (e : Event H G) (item : UpdateQueueItem H K) (plan : Plan H)
    (msg : BlobRes H G) : Prop where
  event : ∃ w msgs, e = .finish w msgs ∧ n.workers w = .locked item plan ∧ (step P n e).workers w = .idle ∧
    msg ∈ msgs ∧ decidingRes P n.clock item plan n.shared msgs = some msg
  stores : Stores P n.clock item plan n.shared msg
  header : stored P n e = some (storedHeader P n.clock item plan n.shared msg)
  db : (step P n e).shared.db = (store P n.clock item plan n.shared msg).db
  blobs : (step P n e).shared.blobs = (store P n.clock item plan n.shared msg).blobs

/-- A commit's write: from an open transaction, which the call then reports as committed. -/
structure CommitWrite (P : Prims H K G) (n : State H K G) (e : Event H G) (req : Rpc.CommitReq H G) (tx : Tx) : Prop where
  event : e = .commit req
  open_ : ∃ expiry, n.rpc.txStore req.txID = some ⟨tx, expiry⟩
  size : req.sectorSize.toUInt16.toNat ≤ Blob.maxSectors
  header : stored P n e = some (Rpc.committedHeader P n.clock n.shared req tx)
  db : (step P n e).shared.db =
    n.shared.db.setHeader (Rpc.committedHeader P n.clock n.shared req tx) (Rpc.committedHashes P n.shared req tx)
  blobs : (step P n e).shared.blobs =
    Function.update n.shared.blobs tx.name (tx.view (n.shared.blobs tx.name))
  ok : ∃ u, (Rpc.commit P n.clock n.shared n.rpc req).res = .ok u

/-- A step that stores no header: it leaves the blobs as they were, and the database but
    for a ban. -/
structure Keeps (P : Prims H K G) (n : State H K G) (e : Event H G) : Prop where
  header : stored P n e = none
  db : ∃ name, BanStep n.clock name n.shared.db (step P n e).shared.db
  blobs : (step P n e).shared.blobs = n.shared.blobs

theorem Keeps.same {e : Event H G} (h : Keeps P n e) : SameHeaders n.shared.db (step P n e).shared.db := by
  obtain ⟨name, hb⟩ := h.db
  exact hb.sameHeaders

theorem step_cases (hi : Inv n) (e : Event H G) :
    Keeps P n e ∨ (∃ item plan msg, WorkerWrite P n e item plan msg) ∨ (∃ req tx, CommitWrite P n e req tx) := by
  by_cases hd : n.down = true
  · exact .inl ⟨by simp [stored, hd], ⟨[], .inl (by simp [step, hd])⟩, by simp [step, hd]⟩
  have hstep : step P n e = act P n e := by simp only [step, hd]; rfl
  have hstored : stored P n e = writes P n e := by simp only [stored, hd]; rfl
  have hsame (hw : writes P n e = none) (hs : (act P n e).shared = n.shared) : Keeps P n e :=
    ⟨by rw [hstored, hw], ⟨[], .inl (by rw [hstep, hs])⟩, by rw [hstep, hs]⟩
  have hearly : e.isEarly = true → Untouched n (step P n e) := fun he => hstep ▸ act_untouched P n he
  cases e with
  | tick now => exact .inl (hsame rfl rfl)
  | update peerID msg => exact .inl (hsame rfl rfl)
  | dequeue w | check w | lock w => exact .inl ⟨hstored, ⟨[], .inl (hearly rfl).db⟩, (hearly rfl).blobs⟩
  | finish w msgs =>
    cases hw : n.workers w with
    | locked item plan =>
      have hf := finish_eq P n.clock item plan msgs (s := n.shared) (by rw [hi.held.lock w item plan hw])
      rcases apply_cases P n.clock item plan msgs n.shared with ⟨msg, hmem, hdec, hst, ha⟩ | ⟨r, db, ha, hnone, hban⟩
      · have hidle : (step P n (.finish w msgs)).workers w = .idle := by
          rw [hstep]; simp only [act, hw, State.setWorker, Function.update_self]
        refine .inr (.inl ⟨item, plan, msg, ⟨w, msgs, rfl, hw, hidle, hmem, hdec⟩, hst, ?_, ?_, ?_⟩)
        · rw [hstored]; simp only [writes, hw, ha, storedIn]
        · rw [hstep]; simp only [act, hw, hf, ha, State.setWorker]
        · rw [hstep]; simp only [act, hw, hf, ha, State.setWorker]
      · refine .inl ⟨?_, ⟨item.name, ?_⟩, ?_⟩
        · rw [hstored]; simpa only [writes, hw, ha] using hnone
        · rw [hstep]; simp only [act, hw, hf, ha, State.setWorker]; exact hban
        · rw [hstep]; simp only [act, hw, hf, ha, State.setWorker]
    | idle => exact .inl (hsame (by simp only [writes, hw]) (by simp only [act, hw]))
    | dequeued item => exact .inl (hsame (by simp only [writes, hw]) (by simp only [act, hw]))
    | admitted item plan => exact .inl (hsame (by simp only [writes, hw]) (by simp only [act, hw]))
  | blobReq req =>
    obtain ⟨locks, hs, -⟩ := onBlobReq_shared n.clock n.shared n.cache req
    exact .inl ⟨hstored, ⟨[], .inl (by rw [hstep]; simp only [act, hs])⟩, by rw [hstep]; simp only [act, hs]⟩
  | equivocationProof msg =>
    left
    cases hp : onEquivocationProof P n.clock n.shared.db msg with
    | error f => exact hsame rfl (by simp only [act, hp])
    | ok db =>
      obtain ⟨-, rfl⟩ := onEquivocationProof_ok hp
      exact ⟨hstored, ⟨msg.name, .inr ⟨msg, by rw [hstep]; simp only [act, hp]; rfl⟩⟩, by rw [hstep]; simp only [act, hp]⟩
  | checkout req => exact .inl (hsame rfl rfl)
  | writeSector txID data => exact .inl (hsame rfl rfl)
  | commit req =>
    rcases Rpc.commit_live_cases P n.clock n.shared req hi.live with ⟨hn, hs, -⟩ | ⟨tx, expiry, hid, -, hsz, hst, hs, hok⟩
    · exact .inl (hsame hn hs)
    · refine .inr (.inr ⟨req, tx, rfl, ⟨expiry, hid⟩, hsz, ?_, ?_, ?_, hok⟩)
      · rw [hstored]; exact hst
      · rw [hstep]; simp only [act, hs]
      · rw [hstep]; simp only [act, hs]

/-- After a worker's write the item's header is the stored one, the others are as before. -/
theorem WorkerWrite.headers {e : Event H G} {item : UpdateQueueItem H K} {plan : Plan H} {msg : BlobRes H G}
    (h : WorkerWrite P n e item plan msg) : (step P n e).shared.db.headers =
      Function.update n.shared.db.headers item.name (some (storedHeader P n.clock item plan n.shared msg)) := by
  rw [h.db]; rfl

theorem step_stores (P : Prims H K G) (n : State H K G) (e : Event H G) :
    (step P n e).stores = count n.stores (stored P n e) := by
  by_cases hd : n.down = true
  · simp [step, stored, hd, count]
  have hstep : step P n e = act P n e := by simp only [step, hd]; rfl
  have hstored : stored P n e = writes P n e := by simp only [stored, hd]; rfl
  rw [hstep, hstored]
  have hearly : e.isEarly = true → Untouched n (act P n e) := act_untouched P n
  cases e with
  | dequeue w | check w | lock w => exact (hearly rfl).stores
  | finish w msgs =>
    cases hw : n.workers w <;> simp only [act, writes, hw, count, State.setWorker]
  | equivocationProof msg =>
    simp only [act, writes, count]
    split <;> rfl
  | _ => rfl

omit [Zero H] [DecidableEq H] in
/-- One more header was stored for the name, or its header and blob are as before. -/
def StoredOrKept (n n' : State H K G) (name : Name) : Prop :=
  n'.stores name = n.stores name + 1 ∨
  (n'.stores name = n.stores name ∧ n'.shared.db.headers name = n.shared.db.headers name ∧
    n'.shared.blobs name = n.shared.blobs name)

theorem step_name (hi : Inv n) (e : Event H G) (name : Name) : StoredOrKept n (step P n e) name := by
  have hstores := step_stores P n e
  have hwrite {header : Header H G} {f : File} (hs : stored P n e = some header)
      (hh : (step P n e).shared.db.headers = Function.update n.shared.db.headers header.name (some header))
      (hb : (step P n e).shared.blobs = Function.update n.shared.blobs header.name f) :
      StoredOrKept n (step P n e) name := by
    rw [hs] at hstores
    unfold StoredOrKept
    rw [hstores, hh, hb, count]
    by_cases hname : name = header.name
    · subst hname
      exact .inl (Function.update_self _ _ _)
    · exact .inr ⟨Function.update_of_ne hname _ _, Function.update_of_ne hname _ _, Function.update_of_ne hname _ _⟩
  rcases step_cases hi e with hk | ⟨item, plan, msg, hw⟩ | ⟨req, tx, hw⟩
  · rw [hk.header] at hstores
    exact .inr ⟨by rw [hstores, count], by rw [hk.same.headers], by rw [hk.blobs]⟩
  · exact hwrite hw.header hw.headers hw.blobs
  · exact hwrite hw.header (by rw [hw.db]; rfl) hw.blobs

theorem step_cache (P : Prims H K G) (n : State H K G) {e : Event H G} (he : ∀ req, e ≠ .blobReq req) :
    (step P n e).cache = n.cache := by
  unfold step
  split
  · rfl
  have hearly : e.isEarly = true → Untouched n (act P n e) := act_untouched P n
  cases e with
  | blobReq req => exact absurd rfl (he req)
  | dequeue w | check w | lock w => exact (hearly rfl).cache
  | finish _ _ | equivocationProof _ =>
    simp only [act]
    split <;> rfl
  | _ => rfl

theorem step_idle {w : Nat} (hw : n.workers w = .idle) (msgs : List (BlobRes H G)) :
    step P n (.lock w) = n ∧ step P n (.finish w msgs) = n := by
  constructor <;> (simp only [step, act, hw]; split <;> rfl)

/-- A worker's three steps in a row are `UpdateBlob`. -/
theorem run_updateBlob (hd : n.down = false) {w : Nat} {item : UpdateQueueItem H K} (hw : n.workers w = .dequeued item)
    (msgs : List (BlobRes H G)) :
    (Machine.run (step P) n [.check w, .lock w, .finish w msgs]).shared = (updateBlob P n.clock item msgs n.shared).2 := by
  simp only [Machine.run_cons, Machine.run_nil]
  cases ha : Protocol.check P n.clock n.shared.db item with
  | error f =>
    have h1 : step P n (.check w) = { n with down := f.isPanic }.setWorker w .idle := by
      simp only [step, hd, act, hw, ha]; rfl
    have hidle : (step P n (.check w)).workers w = .idle := by rw [h1]; simp [State.setWorker]
    rw [(step_idle hidle msgs).1, (step_idle hidle msgs).2, h1]
    simp only [updateBlob, ha, State.setWorker]
  | ok plan =>
    have h1 : step P n (.check w) =
        { n with banRead := Function.update n.banRead w (n.shared.db.headerBans item.name) }.setWorker w
          (.admitted item plan) := by
      simp only [step, hd, act, hw, ha]; rfl
    cases hl : n.shared.locks.tryLock item.name with
    | none =>
      have h2 : step P (step P n (.check w)) (.lock w) = (step P n (.check w)).setWorker w .idle := by
        rw [h1]; simp [step, hd, act, State.setWorker, hl]
      have hidle : (step P (step P n (.check w)) (.lock w)).workers w = .idle := by rw [h2]; simp [State.setWorker]
      rw [(step_idle hidle msgs).2, h2, h1]
      simp only [updateBlob, ha, hl, State.setWorker]
    | some locks =>
      rw [h1]
      simp [step, hd, act, State.setWorker, hl, updateBlob, ha]

omit [Zero H] [DecidableEq H] in
theorem inv_start (clock : Time) (db : DB H K G) (blobs : Name → File) : Inv (start clock db blobs) :=
  ⟨⟨nofun, nofun⟩, nofun⟩

end

/-- A node that has just started, in the sixth epoch of the one name it knows. -/
def node : State Symbolic.Sym Nat Symbolic.Sig := start (Symbolic.weeks 6) Symbolic.names fun _ => File.zero

end Fnd.Node

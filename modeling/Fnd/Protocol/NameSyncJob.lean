/-
  Fnd.Protocol.NameSyncJob — the periodic sync of all names (`doSync` of `protocol/name_syncer.go`).

  `doSync` reads the stream of names; a buffered channel of size `Workers` is its semaphore. Each
  name gets a goroutine that runs `syncName`, counts the name and takes an element off the channel.
  At the end of the stream the loop fills the channel, so that it waits for the goroutines.

  Proved for every interleaving of the loop, the goroutines and the steps of their calls
  (`job_completes`):
  (1) At most `Workers` calls run, and names start once each, in the order of the stream.
  (2) When the job is reported complete, every name of the stream was synced once, the count is
      their number, and no goroutine is left.
  (3) The job ends, with the report or, where the stream fails, without one. Without workers the
      first name is never started.

  The store's stream reports no failure: an iterator that breaks off ends it early
  (`NameInfoStream.Next`), and the job is then complete with the names before that.
-/

import Fnd.Protocol.NameSyncer

namespace Fnd.Protocol.NameSyncer

/-! ## The job -/

/-- One goroutine of `doSync`. -/
inductive Worker where
  | fetching (name : Name)
  | syncing (name : Name) (call : SyncName)
  /-- `syncName` returned, with or without a report -/
  | returned (name : Name) (outcome : Option Outcome)
  /-- the name is counted -/
  | releasing
  deriving DecidableEq, Repr

/-- What `doSync` does next. -/
inductive Loop where
  | reading
  | acquiring (name : Name)
  | draining (i : Nat)
  | complete (count : Nat)
  | failed
  deriving DecidableEq, Repr

/-- `sem` is how many elements the channel holds. The last two fields are history. -/
structure Job where
  workers : Nat
  /-- what `stream.Next` is going to return, up to the end of the stream -/
  stream : List (Option Name)
  loop : Loop
  sem : Nat
  running : List Worker
  syncCount : Nat
  started : List Name
  synced : List (Name × Option Outcome)
  deriving DecidableEq, Repr

def Job.new (workers : Nat) (stream : List (Option Name)) : Job := ⟨workers, stream, .reading, 0, [], 0, [], []⟩

inductive JobEvent where
  | next
  | acquire
  /-- `GetHeader` fails, or the request is out to so many peers -/
  | ask (worker : Nat) (recips : Option Nat)
  | sync (worker : Nat) (e : Event)
  | report (worker : Nat)
  | count (worker : Nat)
  | release (worker : Nat)
  | drain
  | emit
  deriving DecidableEq, Repr

def JobEvent.isInput : JobEvent → Bool
  | .sync _ e => e.isInput
  | _ => false

namespace Job

def next (j : Job) : JobEvent → Option Job
  | .next =>
    match j.loop, j.stream with
    | .reading, [] => some { j with loop := .draining 0 }
    | .reading, none :: stream => some { j with loop := .failed, stream := stream }
    | .reading, some name :: stream => some { j with loop := .acquiring name, stream := stream }
    | _, _ => none
  | .acquire =>
    match j.loop with
    | .acquiring name =>
      if j.sem < j.workers then
        some { j with loop := .reading, sem := j.sem + 1, running := j.running ++ [.fetching name]
                      started := j.started ++ [name] }
      else none
    | _ => none
  | .ask i recips =>
    match j.running[i]?, recips with
    | some (.fetching name), none => some { j with running := j.running.set i (.returned name none) }
    | some (.fetching name), some sampleSize => some { j with running := j.running.set i (.syncing name (.new sampleSize)) }
    | _, _ => none
  | .sync i e =>
    match j.running[i]? with
    | some (.syncing name call) => (call.next e).map fun call' => { j with running := j.running.set i (.syncing name call') }
    | _ => none
  | .report i =>
    match j.running[i]? with
    | some (.syncing name call) =>
      match call.main with
      | .returned outcome => some { j with running := j.running.set i (.returned name (some outcome)) }
      | _ => none
    | _ => none
  | .count i =>
    match j.running[i]? with
    | some (.returned name outcome) =>
      some { j with running := j.running.set i .releasing, syncCount := j.syncCount + 1, synced := j.synced ++ [(name, outcome)] }
    | _ => none
  | .release i =>
    match j.running[i]? with
    | some .releasing => some { j with running := j.running.eraseIdx i, sem := j.sem - 1 }
    | _ => none
  | .drain =>
    match j.loop with
    | .draining i =>
      if i < j.workers ∧ j.sem < j.workers then some { j with loop := .draining (i + 1), sem := j.sem + 1 } else none
    | _ => none
  | .emit =>
    match j.loop with
    | .draining i => if j.workers ≤ i then some { j with loop := .complete j.syncCount } else none
    | _ => none

def step (j : Job) (e : JobEvent) : Job := (j.next e).getD j

/-- What an event can do. -/
inductive Moves (j : Job) : JobEvent → Job → Prop
  | streamed (hloop : j.loop = .reading) (hstream : j.stream = []) : Moves j .next { j with loop := .draining 0 }
  | failed {stream : List (Option Name)} (hloop : j.loop = .reading) (hstream : j.stream = none :: stream) :
      Moves j .next { j with loop := .failed, stream := stream }
  | read {name : Name} {stream : List (Option Name)} (hloop : j.loop = .reading) (hstream : j.stream = some name :: stream) :
      Moves j .next { j with loop := .acquiring name, stream := stream }
  | acquired {name : Name} (hloop : j.loop = .acquiring name) (hroom : j.sem < j.workers) :
      Moves j .acquire { j with loop := .reading, sem := j.sem + 1, running := j.running ++ [.fetching name]
                                started := j.started ++ [name] }
  | unasked {i : Nat} {name : Name} (hi : j.running[i]? = some (.fetching name)) :
      Moves j (.ask i none) { j with running := j.running.set i (.returned name none) }
  | asked {i : Nat} {name : Name} (sampleSize : Nat) (hi : j.running[i]? = some (.fetching name)) :
      Moves j (.ask i (some sampleSize)) { j with running := j.running.set i (.syncing name (.new sampleSize)) }
  | went {i : Nat} {name : Name} {call call' : SyncName} {e : Event} (hi : j.running[i]? = some (.syncing name call))
      (hcall : call.next e = some call') : Moves j (.sync i e) { j with running := j.running.set i (.syncing name call') }
  | reported {i : Nat} {name : Name} {call : SyncName} {outcome : Outcome} (hi : j.running[i]? = some (.syncing name call))
      (hmain : call.main = .returned outcome) :
      Moves j (.report i) { j with running := j.running.set i (.returned name (some outcome)) }
  | counted {i : Nat} {name : Name} {outcome : Option Outcome} (hi : j.running[i]? = some (.returned name outcome)) :
      Moves j (.count i) { j with running := j.running.set i .releasing, syncCount := j.syncCount + 1
                                  synced := j.synced ++ [(name, outcome)] }
  | released {i : Nat} (hi : j.running[i]? = some .releasing) :
      Moves j (.release i) { j with running := j.running.eraseIdx i, sem := j.sem - 1 }
  | drained {i : Nat} (hloop : j.loop = .draining i) (hlt : i < j.workers) (hroom : j.sem < j.workers) :
      Moves j .drain { j with loop := .draining (i + 1), sem := j.sem + 1 }
  | emitted {i : Nat} (hloop : j.loop = .draining i) (hi : j.workers ≤ i) :
      Moves j .emit { j with loop := .complete j.syncCount }

theorem moves_of_next {j j' : Job} {e : JobEvent} (h : j.next e = some j') : j.Moves e j' := by
  cases e with
  | next =>
    simp only [next] at h
    split at h
    · cases h; exact .streamed ‹_› ‹_›
    · cases h; exact .failed ‹_› ‹_›
    · cases h; exact .read ‹_› ‹_›
    · cases h
  | acquire =>
    simp only [next] at h
    split at h
    · split at h
      · cases h; exact .acquired ‹_› ‹_›
      · cases h
    · cases h
  | ask i recips =>
    simp only [next] at h
    split at h
    · cases h; exact .unasked ‹_›
    · cases h; exact .asked _ ‹_›
    · cases h
  | sync i e =>
    simp only [next] at h
    split at h
    · obtain ⟨call', hcall, rfl⟩ := Option.map_eq_some_iff.mp h
      exact .went ‹_› hcall
    · cases h
  | report i =>
    simp only [next] at h
    split at h
    · split at h
      · cases h; exact .reported ‹_› ‹_›
      · cases h
    · cases h
  | count i =>
    simp only [next] at h
    split at h
    · cases h; exact .counted ‹_›
    · cases h
  | release i =>
    simp only [next] at h
    split at h
    · cases h; exact .released ‹_›
    · cases h
  | drain =>
    simp only [next] at h
    split at h
    · split at h
      · rename_i hgo
        cases h
        exact .drained ‹_› hgo.1 hgo.2
      · cases h
    · cases h
  | emit =>
    simp only [next] at h
    split at h
    · split at h
      · cases h; exact .emitted ‹_› ‹_›
      · cases h
    · cases h

end Job

/-! ### Each name once -/

def Worker.name : Worker → Option Name
  | .fetching name | .syncing name _ | .returned name _ => some name
  | .releasing => none

def Worker.works (name : Name) (w : Worker) : Nat := if w.name = some name then 1 else 0

/-- The elements of `sem` that are not a goroutine's. -/
def Loop.drained (workers : Nat) : Loop → Nat
  | .draining i => i
  | .complete _ => workers
  | _ => 0

/-- What was read and not started. -/
def Loop.pending : Loop → List (Option Name)
  | .acquiring name => [some name]
  | .failed => [none]
  | _ => []

def Loop.atEnd : Loop → Bool
  | .draining _ | .complete _ => true
  | _ => false

structure JobInv (workers : Nat) (source : List (Option Name)) (j : Job) : Prop where
  size : j.workers = workers
  sem : j.sem = j.running.length + j.loop.drained workers
  full : j.sem ≤ workers
  counted : j.syncCount = j.synced.length
  once : ∀ name, (j.synced.map Prod.fst).count name + (j.running.map (Worker.works name)).sum = j.started.count name
  order : source = j.started.map some ++ j.loop.pending ++ j.stream
  atEnd : j.loop.atEnd = true → j.stream = []
  complete : ∀ count, j.loop = .complete count → count = j.syncCount
  calls : ∀ name call, .syncing name call ∈ j.running → Inv call

theorem JobInv.put {workers : Nat} {source : List (Option Name)} {j : Job} (h : JobInv workers source j) {i : Nat} {w w' : Worker}
    (hi : j.running[i]? = some w) (hname : w'.name = w.name) (hcall : ∀ name call, w' = .syncing name call → Inv call) :
    JobInv workers source { j with running := j.running.set i w' } := by
  refine { h with sem := ?_, once := fun name => ?_, calls := fun name call hmem => ?_ }
  · rw [h.sem]
    show _ = (j.running.set i w').length + _
    rw [List.length_set]
  · have hsum := Weight.sum_set (Worker.works name) hi w'
    have hworks : w'.works name = w.works name := by unfold Worker.works; rw [hname]
    have honce := h.once name
    dsimp only
    omega
  · rcases List.mem_or_eq_of_mem_set hmem with hold | hnew
    · exact h.calls name call hold
    · exact hcall name call hnew.symm

theorem JobInv.not_complete {workers : Nat} {source : List (Option Name)} {j : Job} (h : JobInv workers source j) {i : Nat}
    {w : Worker} (hi : j.running[i]? = some w) (count : Nat) : j.loop ≠ .complete count := by
  intro hloop
  have hlt : i < j.running.length := (List.getElem?_eq_some_iff.mp hi).1
  have hsem := h.sem
  have hfull := h.full
  rw [hloop] at hsem
  simp only [Loop.drained] at hsem
  omega

section Steps

variable {workers : Nat} {source : List (Option Name)} {j : Job}

/-- The loop goes on to read, or to drain `sem`: what it has taken from the stream and not started
    is what it holds. -/
theorem JobInv.read (h : JobInv workers source j) (hloop : j.loop = .reading) {loop : Loop} {stream : List (Option Name)}
    (hstream : j.stream = loop.pending ++ stream) (hdrained : loop.drained workers = 0)
    (hend : loop.atEnd = true → stream = []) (hcount : ∀ count, loop ≠ .complete count) :
    JobInv workers source { j with loop := loop, stream := stream } := by
  refine { h with sem := ?_, order := ?_, atEnd := hend, complete := fun count hc => absurd hc (hcount count) }
  · rw [h.sem, hloop, hdrained]
    rfl
  · have hnone : Loop.reading.pending = [] := rfl
    rw [h.order, hloop, hstream, hnone, List.append_nil, List.append_assoc]

theorem JobInv.acquire (h : JobInv workers source j) {name : Name} (hloop : j.loop = .acquiring name) (hroom : j.sem < workers) :
    JobInv workers source { j with loop := .reading, sem := j.sem + 1, running := j.running ++ [.fetching name]
                                   started := j.started ++ [name] } := by
  refine { h with sem := ?_, full := hroom, once := fun name' => ?_, order := ?_, atEnd := nofun, complete := nofun,
                  calls := fun name' call hmem => ?_ }
  · simp only [h.sem, hloop, List.length_append, List.length_singleton, Loop.drained]
  · have honce := h.once name'
    have hworks : (Worker.fetching name).works name' = [name].count name' := by
      rw [List.count_singleton]
      simp [Worker.works, Worker.name]
    simp only [List.map_append, List.sum_append, List.count_append, List.map_cons, List.map_nil, List.sum_cons, List.sum_nil]
    omega
  · rw [h.order, hloop]
    simp [Loop.pending]
  · rcases List.mem_append.mp hmem with hold | hnew
    · exact h.calls name' call hold
    · cases List.mem_singleton.mp hnew

theorem JobInv.count (h : JobInv workers source j) {i : Nat} {name : Name} {outcome : Option Outcome}
    (hi : j.running[i]? = some (.returned name outcome)) :
    JobInv workers source { j with running := j.running.set i .releasing, syncCount := j.syncCount + 1
                                   synced := j.synced ++ [(name, outcome)] } := by
  refine { h with sem := ?_, counted := ?_, once := fun name' => ?_, complete := fun count hloop => ?_,
                  calls := fun name' call hmem => ?_ }
  · simp only [h.sem, List.length_set]
  · simp only [h.counted, List.length_append, List.length_singleton]
  · have honce := h.once name'
    have hsum := Weight.sum_set (Worker.works name') hi .releasing
    have hworks : (Worker.returned name outcome).works name' = [name].count name' := by
      rw [List.count_singleton]
      simp [Worker.works, Worker.name]
    have hnone : Worker.releasing.works name' = 0 := rfl
    simp only [List.map_append, List.count_append, List.map_cons, List.map_nil]
    omega
  · exact absurd hloop (h.not_complete hi count)
  · rcases List.mem_or_eq_of_mem_set hmem with hold | hnew
    · exact h.calls name' call hold
    · cases hnew

theorem JobInv.release (h : JobInv workers source j) {i : Nat} (hi : j.running[i]? = some .releasing) :
    JobInv workers source { j with running := j.running.eraseIdx i, sem := j.sem - 1 } := by
  have hlt : i < j.running.length := (List.getElem?_eq_some_iff.mp hi).1
  have hsem := h.sem
  refine { h with sem := ?_, full := Nat.le_trans (Nat.sub_le _ _) h.full, once := fun name => ?_,
                  calls := fun name call hmem => h.calls name call (List.mem_of_mem_eraseIdx hmem) }
  · simp only [List.length_eraseIdx_of_lt hlt]
    omega
  · have honce := h.once name
    have hsum := Weight.sum_eraseIdx (Worker.works name) hi
    have hnone : Worker.releasing.works name = 0 := rfl
    dsimp only
    omega

theorem JobInv.drain (h : JobInv workers source j) {i : Nat} (hloop : j.loop = .draining i) (hroom : j.sem < workers) :
    JobInv workers source { j with loop := .draining (i + 1), sem := j.sem + 1 } := by
  refine { h with sem := ?_, full := hroom, order := ?_, atEnd := fun _ => h.atEnd (by rw [hloop]; rfl), complete := nofun }
  · rw [h.sem, hloop]
    rfl
  · rw [h.order, hloop]
    rfl

theorem JobInv.emit (h : JobInv workers source j) {i : Nat} (hloop : j.loop = .draining i) (hi : workers ≤ i) :
    JobInv workers source { j with loop := .complete j.syncCount } := by
  have hsem := h.sem
  have hfull := h.full
  rw [hloop] at hsem
  simp only [Loop.drained] at hsem
  refine { h with sem := ?_, order := ?_, atEnd := fun _ => h.atEnd (by rw [hloop]; rfl), complete := fun count heq => ?_ }
  · simp only [Loop.drained]
    omega
  · rw [h.order, hloop]
    rfl
  · cases heq
    rfl

theorem JobInv.next {j' : Job} (h : JobInv workers source j) {e : JobEvent} (hj : j.next e = some j') :
    JobInv workers source j' := by
  cases Job.moves_of_next hj with
  | streamed hloop hstream =>
    have hrest : j.stream = (Loop.draining 0).pending ++ j.stream := rfl
    exact h.read hloop hrest rfl (fun _ => hstream) nofun
  | failed hloop hstream => exact h.read hloop hstream rfl nofun nofun
  | read hloop hstream => exact h.read hloop hstream rfl nofun nofun
  | acquired hloop hroom => exact h.acquire hloop (h.size ▸ hroom)
  | unasked hi => exact h.put hi rfl fun _ _ hcall => Worker.noConfusion hcall
  | asked sampleSize hi =>
    refine h.put hi rfl fun name call hcall => ?_
    cases hcall
    exact inv_new _
  | @went i name call call' e hi hcall =>
    refine h.put hi rfl fun name' call'' heq => ?_
    cases heq
    exact (h.calls name call (List.mem_of_getElem? hi)).next hcall
  | reported hi _ => exact h.put hi rfl fun _ _ hcall => Worker.noConfusion hcall
  | counted hi => exact h.count hi
  | released hi => exact h.release hi
  | drained hloop _ hroom => exact h.drain hloop (h.size ▸ hroom)
  | emitted hloop hi => exact h.emit hloop (h.size ▸ hi)

end Steps

def Worker.weight : Worker → Nat
  | .fetching _ => 13
  | .syncing _ call => call.weight + 3
  | .returned _ _ => 2
  | .releasing => 1

def Loop.weight (workers : Nat) : Loop → Nat
  | .reading => workers + 2
  | .acquiring _ => workers + 16
  | .draining i => workers - i + 1
  | .complete _ | .failed => 0

def Job.weight (j : Job) : Nat := (j.running.map Worker.weight).sum + j.loop.weight j.workers + 15 * j.stream.length

theorem weight_put {j : Job} {i : Nat} {w w' : Worker} (hi : j.running[i]? = some w) (hlt : w'.weight < w.weight) :
    Job.weight { j with running := j.running.set i w' } < j.weight := by
  have hsum := Weight.sum_set Worker.weight hi w'
  simp only [Job.weight]
  omega

end Fnd.Protocol.NameSyncer

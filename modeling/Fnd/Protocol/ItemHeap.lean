/-
  Fnd.Protocol.ItemHeap — the update queue with its items behind pointers.

  In `protocol/update_queue.go` the map `entries` and the workers share items: what
  `Dequeue` hands out is a pointer, `Dispose` marks the item behind it, and
  `reapDequeuedUpdates` deletes the entries whose item is marked. Here an item is a cell of
  a heap and a pointer its index. `Fnd.Protocol.UpdateQueue` keeps the items themselves in
  the map; `contents` reads that queue off this one, and on a well-formed queue the two move
  together (`insert_contents`, `dequeue_contents`), while `Dispose` and the reaper leave the
  contents alone.
-/

import Fnd.Lib.Machine
import Fnd.Protocol.UpdateQueue

namespace Fnd.Protocol

open Store (NameInfo)
open Wire (Update)

variable {H K : Type}

/-- An item and its `Disposed` flag. -/
structure Cell (H K : Type) where
  item : UpdateQueueItem H K
  disposed : Bool

structure ItemHeap (H K : Type) where
  maxLen : Int
  entries : Name → Option Nat
  queue : List Name
  queueLen : Int
  cells : List (Cell H K)

namespace ItemHeap

/-- `NewUpdateQueue`, with the configured `MaxLen`. -/
def new (maxLen : Int) : ItemHeap H K := ⟨maxLen, fun _ => none, [], 0, []⟩

/-- The entry's new item, on the heap. -/
def assign (q : ItemHeap H K) (item : UpdateQueueItem H K) : ItemHeap H K :=
  { q with
    entries := Function.update q.entries item.name (some q.cells.length)
    cells := q.cells ++ [⟨item, false⟩] }

/-- The item of a name that was not pending: the name joins the end of the queue. -/
def join (q : ItemHeap H K) (item : UpdateQueueItem H K) : ItemHeap H K :=
  { q.assign item with queue := q.queue ++ [item.name], queueLen := q.queueLen + 1 }

/-- `entry.PeerIDs.Add(peerID)`. -/
def addPeer [DecidableEq H] (q : ItemHeap H K) (p : Nat) (peerID : H) : ItemHeap H K :=
  { q with
    cells := q.cells.modify p fun c =>
      { c with item := { c.item with peerIDs := PeerSet.add c.item.peerIDs peerID } } }

/-- `Enqueue` under the mutex. -/
def insert [DecidableEq H] (q : ItemHeap H K) (peerID : H) (update : Update) (info : NameInfo K) :
    Except (Fault QueueErr) Unit × ItemHeap H K :=
  let item := UpdateQueue.newItem peerID update info
  match q.entries update.name with
  | none => (.ok (), q.join item)
  | some p =>
    match q.cells[p]? with
    | none => (.error .panic, q)
    | some entry =>
      if entry.item.sectorSize < update.sectorSize then (.ok (), q.assign item)
      else if entry.item.epochHeight > update.epochHeight then (.error (.err .epochUpdated), q)
      else if entry.item.epochHeight = update.epochHeight ∧ entry.item.sectorSize > update.sectorSize then
        (.error (.err .staleSector), q)
      else (.ok (), q.addPeer p peerID)

/-- `Dequeue`: the pointer under the first name, which may be nil. -/
def dequeue (q : ItemHeap H K) : Option Nat × ItemHeap H K :=
  match q.queue with
  | [] => (none, q)
  | name :: rest =>
    (q.entries name, { q with
      queue := rest
      queueLen := q.queueLen - 1
      entries := Function.update q.entries name none })

/-- `Dispose`. -/
def dispose (q : ItemHeap H K) (p : Nat) : ItemHeap H K :=
  { q with cells := q.cells.modify p fun c => { c with disposed := true } }

def isDisposed (q : ItemHeap H K) (p : Nat) : Bool := (q.cells[p]?).any (·.disposed)

def reapDequeuedUpdates (q : ItemHeap H K) : ItemHeap H K :=
  { q with entries := fun name => (q.entries name).filter fun p => !q.isDisposed p }

def deref (q : ItemHeap H K) (p : Nat) : Option (UpdateQueueItem H K) := (q.cells[p]?).map (·.item)

/-- The queue with its items in place of the pointers. -/
def contents (q : ItemHeap H K) : UpdateQueue H K :=
  ⟨q.maxLen, fun name => (q.entries name).bind q.deref, q.queue, q.queueLen⟩

/-! ## Well-formed queues -/

/-- No name is queued twice, the queued names are the keys of `entries`, the counter is
    right, and each entry points to an item of its name that is not disposed. -/
structure WellFormed (q : ItemHeap H K) : Prop where
  nodup : q.queue.Nodup
  pending : ∀ name, name ∈ q.queue ↔ (q.entries name).isSome = true
  len : q.queueLen = q.queue.length
  entry : ∀ name p, q.entries name = some p →
    ∃ c, q.cells[p]? = some c ∧ c.item.name = name ∧ c.disposed = false

section

variable {q : ItemHeap H K}

theorem wellFormed_new (maxLen : Int) : (new maxLen : ItemHeap H K).WellFormed :=
  ⟨List.nodup_nil, fun _ => by simp [new], rfl, nofun⟩

theorem WellFormed.apart (h : q.WellFormed) {a b : Name} {p : Nat} (ha : q.entries a = some p)
    (hb : q.entries b = some p) : a = b := by
  obtain ⟨c, hc, hna, -⟩ := h.entry a p ha
  obtain ⟨c', hc', hnb, -⟩ := h.entry b p hb
  obtain rfl := Option.some.inj (hc.symm.trans hc')
  exact hna.symm.trans hnb

theorem WellFormed.lt_length (h : q.WellFormed) {name : Name} {p : Nat} (hp : q.entries name = some p) :
    p < q.cells.length := by
  obtain ⟨c, hc, -⟩ := h.entry name p hp
  exact (List.getElem?_eq_some_iff.mp hc).1

theorem WellFormed.assign_entry (h : q.WellFormed) (item : UpdateQueueItem H K) : ∀ name p,
    (q.assign item).entries name = some p →
      ∃ c, (q.assign item).cells[p]? = some c ∧ c.item.name = name ∧ c.disposed = false := by
  intro name p hp
  simp only [assign] at hp ⊢
  by_cases hn : name = item.name
  · subst hn
    rw [Function.update_self] at hp
    cases hp
    exact ⟨⟨item, false⟩, List.getElem?_concat_length, rfl, rfl⟩
  · rw [Function.update_of_ne hn] at hp
    obtain ⟨c, hc, hname, hd⟩ := h.entry name p hp
    exact ⟨c, (List.getElem?_append_left (h.lt_length hp)).trans hc, hname, hd⟩

theorem WellFormed.join (h : q.WellFormed) {item : UpdateQueueItem H K} (hn : q.entries item.name = none) :
    (q.join item).WellFormed := by
  have hnew : item.name ∉ q.queue := by rw [h.pending, hn]; simp
  refine ⟨?_, fun name => ?_, ?_, h.assign_entry item⟩
  · refine List.nodup_append.mpr ⟨h.nodup, by simp, fun a ha b hb => ?_⟩
    rw [List.mem_singleton.mp hb]
    rintro rfl
    exact hnew ha
  · simp only [ItemHeap.join, assign, List.mem_append, List.mem_singleton, h.pending]
    by_cases he : name = item.name
    · subst he; simp
    · simp [he]
  · simp only [ItemHeap.join, h.len, List.length_append, List.length_singleton, Int.natCast_add]
    rfl

theorem WellFormed.assign (h : q.WellFormed) {item : UpdateQueueItem H K} (hp : (q.entries item.name).isSome = true) :
    (q.assign item).WellFormed := by
  refine ⟨h.nodup, fun name => ?_, h.len, h.assign_entry item⟩
  simp only [ItemHeap.assign, h.pending]
  by_cases he : name = item.name
  · subst he; simp [hp]
  · simp [he]

/-- A change of cells that keeps names and flags of the entries' items. -/
theorem WellFormed.setCells (h : q.WellFormed) {cells : List (Cell H K)}
    (hc : ∀ name p c, q.entries name = some p → q.cells[p]? = some c →
      ∃ c', cells[p]? = some c' ∧ c'.item.name = c.item.name ∧ c'.disposed = c.disposed) :
    { q with cells := cells }.WellFormed := by
  refine ⟨h.nodup, h.pending, h.len, fun name p hp => ?_⟩
  obtain ⟨c, hcell, hname, hd⟩ := h.entry name p hp
  obtain ⟨c', hcell', hname', hd'⟩ := hc name p c hp hcell
  exact ⟨c', hcell', hname'.trans hname, hd'.trans hd⟩

theorem WellFormed.addPeer [DecidableEq H] (h : q.WellFormed) (p : Nat) (peerID : H) : (q.addPeer p peerID).WellFormed := by
  refine h.setCells fun name p' c _ hc => ?_
  by_cases he : p = p'
  · exact ⟨_, by rw [List.getElem?_modify, hc]; rfl, by simp [he], by simp [he]⟩
  · exact ⟨c, by rw [List.getElem?_modify, hc]; simp [he], rfl, rfl⟩

theorem WellFormed.dispose (h : q.WellFormed) {p : Nat} (hp : ∀ name, q.entries name ≠ some p) :
    (q.dispose p).WellFormed := by
  refine h.setCells fun name p' c he hc => ⟨c, ?_, rfl, rfl⟩
  have hne : p ≠ p' := by rintro rfl; exact hp name he
  rw [List.getElem?_modify, hc]
  simp [hne]

theorem WellFormed.reap (h : q.WellFormed) : q.reapDequeuedUpdates = q := by
  have hkeep (name : Name) : (q.entries name).filter (fun p => !q.isDisposed p) = q.entries name := by
    cases hp : q.entries name with
    | none => rfl
    | some p =>
      obtain ⟨c, hc, -, hd⟩ := h.entry name p hp
      simp [isDisposed, hc, hd]
  simp only [reapDequeuedUpdates, hkeep]

theorem WellFormed.dequeue (h : q.WellFormed) {name : Name} {rest : List Name} (hq : q.queue = name :: rest) :
    q.dequeue.2.WellFormed ∧ ∃ p c, q.dequeue.1 = some p ∧ q.entries name = some p ∧ q.cells[p]? = some c ∧
      c.item.name = name := by
  have hn := h.nodup
  have hlen := h.len
  have hpend := h.pending
  rw [hq] at hn hlen
  simp only [hq] at hpend
  obtain ⟨hnot, hrest⟩ := List.nodup_cons.mp hn
  obtain ⟨p, hp⟩ := Option.isSome_iff_exists.mp ((hpend name).mp List.mem_cons_self)
  obtain ⟨c, hc, hname, -⟩ := h.entry name p hp
  simp only [ItemHeap.dequeue, hq]
  refine ⟨⟨hrest, fun name' => ?_, ?_, fun name' p' hp' => ?_⟩, p, c, hp, hp, hc, hname⟩
  · by_cases he : name' = name
    · subst he; simp [hnot]
    · simp [he, ← hpend name']
  · simp only [hlen, List.length_cons, Int.natCast_add]
    exact Int.add_sub_cancel _ _
  · by_cases he : name' = name
    · subst he; simp at hp'
    · exact h.entry name' p' (by simpa [he] using hp')

/-- What `Enqueue`'s locked section does: the name joins the queue, its item is replaced,
    a peer is added behind the pointer, or nothing. -/
theorem WellFormed.insert_cases [DecidableEq H] (h : q.WellFormed) (peerID : H) (update : Update) (info : NameInfo K) :
    let item := UpdateQueue.newItem peerID update info
    let q' := (q.insert peerID update info).2
    (q.entries update.name = none ∧ q' = q.join item) ∨
    ((q.entries update.name).isSome = true ∧ (q' = q.assign item ∨ (∃ p, q' = q.addPeer p peerID) ∨ q' = q)) := by
  intro item q'
  cases hp : q.entries update.name with
  | none => exact .inl ⟨rfl, by simp only [q', ItemHeap.insert, hp, item]⟩
  | some p =>
    obtain ⟨c, hc, -⟩ := h.entry _ _ hp
    refine .inr ⟨rfl, ?_⟩
    simp only [q', ItemHeap.insert, hp, hc]
    split
    · exact .inl rfl
    split
    · exact .inr (.inr rfl)
    split
    · exact .inr (.inr rfl)
    · exact .inr (.inl ⟨p, rfl⟩)

theorem WellFormed.insert [DecidableEq H] (h : q.WellFormed) (peerID : H) (update : Update) (info : NameInfo K) :
    (q.insert peerID update info).2.WellFormed := by
  rcases h.insert_cases peerID update info with ⟨hn, hq⟩ | ⟨hp, hq | ⟨p, hq⟩ | hq⟩ <;> rw [hq]
  · exact h.join hn
  · exact h.assign hp
  · exact h.addPeer p peerID
  · exact h

/-! ## The queue of items -/

theorem contents_entries (q : ItemHeap H K) (name : Name) : q.contents.entries name = (q.entries name).bind q.deref := rfl

theorem WellFormed.assign_contents (h : q.WellFormed) (item : UpdateQueueItem H K) :
    (q.assign item).contents.entries = Function.update q.contents.entries item.name (some item) := by
  funext name
  by_cases hn : name = item.name
  · subst hn
    simp [contents, ItemHeap.assign, deref]
  · rw [Function.update_of_ne hn]
    simp only [contents, ItemHeap.assign, Function.update_of_ne hn]
    cases hp : q.entries name with
    | none => rfl
    | some p => simp [deref, List.getElem?_append_left (h.lt_length hp)]

/-- A peer added behind the pointer shows in the entry, and in no other. -/
theorem WellFormed.addPeer_contents [DecidableEq H] (h : q.WellFormed) {name : Name} {p : Nat} {c : Cell H K}
    (hp : q.entries name = some p) (hc : q.cells[p]? = some c) (peerID : H) :
    (q.addPeer p peerID).contents.entries = Function.update q.contents.entries name
      (some { c.item with peerIDs := PeerSet.add c.item.peerIDs peerID }) := by
  funext name'
  by_cases hn : name' = name
  · subst hn
    simp [contents, ItemHeap.addPeer, deref, hp, hc]
  · rw [Function.update_of_ne hn]
    simp only [contents, ItemHeap.addPeer]
    cases hp' : q.entries name' with
    | none => rfl
    | some p' =>
      have hne : p ≠ p' := by rintro rfl; exact hn (h.apart hp' hp)
      simp [deref, hne]

/-- The locked section of `Enqueue` on pointers is the one on items. -/
theorem WellFormed.insert_contents [DecidableEq H] (h : q.WellFormed) (peerID : H) (update : Update) (info : NameInfo K) :
    q.contents.insert peerID update info =
      ((q.insert peerID update info).1, (q.insert peerID update info).2.contents) := by
  have hassign : (q.assign (UpdateQueue.newItem peerID update info)).contents.entries =
      Function.update q.contents.entries update.name (some (UpdateQueue.newItem peerID update info)) :=
    h.assign_contents _
  cases hp : q.entries update.name with
  | none =>
    have hentry : q.contents.entries update.name = none := by rw [contents_entries, hp]; rfl
    simp only [UpdateQueue.insert, hentry, ItemHeap.insert, hp, ← hassign]
    rfl
  | some p =>
    obtain ⟨c, hc, -⟩ := h.entry _ _ hp
    have hentry : q.contents.entries update.name = some c.item := by
      rw [contents_entries, hp]; simp [deref, hc]
    simp only [UpdateQueue.insert, hentry, ItemHeap.insert, hp, hc, ← hassign, ← h.addPeer_contents hp hc peerID]
    split
    · rfl
    split
    · rfl
    split <;> rfl

/-- So is `Dequeue`. -/
theorem dequeue_contents (q : ItemHeap H K) :
    q.contents.dequeue = (q.dequeue.1.bind q.deref, q.dequeue.2.contents) := by
  cases hq : q.queue with
  | nil =>
    have hq' : q.contents.queue = [] := hq
    simp only [UpdateQueue.dequeue, hq', ItemHeap.dequeue, hq]
    rfl
  | cons name rest =>
    have hq' : q.contents.queue = name :: rest := hq
    simp only [UpdateQueue.dequeue, hq', ItemHeap.dequeue, hq]
    refine Prod.ext rfl ?_
    simp only [contents, UpdateQueue.mk.injEq, true_and, and_true]
    funext name'
    by_cases hn : name' = name
    · subst hn; simp
    · simp only [Function.update_of_ne hn]
      rfl

theorem dispose_contents (q : ItemHeap H K) (p : Nat) : (q.dispose p).contents = q.contents := by
  have hderef (p' : Nat) : (q.dispose p).deref p' = q.deref p' := by
    simp only [deref, ItemHeap.dispose, List.getElem?_modify]
    cases q.cells[p']? with
    | none => rfl
    | some c => by_cases he : p = p' <;> simp [he]
  simp only [contents, funext hderef]
  rfl

end

end ItemHeap

end Fnd.Protocol

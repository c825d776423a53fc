/-
  Fnd.Queue — the update queue over whole runs: its structure, which update it keeps for a
  name, and its length.

  Structure. `Enqueue`'s locked section, `Dequeue`, the reaper and `Dispose` of items handed
  out before, in any order: names, map, counter and flags stay in step, `Dequeue` hands out
  the name that has waited longest, and no item twice (`queue_structure`).

  Which update. A pending entry is replaced by any update of a larger size and joined by any
  other that is not below it in both; so the entry is the newest accepted update exactly in
  the runs in which no accepted update is ahead of the entry in one of epoch and size and
  behind in the other (`entry_is_newest_iff`).

  Length. A call looks at the length before it takes the mutex, and each update is handled
  in a goroutine of its own. `c` calls under way at once can exceed `MaxLen` by `c - 1` and no
  more (`length_lt_of_waiting`), so it is kept where no two calls are between their check and
  their insertion at once (`queue_bounded`).
-/

import Mathlib.Order.Bounds.Basic
import Fnd.Protocol.ItemHeap
import Fnd.Versions

namespace Fnd.Queue

open Store (DB NameInfo)
open Wire (Update)
open Protocol
open Node (version)

variable {H K G : Type}

/-! ## Structure -/

/-- The queue and what was handed out of it. -/
structure Use (H K : Type) where
  q : ItemHeap H K
  /-- The pointers `Dequeue` returned, in order. -/
  returned : List Nat
  /-- Ghost: the number of steps so far. -/
  time : Nat
  /-- Ghost: the step at which a name last became pending. -/
  since : Name → Nat

inductive Op (H K : Type) where
  | insert (peerID : H) (update : Update) (info : NameInfo K)
  | dequeue
  | reap
  | dispose (p : Nat)

def Use.new (maxLen : Int) : Use H K := ⟨ItemHeap.new maxLen, [], 0, fun _ => 0⟩

/-- One operation. Only an item handed out before is disposed of. -/
def Use.step [DecidableEq H] (s : Use H K) : Op H K → Use H K
  | .insert peerID update info =>
    ⟨(s.q.insert peerID update info).2, s.returned, s.time + 1,
      if (s.q.entries update.name).isNone then Function.update s.since update.name s.time else s.since⟩
  | .dequeue => ⟨s.q.dequeue.2, s.returned ++ s.q.dequeue.1.toList, s.time + 1, s.since⟩
  | .reap => { s with q := s.q.reapDequeuedUpdates, time := s.time + 1 }
  | .dispose p => { s with q := if p ∈ s.returned then s.q.dispose p else s.q, time := s.time + 1 }

/-- The queue is well formed, entries and returned items are apart, no item was returned
    twice, and the queue is in the order in which its names became pending. -/
structure Use.Inv (s : Use H K) : Prop where
  wellFormed : s.q.WellFormed
  apart : ∀ name p, s.q.entries name = some p → p ∉ s.returned
  known : ∀ p ∈ s.returned, p < s.q.cells.length
  once : s.returned.Nodup
  order : s.q.queue.Pairwise fun a b => s.since a < s.since b
  past : ∀ name ∈ s.q.queue, s.since name < s.time

section

variable {s : Use H K}

theorem Use.inv_new (maxLen : Int) : (Use.new maxLen : Use H K).Inv :=
  ⟨ItemHeap.wellFormed_new maxLen, nofun, nofun, List.nodup_nil, List.Pairwise.nil, nofun⟩

/-- A step that keeps the queue and what was returned, and whose new entries are new items. -/
theorem Use.Inv.keep (h : s.Inv) {q : ItemHeap H K} (hwf : q.WellFormed) (hqueue : q.queue = s.q.queue)
    (hentries : ∀ name p, q.entries name = some p → s.q.entries name = some p ∨ p = s.q.cells.length)
    (hcells : s.q.cells.length ≤ q.cells.length) : Use.Inv { s with q := q, time := s.time + 1 } where
  wellFormed := hwf
  apart name p hp hr := by
    rcases hentries name p hp with hold | rfl
    · exact h.apart name p hold hr
    · exact Nat.lt_irrefl _ (h.known _ hr)
  known p hp := Nat.lt_of_lt_of_le (h.known p hp) hcells
  once := h.once
  order := by simp only [hqueue]; exact h.order
  past name hn := Nat.lt_succ_of_lt (h.past name (by rw [← hqueue]; exact hn))

theorem assign_entries (q : ItemHeap H K) (item : UpdateQueueItem H K) (name : Name) (p : Nat)
    (hp : (q.assign item).entries name = some p) : q.entries name = some p ∨ p = q.cells.length := by
  simp only [ItemHeap.assign] at hp
  by_cases hn : name = item.name
  · subst hn
    rw [Function.update_self] at hp
    exact .inr (Option.some.inj hp).symm
  · rw [Function.update_of_ne hn] at hp
    exact .inl hp

/-- The slice has no name twice and the names of `entries`, the counter is its length, no
    entry is disposed, and no item was returned twice. -/
structure Structured (s : Use H K) : Prop where
  nodup : s.q.queue.Nodup
  names : ∀ name, name ∈ s.q.queue ↔ (s.q.entries name).isSome = true
  len : s.q.queueLen = s.q.queue.length
  undisposed : ∀ name p, s.q.entries name = some p → s.q.isDisposed p = false
  once : s.returned.Nodup

/-- `Dequeue` on a queue with names returns an item: of a pending name, and of the one that
    became pending before all others. -/
def HandsOutOldest (s : Use H K) (e : Op H K) : Prop :=
  e = .dequeue → s.q.queue ≠ [] → ∃ p item, s.q.dequeue.1 = some p ∧ s.q.deref p = some item ∧
    s.q.entries item.name = some p ∧ ∀ name, (s.q.entries name).isSome = true → s.since item.name ≤ s.since name

theorem Use.Inv.structured (h : s.Inv) : Structured s := by
  refine ⟨h.wellFormed.nodup, h.wellFormed.pending, h.wellFormed.len, fun name p hp => ?_, h.once⟩
  obtain ⟨c, hc, -, hd⟩ := h.wellFormed.entry name p hp
  simp [ItemHeap.isDisposed, hc, hd]

theorem Use.Inv.handsOutOldest (h : s.Inv) (e : Op H K) : HandsOutOldest s e := by
  rintro rfl hne
  cases hq : s.q.queue with
  | nil => exact absurd hq hne
  | cons name rest =>
    obtain ⟨-, p, c, hp, he, hc, rfl⟩ := h.wellFormed.dequeue hq
    refine ⟨p, c.item, hp, by simp [ItemHeap.deref, hc], he, fun name hpending => ?_⟩
    have horder := h.order
    rw [hq] at horder
    have hmem : name ∈ s.q.queue := (h.wellFormed.pending name).mpr hpending
    rw [hq] at hmem
    rcases List.mem_cons.mp hmem with rfl | hmem
    · exact Nat.le_refl _
    · exact Nat.le_of_lt ((List.pairwise_cons.mp horder).1 name hmem)

variable [DecidableEq H]

theorem Use.Inv.insert (h : s.Inv) (peerID : H) (update : Update) (info : NameInfo K) :
    (s.step (.insert peerID update info)).Inv := by
  have hwf := h.wellFormed.insert peerID update info
  rcases h.wellFormed.insert_cases peerID update info with ⟨hn, hq⟩ | ⟨hp, hq⟩
  · have hnew : update.name ∉ s.q.queue := by rw [h.wellFormed.pending, hn]; simp
    have hsince (name : Name) (hm : name ∈ s.q.queue) : Function.update s.since update.name s.time name = s.since name :=
      Function.update_of_ne (by rintro rfl; exact hnew hm) _ _
    simp only [Use.step, hn, Option.isNone_none, if_true]
    rw [hq] at hwf ⊢
    refine ⟨hwf, fun name p hp hr => ?_, fun p hp => ?_, h.once, ?_, fun name hm => ?_⟩
    · rcases assign_entries _ _ name p hp with hold | rfl
      · exact h.apart name p hold hr
      · exact Nat.lt_irrefl _ (h.known _ hr)
    · have hlt := h.known p hp
      simp only [ItemHeap.join, ItemHeap.assign, List.length_append, List.length_singleton]
      omega
    · show (s.q.queue ++ [update.name]).Pairwise fun a b =>
        Function.update s.since update.name s.time a < Function.update s.since update.name s.time b
      refine List.pairwise_append.mpr ⟨?_, List.pairwise_singleton _ _, fun a ha b hb => ?_⟩
      · exact h.order.imp_of_mem fun ha hb hlt => by rw [hsince _ ha, hsince _ hb]; exact hlt
      · rw [List.mem_singleton.mp hb, hsince a ha, Function.update_self]
        exact h.past a ha
    · show Function.update s.since update.name s.time name < s.time + 1
      rcases List.mem_append.mp hm with hm | hm
      · rw [hsince name hm]
        exact Nat.lt_succ_of_lt (h.past name hm)
      · have hname : name = update.name := List.mem_singleton.mp hm
        rw [hname, Function.update_self]
        exact Nat.lt_succ_self _
  · simp only [Use.step, Option.isNone_eq_false_iff.mpr hp, Bool.false_eq_true, if_false]
    refine h.keep hwf ?_ ?_ ?_
    · rcases hq with hq | ⟨p, hq⟩ | hq <;> rw [hq] <;> rfl
    · rcases hq with hq | ⟨p, hq⟩ | hq <;> rw [hq]
      · exact assign_entries _ _
      · exact fun _ _ hp => .inl hp
      · exact fun _ _ hp => .inl hp
    · rcases hq with hq | ⟨p, hq⟩ | hq <;> simp [hq, ItemHeap.assign, ItemHeap.addPeer]

theorem Use.Inv.dequeue (h : s.Inv) : (s.step .dequeue).Inv := by
  cases hq : s.q.queue with
  | nil =>
    have hd : s.q.dequeue = (none, s.q) := by simp only [ItemHeap.dequeue, hq]
    simp only [Use.step, hd, Option.toList_none, List.append_nil]
    exact h.keep h.wellFormed rfl (fun _ _ hp => .inl hp) (Nat.le_refl _)
  | cons name rest =>
    obtain ⟨hwf, p, c, hp, he, hc, -⟩ := h.wellFormed.dequeue hq
    have hqueue : s.q.dequeue.2.queue = rest := by simp only [ItemHeap.dequeue, hq]
    have hcells : s.q.dequeue.2.cells = s.q.cells := by simp only [ItemHeap.dequeue, hq]
    have hentries (name' : Name) (p' : Nat) (hp' : s.q.dequeue.2.entries name' = some p') :
        name' ≠ name ∧ s.q.entries name' = some p' := by
      simp only [ItemHeap.dequeue, hq] at hp'
      by_cases hn : name' = name
      · subst hn; simp at hp'
      · exact ⟨hn, by simpa [hn] using hp'⟩
    have horder := h.order
    have hpast := h.past
    rw [hq] at horder hpast
    simp only [Use.step, hp, Option.toList_some]
    refine ⟨hwf, fun name' p' hp' hr => ?_, fun p' hr => ?_, ?_, ?_, fun name' hm => ?_⟩
    · obtain ⟨hn, hold⟩ := hentries name' p' hp'
      rcases List.mem_append.mp hr with hr | hr
      · exact h.apart name' p' hold hr
      · rw [List.mem_singleton.mp hr] at hold
        exact hn (h.wellFormed.apart hold he)
    · rw [hcells]
      rcases List.mem_append.mp hr with hr | hr
      · exact h.known p' hr
      · rw [List.mem_singleton.mp hr]; exact h.wellFormed.lt_length he
    · refine List.nodup_append.mpr ⟨h.once, by simp, fun a ha b hb => ?_⟩
      rw [List.mem_singleton.mp hb]
      rintro rfl
      exact h.apart name _ he ha
    · rw [hqueue]; exact (List.pairwise_cons.mp horder).2
    · rw [hqueue] at hm
      exact Nat.lt_succ_of_lt (hpast name' (List.mem_cons_of_mem _ hm))

theorem Use.step_inv (h : s.Inv) (e : Op H K) : (s.step e).Inv := by
  cases e with
  | insert peerID update info => exact h.insert peerID update info
  | dequeue => exact h.dequeue
  | reap =>
    simp only [Use.step, h.wellFormed.reap]
    exact h.keep h.wellFormed rfl (fun _ _ hp => .inl hp) (Nat.le_refl _)
  | dispose p =>
    simp only [Use.step]
    split
    · rename_i hp
      have hfree : ∀ name, s.q.entries name ≠ some p := fun name he => h.apart name p he hp
      exact h.keep (h.wellFormed.dispose hfree) rfl (fun _ _ hp => .inl hp) (by simp [ItemHeap.dispose])
    · exact h.keep h.wellFormed rfl (fun _ _ hp => .inl hp) (Nat.le_refl _)

/-- Every run, from an empty queue. -/
theorem queue_structure (maxLen : Int) (es : List (Op H K)) :
    Structured (Machine.run Use.step (Use.new maxLen) es) ∧
    Machine.Along Use.step HandsOutOldest (Use.new maxLen) es := by
  constructor
  · exact (Machine.run_keeps Use.Inv (fun _ e h => Use.step_inv h e) es _ (Use.inv_new maxLen)).structured
  · exact Machine.along_keeps Use.Inv (fun _ e h => ⟨Use.step_inv h e, h.handsOutOldest e⟩) es _ (Use.inv_new maxLen)

/-- The same operations on the queue that holds the items themselves. -/
def items (q : UpdateQueue H K) : Op H K → UpdateQueue H K
  | .insert peerID update info => (q.insert peerID update info).2
  | .dequeue => q.dequeue.2
  | .reap | .dispose _ => q

/-- Through every run the pointers hold what that queue holds. -/
theorem run_contents (maxLen : Int) (es : List (Op H K)) :
    (Machine.run Use.step (Use.new maxLen) es).q.contents = Machine.run items ⟨maxLen, fun _ => none, [], 0⟩ es := by
  refine (Machine.run_sim (fun (s : Use H K) q => s.Inv ∧ s.q.contents = q) (fun s q e h => ?_) es _ _
    ⟨Use.inv_new maxLen, rfl⟩).2
  obtain ⟨hi, rfl⟩ := h
  refine ⟨Use.step_inv hi e, ?_⟩
  cases e with
  | insert peerID update info => rw [items, hi.wellFormed.insert_contents]; rfl
  | dequeue => rw [items, ItemHeap.dequeue_contents]; rfl
  | reap => simp only [Use.step, hi.wellFormed.reap, items]
  | dispose p =>
    simp only [Use.step, items]
    split
    · exact s.q.dispose_contents p
    · rfl

end

/-! ## Which update is kept -/

/-- The queue, and (ghost) the updates for one name, with their peers, for which `Enqueue`
    returned nil since that name became pending. -/
structure Watch (H K : Type) where
  q : UpdateQueue H K
  accepted : List (H × Update)

inductive Call (H K G : Type) where
  | enqueue (db : DB H K G) (peerID : H) (update : Update)
  | dequeue

section

variable [DecidableEq H] (name : Name)

def Watch.step (s : Watch H K) : Call H K G → Watch H K
  | .enqueue db peerID update =>
    let r := s.q.enqueue db peerID update
    let before := if (s.q.entries name).isSome then s.accepted else []
    ⟨r.2, if update.name = name ∧ r.1.isOk = true then before ++ [(peerID, update)] else before⟩
  | .dequeue => { s with q := s.q.dequeue.2 }

def versions (accepted : List (H × Update)) : Set (Nat ×ₗ Nat) :=
  { v | ∃ a ∈ accepted, version a.2.epochHeight a.2.sectorSize = v }

/-- The name's entry is the newest of the accepted updates, and its peers sent just that one. -/
def Newest (s : Watch H K) : Prop :=
  ∀ entry ∈ s.q.entries name,
    IsGreatest (versions s.accepted) (version entry.epochHeight entry.sectorSize) ∧
    ∀ peerID ∈ entry.peerIDs, ∃ a ∈ s.accepted,
      a.1 = peerID ∧ a.2.epochHeight = entry.epochHeight ∧ a.2.sectorSize = entry.sectorSize

/-- Ahead in one of epoch and size and behind in the other, or ahead in epoch at the same size. -/
def Crosses (entry : UpdateQueueItem H K) (update : Update) : Prop :=
  (update.epochHeight < entry.epochHeight ∧ entry.sectorSize < update.sectorSize) ∨
  (entry.epochHeight < update.epochHeight ∧ update.sectorSize ≤ entry.sectorSize)

instance (entry : UpdateQueueItem H K) (update : Update) : Decidable (Crosses entry update) :=
  inferInstanceAs (Decidable (_ ∨ _))

/-- An update accepted for the name does not cross its entry. -/
def InOrder (s : Watch H K) : Call H K G → Prop
  | .enqueue db peerID update =>
    update.name = name → (s.q.enqueue db peerID update).1.isOk = true → ∀ entry ∈ s.q.entries name, ¬ Crosses entry update
  | .dequeue => True

instance (s : Watch H K) : DecidablePred (InOrder (G := G) name s)
  | .enqueue .. => inferInstanceAs (Decidable (_ → _))
  | .dequeue => .isTrue trivial

omit [DecidableEq H] in
theorem versions_concat (xs : List (H × Update)) (peerID : H) (update : Update) :
    versions (xs ++ [(peerID, update)]) = insert (version update.epochHeight update.sectorSize) (versions xs) := by
  ext v
  simp only [versions, List.mem_append, List.mem_singleton, Set.mem_ofPred_eq, Set.mem_insert_iff]
  constructor
  · rintro ⟨a, ha | rfl, hv⟩
    · exact .inr ⟨a, ha, hv⟩
    · exact .inl hv.symm
  · rintro (rfl | ⟨a, ha, hv⟩)
    · exact ⟨_, .inr rfl, rfl⟩
    · exact ⟨a, .inl ha, hv⟩

/-- One more element leaves the greatest as it was exactly when it is not above it. -/
theorem isGreatest_insert_iff {α : Type} [Preorder α] {S : Set α} {m v : α} (h : IsGreatest S m) :
    IsGreatest (insert v S) m ↔ v ≤ m := by
  refine ⟨fun h' => h'.2 (Set.mem_insert v S), fun hv => ⟨Set.mem_insert_of_mem v h.1, ?_⟩⟩
  rintro w (rfl | hw)
  · exact hv
  · exact h.2 hw

theorem isGreatest_insert_self_iff {α : Type} [Preorder α] {S : Set α} {m v : α} (h : IsGreatest S m) :
    IsGreatest (insert v S) v ↔ m ≤ v := by
  refine ⟨fun h' => h'.2 (Set.mem_insert_of_mem v h.1), fun hm => ⟨Set.mem_insert v S, ?_⟩⟩
  rintro w (rfl | hw)
  · exact le_refl _
  · exact (h.2 hw).trans hm

theorem version_le {e n e' n' : UInt16} : version e n ≤ version e' n' ↔ e < e' ∨ e = e' ∧ n ≤ n' := by
  simp only [version, Prod.Lex.toLex_le_toLex, UInt16.lt_iff_toNat_lt, UInt16.le_iff_toNat_le, UInt16.toNat_inj]

variable {name}

omit [DecidableEq H] in
theorem newest_iff {s : Watch H K} {entry : UpdateQueueItem H K} (h : s.q.entries name = some entry) :
    Newest name s ↔ IsGreatest (versions s.accepted) (version entry.epochHeight entry.sectorSize) ∧
      ∀ peerID ∈ entry.peerIDs, ∃ a ∈ s.accepted,
        a.1 = peerID ∧ a.2.epochHeight = entry.epochHeight ∧ a.2.sectorSize = entry.sectorSize := by
  simp only [Newest, h, Option.mem_def, Option.some.injEq, forall_eq']

omit [DecidableEq H] in
theorem newest_concat_iff {q q' : UpdateQueue H K} {accepted : List (H × Update)} {entry : UpdateQueueItem H K}
    (h : Newest name ⟨q, accepted⟩) (he : q.entries name = some entry) (he' : q'.entries name = some entry)
    (peerID : H) (update : Update) : Newest name ⟨q', accepted ++ [(peerID, update)]⟩ ↔
      version update.epochHeight update.sectorSize ≤ version entry.epochHeight entry.sectorSize := by
  obtain ⟨hg, hp⟩ := (newest_iff he).mp h
  rw [newest_iff he', versions_concat, isGreatest_insert_iff hg]
  refine and_iff_left fun p hp' => ?_
  obtain ⟨a, ha, h⟩ := hp p hp'
  exact ⟨a, List.mem_append_left _ ha, h⟩

theorem enqueue_entries_ne (q : UpdateQueue H K) (db : DB H K G) (peerID : H) {update : Update} (hn : update.name ≠ name) :
    (q.enqueue db peerID update).2.entries name = q.entries name := by
  have hne : name ≠ update.name := Ne.symm hn
  rcases UpdateQueue.enqueue_cases q db peerID update with ⟨f, h⟩ | ⟨req, h, -⟩ | ⟨info, -, -, h⟩ <;> rw [h]
  rcases UpdateQueue.insert_cases q peerID update info with ⟨-, h⟩ | ⟨e, -, -, h⟩ | ⟨e, -, -, -, -, h⟩ | ⟨e, f, -, h⟩ <;>
    rw [h] <;> simp [hne]

theorem newest_joined (s : Watch H K) (db : DB H K G) (peerID : H) {update : Update}
    (he : s.q.entries update.name = none) : Newest update.name (s.step update.name (.enqueue db peerID update)) := by
  simp only [Watch.step, he, Option.isSome_none, Bool.false_eq_true, if_false, true_and, List.nil_append]
  rcases UpdateQueue.enqueue_cases s.q db peerID update with ⟨f, hq⟩ | ⟨req, hq, -⟩ | ⟨info, -, -, hq⟩ <;> rw [hq]
  · intro entry hm; rw [he] at hm; cases hm
  · intro entry hm; rw [he] at hm; cases hm
  · rcases UpdateQueue.insert_cases s.q peerID update info with ⟨-, hi⟩ | ⟨e, h, -⟩ | ⟨e, h, -⟩ | ⟨e, f, h, -⟩
    · rw [hi]
      have hver : versions [(peerID, update)] = {version update.epochHeight update.sectorSize} := by
        ext v; simp [versions, eq_comm]
      refine (newest_iff (Function.update_self _ _ _)).mpr ⟨?_, ?_⟩
      · exact hver ▸ isGreatest_singleton
      · intro p hp
        exact ⟨(peerID, update), List.mem_singleton_self _, (List.mem_singleton.mp hp).symm, rfl, rfl⟩
    all_goals rw [he] at h; cases h

theorem newest_pending_iff (s : Watch H K) (db : DB H K G) (peerID : H) {update : Update} {entry : UpdateQueueItem H K}
    (h : Newest update.name s) (he : s.q.entries update.name = some entry) :
    Newest update.name (s.step update.name (.enqueue db peerID update)) ↔
      ((s.q.enqueue db peerID update).1.isOk = true → ¬ Crosses entry update) := by
  obtain ⟨hg, hpeers⟩ := (newest_iff he).mp h
  simp only [Watch.step, he, Option.isSome_some, if_true, true_and]
  rcases UpdateQueue.enqueue_cases s.q db peerID update with ⟨f, hq⟩ | ⟨req, hq, h0⟩ | ⟨info, -, hok, hq⟩ <;> rw [hq]
  · exact iff_of_true h nofun
  · -- a notice of an equivocation: accepted, and not queued
    simp only [Except.isOk, Except.toBool, if_true, true_imp_iff]
    rw [newest_concat_iff h he he, version_le, Crosses, h0]
    grind
  · simp only [Except.isOk, Except.toBool, if_true, true_imp_iff]
    rcases UpdateQueue.insert_cases s.q peerID update info with
      ⟨h, -⟩ | ⟨e, h, hlt, hi⟩ | ⟨e, h, hle, hep, hsame, hi⟩ | ⟨e, f, -, hi⟩
    · rw [he] at h; cases h
    · obtain rfl := Option.some.inj (he.symm.trans h)
      have hmine : ∀ p ∈ [peerID], ∃ a ∈ s.accepted ++ [(peerID, update)],
          a.1 = p ∧ a.2.epochHeight = update.epochHeight ∧ a.2.sectorSize = update.sectorSize :=
        fun p hp => ⟨(peerID, update), by simp, (List.mem_singleton.mp hp).symm, rfl, rfl⟩
      rw [hi, newest_iff (Function.update_self _ _ _), versions_concat]
      refine (and_iff_left hmine).trans ((isGreatest_insert_self_iff hg).trans ?_)
      rw [version_le, Crosses]
      grind
    · obtain rfl := Option.some.inj (he.symm.trans h)
      rw [hi, newest_iff (Function.update_self _ _ _), versions_concat]
      have hver : version update.epochHeight update.sectorSize ≤ version entry.epochHeight entry.sectorSize ↔
          ¬ Crosses entry update := by rw [version_le, Crosses]; grind
      refine ⟨fun hnew => hver.mp ((isGreatest_insert_iff hg).mp hnew.1), fun hcross => ?_⟩
      refine ⟨(isGreatest_insert_iff hg).mpr (hver.mpr hcross), fun p hp => ?_⟩
      rcases PeerSet.mem_add.mp hp with hp | rfl
      · obtain ⟨a, ha, h⟩ := hpeers p hp
        exact ⟨a, List.mem_append_left _ ha, h⟩
      · -- the update has the entry's epoch, so also its size
        have hepoch : entry.epochHeight = update.epochHeight :=
          UInt16.le_antisymm hep (UInt16.not_lt.mp fun hlt => hcross (.inr ⟨hlt, hle⟩))
        exact ⟨(p, update), by simp, rfl, hepoch.symm, (hsame hepoch).symm⟩
    · rw [hi] at hok; cases hok

/-- A call keeps the entry the newest exactly when its update, if accepted, does not cross it. -/
theorem step_newest_iff (s : Watch H K) (e : Call H K G) (h : Newest name s) :
    Newest name (s.step name e) ↔ InOrder name s e := by
  cases e with
  | dequeue =>
    refine iff_of_true (fun entry he => ?_) trivial
    rcases UpdateQueue.dequeue_entries s.q name with hd | hd
    · rw [Watch.step, hd] at he; cases he
    · rw [Watch.step, hd] at he
      exact h entry he
  | enqueue db peerID update =>
    by_cases hn : update.name = name
    · subst hn
      cases he : s.q.entries update.name with
      | none => exact iff_of_true (newest_joined s db peerID he) fun _ _ entry hm => by rw [he] at hm; cases hm
      | some entry =>
        rw [newest_pending_iff s db peerID h he]
        simp only [InOrder, he, Option.mem_def, Option.some.injEq, forall_eq', true_imp_iff]
    · refine iff_of_true (fun entry hm => ?_) fun h => absurd h hn
      simp only [Watch.step, enqueue_entries_ne s.q db peerID hn, hn, false_and, if_false] at hm ⊢
      rw [Option.mem_def.mp hm]
      exact h entry hm

/-- From a state where the name is not pending: as long as it is, its entry is the newest
    accepted update and its peers sent that one, exactly if no accepted update crosses it. -/
theorem entry_is_newest_iff (name : Name) (s : Watch H K) (hs : s.q.entries name = none) (es : List (Call H K G)) :
    Machine.Along (Watch.step name) (fun s e => Newest name (s.step name e)) s es ↔
      Machine.Along (Watch.step name) (InOrder name) s es :=
  Machine.along_iff (Newest name) (fun s e h => step_newest_iff s e h) (fun _ _ _ h => h) es s
    fun entry he => by rw [hs] at he; cases he

end

/-- `Enqueue` of an update of the one known name, none of it stored. -/
def announce (peerID : Symbolic.Sym) (epochHeight sectorSize : UInt16) : Call Symbolic.Sym Nat Symbolic.Sig :=
  .enqueue Symbolic.names peerID ⟨Symbolic.site, epochHeight, sectorSize⟩

def idle : Watch Symbolic.Sym Nat := ⟨UpdateQueue.new, []⟩

/-- Sizes that grow within an epoch, then a larger blob of the next one. -/
theorem growing_updates_stay_newest :
    Machine.Along (Watch.step Symbolic.site) (fun s e => Newest Symbolic.site (s.step Symbolic.site e)) idle
      [announce [1] 5 1, announce [2] 5 3, announce [3] 5 3, announce [4] 6 4] :=
  (entry_is_newest_iff Symbolic.site idle rfl _).mpr (by decide +kernel)

def after (first second : Call Symbolic.Sym Nat Symbolic.Sig) : Watch Symbolic.Sym Nat :=
  Machine.run (Watch.step Symbolic.site) idle [first, second]

theorem not_newest {s : Watch Symbolic.Sym Nat} {v a : UInt16 × UInt16}
    (he : (s.q.entries Symbolic.site).map (fun e => (e.epochHeight, e.sectorSize)) = some v)
    (ha : a ∈ s.accepted.map fun a => (a.2.epochHeight, a.2.sectorSize)) (hlt : ¬ version a.1 a.2 ≤ version v.1 v.2) :
    ¬ Newest Symbolic.site s := by
  intro h
  obtain ⟨entry, hentry, rfl⟩ := Option.map_eq_some_iff.mp he
  obtain ⟨b, hb, rfl⟩ := List.mem_map.mp ha
  exact hlt ((h entry hentry).1.2 ⟨b, hb, rfl⟩)

/-- A larger blob of epoch 6 replaces the entry of epoch 7; and a peer that announced epoch
    8 is filed under epoch 7, whose blob is larger. -/
theorem an_older_epoch_is_kept :
    ¬ Newest Symbolic.site (after (announce [1] 7 1) (announce [2] 6 5)) ∧
    ¬ Newest Symbolic.site (after (announce [1] 7 5) (announce [2] 8 3)) :=
  ⟨not_newest (v := (6, 5)) (a := (7, 1)) (by decide +kernel) (by decide +kernel) (by decide +kernel),
    not_newest (v := (7, 5)) (a := (8, 3)) (by decide +kernel) (by decide +kernel) (by decide +kernel)⟩

/-! ## Length -/

/-- A call past its checks, before the mutex. -/
structure Waiting (H K : Type) where
  peerID : H
  update : Update
  info : NameInfo K

/-- The queue and the calls under way. -/
structure Crowd (H K : Type) where
  q : UpdateQueue H K
  waiting : List (Waiting H K)

inductive Move (H K G : Type) where
  | check (db : DB H K G) (peerID : H) (update : Update)
  | insert (i : Nat)
  | dequeue

/-- At most `MaxLen` names are queued. -/
def Bounded (s : Crowd H K) : Prop := (s.q.queue.length : Int) ≤ s.q.maxLen

instance (s : Crowd H K) : Decidable (Bounded s) := inferInstanceAs (Decidable (_ ≤ _))

def Crowd.new (maxLen : Int) : Crowd H K := ⟨⟨maxLen, fun _ => none, [], 0⟩, []⟩

section

variable [DecidableEq H]

def Crowd.step (s : Crowd H K) : Move H K G → Crowd H K
  | .check db peerID update =>
    match s.q.precheck db update with
    | .ok (.inr info) => { s with waiting := s.waiting ++ [⟨peerID, update, info⟩] }
    | _ => s
  | .insert i =>
    match s.waiting[i]? with
    | none => s
    | some w => ⟨(s.q.insert w.peerID w.update w.info).2, s.waiting.eraseIdx i⟩
  | .dequeue => { s with q := s.q.dequeue.2 }

/-- The counter is right, and queued names and waiting calls together stay below `MaxLen + c`. -/
structure Crowd.Within (maxLen : Int) (c : Nat) (s : Crowd H K) : Prop where
  max : s.q.maxLen = maxLen
  len : s.q.queueLen = s.q.queue.length
  sum : (s.q.queue.length : Int) + s.waiting.length < maxLen + c

theorem Crowd.Within.step {maxLen : Int} {c : Nat} {s : Crowd H K} (h : s.Within maxLen c) (e : Move H K G)
    (hc : (s.step e).waiting.length ≤ c) : (s.step e).Within maxLen c := by
  obtain ⟨hmax, hlen, hsum⟩ := h
  cases e with
  | check db peerID update =>
    simp only [Crowd.step] at hc ⊢
    split
    · rename_i info hp
      -- the check found fewer than `MaxLen` names; this call is one of at most `c`
      have hroom := UpdateQueue.precheck_room hp
      simp only [hp, List.length_append, List.length_singleton] at hc
      refine ⟨hmax, hlen, ?_⟩
      simp only [List.length_append, List.length_singleton]
      omega
    · exact ⟨hmax, hlen, hsum⟩
  | dequeue =>
    obtain ⟨hmax', ⟨-, hq⟩ | ⟨name, hq, hl⟩⟩ := s.q.dequeue_queue
    · simp only [Crowd.step, hq]; exact ⟨hmax, hlen, hsum⟩
    · have hcons := congrArg List.length hq
      simp only [List.length_cons] at hcons
      refine ⟨hmax'.trans hmax, ?_, ?_⟩ <;> simp only [Crowd.step] <;> omega
  | insert i =>
    simp only [Crowd.step]
    split
    · exact ⟨hmax, hlen, hsum⟩
    · rename_i w hw
      -- the call stops waiting, whether or not its name joins
      have hlt := (List.getElem?_eq_some_iff.mp hw).1
      have herase := List.length_eraseIdx_of_lt hlt
      obtain ⟨hmax', ⟨-, hq, hl⟩ | ⟨-, hq, hl⟩⟩ := UpdateQueue.insert_queue s.q w.peerID w.update w.info
      · refine ⟨hmax'.trans hmax, ?_, ?_⟩ <;>
          simp only [hq, hl, herase, List.length_append, List.length_singleton] <;> omega
      · refine ⟨hmax'.trans hmax, ?_, ?_⟩ <;> simp only [hq, hl, herase] <;> omega

theorem Crowd.within_run {c : Nat} (hc : 1 ≤ c) {maxLen : Int} (hmax : 0 ≤ maxLen) (es : List (Move H K G))
    (hes : Machine.Along Crowd.step (fun s e => (s.step e).waiting.length ≤ c) (Crowd.new maxLen) es) :
    (Machine.run Crowd.step (Crowd.new maxLen : Crowd H K) es).Within maxLen c := by
  refine Machine.run_inv (Crowd.Within maxLen c) (fun s e h ok => h.step e ok) es _ ⟨rfl, rfl, ?_⟩ hes
  simp only [Crowd.new, List.length_nil]
  omega

/-- With at most `c` calls under way at once, the queue holds fewer than `MaxLen + c` names. -/
theorem length_lt_of_waiting {c : Nat} (hc : 1 ≤ c) {maxLen : Int} (hmax : 0 ≤ maxLen) (es : List (Move H K G))
    (hes : Machine.Along Crowd.step (fun s e => (s.step e).waiting.length ≤ c) (Crowd.new maxLen) es) :
    ((Machine.run Crowd.step (Crowd.new maxLen : Crowd H K) es).q.queue.length : Int) < maxLen + c := by
  have hsum := (Crowd.within_run hc hmax es hes).sum
  omega

/-- In a run in which no two calls are between their check and their insertion at once, the
    queue stays within `MaxLen`. -/
theorem queue_bounded {maxLen : Int} (hmax : 0 ≤ maxLen) (es : List (Move H K G))
    (hes : Machine.Along Crowd.step (fun s e => (s.step e).waiting.length ≤ 1) (Crowd.new maxLen) es) :
    Bounded (Machine.run Crowd.step (Crowd.new maxLen : Crowd H K) es) := by
  have hlt := length_lt_of_waiting (Nat.le_refl 1) hmax es hes
  unfold Bounded
  rw [(Crowd.within_run (Nat.le_refl 1) hmax es hes).max]
  exact Int.le_of_lt_add_one hlt

end

/-- A store that knows every name. -/
def anyName : DB Symbolic.Sym Nat Symbolic.Sig := DB.empty (fun name => some ⟨name, 1, 0⟩) fun _ => false

/-- A name is queued, the next finds the queue full; one is taken up, and there is room again. -/
def inTurn : List (Move Symbolic.Sym Nat Symbolic.Sig) :=
  [.check anyName [1] ⟨[0x61], 5, 1⟩, .insert 0, .check anyName [2] ⟨[0x62], 5, 1⟩, .insert 0, .dequeue,
    .check anyName [2] ⟨[0x62], 5, 1⟩, .insert 0]

theorem calls_in_turn_are_bounded :
    Bounded (Machine.run Crowd.step (Crowd.new 1) inTurn) ∧ (Machine.run Crowd.step (Crowd.new 1) inTurn).q.queue = [[0x62]] :=
  ⟨queue_bounded (by decide) inTurn (by decide +kernel), by decide +kernel⟩

/-- Both calls look at the length before either has the mutex. -/
theorem two_calls_at_once_exceed_the_bound :
    ¬ Bounded (Machine.run Crowd.step (Crowd.new 1)
      [.check anyName [1] ⟨[0x61], 5, 1⟩, .check anyName [2] ⟨[0x62], 5, 1⟩, .insert 0, .insert 0]) := by
  decide +kernel

end Fnd.Queue

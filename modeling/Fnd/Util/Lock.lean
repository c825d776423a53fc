/-
  Fnd.Util.Lock — the map behind the per-key locks (`lock` of `util/multi_locker.go`), and
  what its callers hold.

  A counter is made by the first call that names its key, whether or not the call is granted,
  and deleted with the last lock given back. `Holds` is what was granted and not given back;
  the code keeps no such list. `lock_excludes`: over every sequence of calls the counters
  are the holds' numbers, each call answers by the holds on its key alone, and writers
  exclude. `Fnd.Util.MultiLocker` is this map with the absent counters read as zeros
  (`view_call`).
-/

import Fnd.Lib.Machine
import Fnd.Util.MultiLocker

namespace Fnd.Util

/-- `inUse`, with the keys that have no counter. -/
abbrev Lock (κ : Type) := κ → Option RefCounter

inductive Call (κ : Type) where
  | tryLock (key : κ)
  | tryRLock (key : κ)
  | unlock (key : κ)
  | rUnlock (key : κ)

def Call.key {κ : Type} : Call κ → κ
  | .tryLock key | .tryRLock key | .unlock key | .rUnlock key => key

inductive Outcome where
  /-- `true` -/
  | granted
  /-- `false` -/
  | refused
  | returned
  | panicked
  deriving DecidableEq, Repr

namespace Lock

variable {κ : Type} [DecidableEq κ]

def new : Lock κ := fun _ => none

def getLocker (l : Lock κ) (key : κ) : RefCounter × Lock κ :=
  match l key with
  | some res => (res, l)
  | none => (⟨0, 0⟩, Function.update l key (some ⟨0, 0⟩))

def tryLock (l : Lock κ) (key : κ) : Outcome × Lock κ :=
  let (m, l) := l.getLocker key
  if m.readers > 0 ∨ m.writers > 0 then (.refused, l)
  else (.granted, Function.update l key (some { m with writers := m.writers + 1 }))

def tryRLock (l : Lock κ) (key : κ) : Outcome × Lock κ :=
  let (m, l) := l.getLocker key
  if m.writers > 0 then (.refused, l)
  else (.granted, Function.update l key (some { m with readers := m.readers + 1 }))

def unlock (l : Lock κ) (key : κ) : Outcome × Lock κ :=
  let (m, l) := l.getLocker key
  if m.writers ≠ 1 then (.panicked, l)
  else
    let m := { m with writers := m.writers - 1 }
    (.returned, Function.update l key (if m.writers = 0 then none else some m))

def rUnlock (l : Lock κ) (key : κ) : Outcome × Lock κ :=
  let (m, l) := l.getLocker key
  if m.readers < 1 then (.panicked, l)
  else
    let m := { m with readers := m.readers - 1 }
    (.returned, Function.update l key (if m.readers = 0 then none else some m))

def call (l : Lock κ) : Call κ → Outcome × Lock κ
  | .tryLock key => l.tryLock key
  | .tryRLock key => l.tryRLock key
  | .unlock key => l.unlock key
  | .rUnlock key => l.rUnlock key

/-- The counter of a key; zeros without one. -/
def counter (l : Lock κ) (key : κ) : RefCounter := (l key).getD ⟨0, 0⟩

section

variable (l : Lock κ) (key : κ)

/-- What a failed attempt answers, or a good one with the counters it leaves. -/
def answer (failed done : Outcome) : Option (MultiLocker κ) → MultiLocker κ → Outcome × MultiLocker κ
  | none, l => (failed, l)
  | some l', _ => (done, l')

theorem getLocker_fst : (l.getLocker key).1 = l.counter key := by
  unfold getLocker counter
  cases l key <;> rfl

theorem getLocker_counter : (l.getLocker key).2.counter = l.counter := by
  funext k
  unfold getLocker counter
  cases h : l key with
  | some m => rfl
  | none =>
    by_cases e : k = key
    · subst e; simp [h]
    · simp [Function.update_of_ne e]

theorem getLocker_ne {k : κ} (hk : k ≠ key) : (l.getLocker key).2 k = l k := by
  unfold getLocker
  cases l key with
  | some m => rfl
  | none => exact Function.update_of_ne hk _ _

theorem counter_update (m : Option RefCounter) :
    counter (Function.update l key m) = Function.update l.counter key (m.getD ⟨0, 0⟩) := by
  funext k
  unfold counter
  by_cases e : k = key
  · subst e; simp
  · simp [Function.update_of_ne e]

theorem view_tryLock : ((l.tryLock key).1, (l.tryLock key).2.counter) =
    answer .refused .granted (MultiLocker.tryLock l.counter key) l.counter := by
  unfold tryLock MultiLocker.tryLock
  simp only [getLocker_fst]
  split
  · simp only [answer, getLocker_counter]
  · simp only [answer, counter_update, getLocker_counter, Option.getD_some]

theorem view_tryRLock : ((l.tryRLock key).1, (l.tryRLock key).2.counter) =
    answer .refused .granted (MultiLocker.tryRLock l.counter key) l.counter := by
  unfold tryRLock MultiLocker.tryRLock
  simp only [getLocker_fst]
  split
  · simp only [answer, getLocker_counter]
  · simp only [answer, counter_update, getLocker_counter, Option.getD_some]

theorem view_unlock : ((l.unlock key).1, (l.unlock key).2.counter) =
    answer .panicked .returned (MultiLocker.unlock l.counter key) l.counter := by
  unfold unlock MultiLocker.unlock
  simp only [getLocker_fst]
  split
  · simp only [answer, getLocker_counter]
  · rename_i h
    have h : (l.counter key).writers - 1 = 0 := by omega
    simp only [answer, h, if_true, counter_update, getLocker_counter, Option.getD_none]

theorem view_rUnlock : ((l.rUnlock key).1, (l.rUnlock key).2.counter) =
    answer .panicked .returned (MultiLocker.rUnlock l.counter key) l.counter := by
  unfold rUnlock MultiLocker.rUnlock
  simp only [getLocker_fst]
  split
  · simp only [answer, getLocker_counter]
  · rename_i h
    by_cases h1 : (l.counter key).readers = 1
    · simp only [answer, h1, Nat.sub_self, if_true, counter_update, getLocker_counter, Option.getD_none]
    · have h2 : ¬ (l.counter key).readers - 1 = 0 := by omega
      simp only [answer, h1, h2, if_false, counter_update, getLocker_counter, Option.getD_some]

end

/-- The counters' side of a call. -/
def onCounters (m : MultiLocker κ) : Call κ → Outcome × MultiLocker κ
  | .tryLock key => answer .refused .granted (m.tryLock key) m
  | .tryRLock key => answer .refused .granted (m.tryRLock key) m
  | .unlock key => answer .panicked .returned (m.unlock key) m
  | .rUnlock key => answer .panicked .returned (m.rUnlock key) m

theorem view_call (l : Lock κ) (c : Call κ) : ((l.call c).1, (l.call c).2.counter) = onCounters l.counter c := by
  cases c with
  | tryLock key => exact view_tryLock l key
  | tryRLock key => exact view_tryRLock l key
  | unlock key => exact view_unlock l key
  | rUnlock key => exact view_rUnlock l key

theorem call_ne (l : Lock κ) (c : Call κ) {k : κ} (hk : k ≠ c.key) : (l.call c).2 k = l k := by
  cases c <;>
    simp only [call, Call.key, tryLock, tryRLock, unlock, rUnlock] at hk ⊢ <;> split <;>
    simp only [Function.update_of_ne hk, getLocker_ne l _ hk]

end Lock

/-! ## What is held -/

inductive Mode where
  | read
  | write
  deriving DecidableEq, Repr

/-- The locks granted and not given back. -/
abbrev Holds (κ : Type) := List (κ × Mode)

namespace Holds

variable {κ : Type} [DecidableEq κ]

def readers (h : Holds κ) (key : κ) : Nat := h.count (key, .read)

def writers (h : Holds κ) (key : κ) : Nat := h.count (key, .write)

/-- What is held after a call that was answered so. -/
def after (h : Holds κ) : Call κ → Outcome → Holds κ
  | .tryLock key, .granted => (key, .write) :: h
  | .tryRLock key, .granted => (key, .read) :: h
  | .unlock key, .returned => h.erase (key, .write)
  | .rUnlock key, .returned => h.erase (key, .read)
  | _, _ => h

/-- One writer alone, or readers. -/
def Exclusive (h : Holds κ) : Prop := ∀ key, h.writers key ≤ 1 ∧ (h.writers key = 0 ∨ h.readers key = 0)

end Holds

structure Locked (κ : Type) where
  lock : Lock κ
  holds : Holds κ

namespace Locked

variable {κ : Type} [DecidableEq κ]

def new : Locked κ := ⟨Lock.new, []⟩

def step (s : Locked κ) (c : Call κ) : Locked κ := ⟨(s.lock.call c).2, s.holds.after c (s.lock.call c).1⟩

/-- A call answers by the holds on its key: attempts succeed exactly when they may, locks are
    given back exactly when they are held. -/
def Answers (h : Holds κ) : Call κ → Outcome → Prop
  | .tryLock key, o => (o = .granted ∨ o = .refused) ∧ (o = .granted ↔ h.writers key = 0 ∧ h.readers key = 0)
  | .tryRLock key, o => (o = .granted ∨ o = .refused) ∧ (o = .granted ↔ h.writers key = 0)
  | .unlock key, o => (o = .returned ∨ o = .panicked) ∧ (o = .panicked ↔ h.writers key = 0)
  | .rUnlock key, o => (o = .returned ∨ o = .panicked) ∧ (o = .panicked ↔ h.readers key = 0)

/-- A call under mutual exclusion. -/
structure Lawful (s : Locked κ) (c : Call κ) : Prop where
  exclusive : s.holds.Exclusive
  answers : Answers s.holds c (s.lock.call c).1
  /-- a refused attempt or a panic changes no hold and no counter -/
  failed : (s.lock.call c).1 = .refused ∨ (s.lock.call c).1 = .panicked →
    (s.step c).holds = s.holds ∧ (s.step c).lock.counter = s.lock.counter
  /-- nothing of another key changes -/
  others : ∀ key, key ≠ c.key → (s.step c).lock key = s.lock key ∧
    (s.step c).holds.writers key = s.holds.writers key ∧ (s.step c).holds.readers key = s.holds.readers key

/-- The counters count the holds. -/
structure Inv (s : Locked κ) : Prop where
  counts : ∀ key, s.lock.counter key = ⟨s.holds.readers key, s.holds.writers key⟩
  exclusive : s.holds.Exclusive

theorem inv_new : Inv (new : Locked κ) := ⟨fun _ => rfl, fun _ => ⟨Nat.zero_le 1, .inl rfl⟩⟩

theorem eq_of_count {h h' : Holds κ} {key : κ} {n : RefCounter} {l l' : MultiLocker κ}
    (hl : ∀ k, l k = ⟨h.readers k, h.writers k⟩) (hn : n = ⟨h'.readers key, h'.writers key⟩)
    (hne : ∀ k, k ≠ key → h'.readers k = h.readers k ∧ h'.writers k = h.writers k) (he : l' = Function.update l key n) :
    ∀ k, l' k = ⟨h'.readers k, h'.writers k⟩ := by
  intro k
  by_cases e : k = key
  · subst e; rw [he, Function.update_self, hn]
  · obtain ⟨hr, hw⟩ := hne k e
    rw [he, Function.update_of_ne e, hl, hr, hw]

/-- Changing the holds of one key under an exclusive pair keeps all exclusive. -/
theorem exclusive_of_ne {h h' : Holds κ} {key : κ} (hx : h.Exclusive)
    (hkey : h'.writers key ≤ 1 ∧ (h'.writers key = 0 ∨ h'.readers key = 0))
    (hne : ∀ k, k ≠ key → h'.readers k = h.readers k ∧ h'.writers k = h.writers k) : h'.Exclusive := by
  intro k
  by_cases e : k = key
  · subst e; exact hkey
  · obtain ⟨hr, hw⟩ := hne k e
    rw [hr, hw]; exact hx k

section

variable (h : Holds κ) (key : κ) (mode : Mode)

theorem cons_ne {k : κ} (hk : k ≠ key) : Holds.readers ((key, mode) :: h) k = h.readers k ∧
    Holds.writers ((key, mode) :: h) k = h.writers k := by
  unfold Holds.readers Holds.writers
  constructor <;> exact List.count_cons_of_ne fun e => hk (congrArg Prod.fst e).symm

theorem erase_ne {k : κ} (hk : k ≠ key) : Holds.readers (h.erase (key, mode)) k = h.readers k ∧
    Holds.writers (h.erase (key, mode)) k = h.writers k := by
  unfold Holds.readers Holds.writers
  constructor <;> exact List.count_erase_of_ne fun e => hk (congrArg Prod.fst e)

end

variable {s : Locked κ}

theorem kept_of_failed {c : Call κ} {o : Outcome} (ho : o = .refused ∨ o = .panicked) : s.holds.after c o = s.holds := by
  rcases ho with rfl | rfl <;> cases c <;> rfl

theorem after_ne (h : Holds κ) (c : Call κ) (o : Outcome) {k : κ} (hk : k ≠ c.key) :
    (h.after c o).readers k = h.readers k ∧ (h.after c o).writers k = h.writers k := by
  cases c <;> cases o <;> first | exact ⟨rfl, rfl⟩ | exact cons_ne h _ _ hk | exact erase_ne h _ _ hk

/-- A call that answers by the holds, and leaves the counter of its key as their number,
    keeps the invariant. -/
theorem lawful_of_counter (hi : Inv s) {c : Call κ} {o : Outcome} {l' : MultiLocker κ}
    (hcall : ((s.lock.call c).1, (s.lock.call c).2.counter) = (o, l')) (hans : Answers s.holds c o)
    (hsame : o = .refused ∨ o = .panicked → l' = s.lock.counter)
    (hnew : l' = Function.update s.lock.counter c.key ⟨(s.holds.after c o).readers c.key, (s.holds.after c o).writers c.key⟩)
    (hex : (s.holds.after c o).writers c.key ≤ 1 ∧
      ((s.holds.after c o).writers c.key = 0 ∨ (s.holds.after c o).readers c.key = 0)) :
    Inv (s.step c) ∧ Lawful s c := by
  obtain ⟨ho, hl⟩ := Prod.mk.inj hcall
  have hholds : (s.step c).holds = s.holds.after c o := by rw [step, ho]
  have hne := fun k (hk : k ≠ c.key) => after_ne s.holds c o hk
  refine ⟨⟨?_, ?_⟩, hi.exclusive, ho ▸ hans, ?_, ?_⟩
  · rw [hholds]; exact eq_of_count hi.counts rfl hne (hl.trans hnew)
  · rw [hholds]; exact exclusive_of_ne hi.exclusive hex hne
  · intro hf
    rw [ho] at hf
    exact ⟨hholds.trans (kept_of_failed hf), hl.trans (hsame hf)⟩
  · intro k hk
    rw [hholds]
    exact ⟨Lock.call_ne s.lock c hk, (hne k hk).2, (hne k hk).1⟩

theorem lawful_of_failed (hi : Inv s) {c : Call κ} {o : Outcome}
    (hcall : ((s.lock.call c).1, (s.lock.call c).2.counter) = (o, s.lock.counter)) (hans : Answers s.holds c o)
    (ho : o = .refused ∨ o = .panicked) : Inv (s.step c) ∧ Lawful s c := by
  refine lawful_of_counter hi hcall hans (fun _ => rfl) ?_ ?_ <;> rw [kept_of_failed ho]
  · rw [← hi.counts, Function.update_eq_self]
  · exact hi.exclusive c.key

theorem tryLock_lawful (hi : Inv s) (key : κ) : Inv (s.step (.tryLock key)) ∧ Lawful s (.tryLock key) := by
  have hview := Lock.view_call s.lock (.tryLock key)
  have hcount := hi.counts key
  simp only [Lock.onCounters, MultiLocker.tryLock, hcount] at hview
  by_cases hfree : s.holds.readers key > 0 ∨ s.holds.writers key > 0
  · rw [if_pos hfree] at hview
    refine lawful_of_failed hi hview ⟨.inr rfl, ?_⟩ (.inl rfl)
    constructor
    · intro h; cases h
    · intro h; omega
  · rw [if_neg hfree] at hview
    have hr : Holds.readers ((key, .write) :: s.holds) key = s.holds.readers key :=
      List.count_cons_of_ne (by simp)
    have hw : Holds.writers ((key, .write) :: s.holds) key = s.holds.writers key + 1 := List.count_cons_self
    refine lawful_of_counter hi hview ⟨.inl rfl, fun _ => by omega, fun _ => rfl⟩ (fun hf => absurd hf (by decide)) ?_ ?_ <;>
      simp only [Holds.after, Call.key, hr, hw]
    omega

theorem tryRLock_lawful (hi : Inv s) (key : κ) : Inv (s.step (.tryRLock key)) ∧ Lawful s (.tryRLock key) := by
  have hview := Lock.view_call s.lock (.tryRLock key)
  have hcount := hi.counts key
  simp only [Lock.onCounters, MultiLocker.tryRLock, hcount] at hview
  by_cases hfree : s.holds.writers key > 0
  · rw [if_pos hfree] at hview
    refine lawful_of_failed hi hview ⟨.inr rfl, ?_⟩ (.inl rfl)
    constructor
    · intro h; cases h
    · intro h; omega
  · rw [if_neg hfree] at hview
    have hr : Holds.readers ((key, .read) :: s.holds) key = s.holds.readers key + 1 := List.count_cons_self
    have hw : Holds.writers ((key, .read) :: s.holds) key = s.holds.writers key :=
      List.count_cons_of_ne (by simp)
    refine lawful_of_counter hi hview ⟨.inl rfl, fun _ => by omega, fun _ => rfl⟩ (fun hf => absurd hf (by decide)) ?_ ?_ <;>
      simp only [Holds.after, Call.key, hr, hw]
    omega

theorem unlock_lawful (hi : Inv s) (key : κ) : Inv (s.step (.unlock key)) ∧ Lawful s (.unlock key) := by
  have hview := Lock.view_call s.lock (.unlock key)
  have hcount := hi.counts key
  have hex := hi.exclusive key
  simp only [Lock.onCounters, MultiLocker.unlock, hcount] at hview
  by_cases hheld : s.holds.writers key = 1
  · rw [if_neg (not_not.mpr hheld)] at hview
    have hr : Holds.readers (s.holds.erase (key, .write)) key = s.holds.readers key :=
      List.count_erase_of_ne (by simp)
    have hw : Holds.writers (s.holds.erase (key, .write)) key = s.holds.writers key - 1 := List.count_erase_self
    have hans : Outcome.returned = .panicked ↔ s.holds.writers key = 0 := ⟨fun h => absurd h (by decide), fun _ => by omega⟩
    refine lawful_of_counter hi hview ⟨.inl rfl, hans⟩ (fun hf => absurd hf (by decide)) ?_ ?_ <;>
      simp only [Holds.after, Call.key, hr, hw]
    · -- the counter is deleted: no reader is left behind
      have h0 : s.holds.readers key = 0 := by omega
      rw [hheld, h0]
    · omega
  · rw [if_pos hheld] at hview
    exact lawful_of_failed hi hview ⟨.inr rfl, fun _ => by omega, fun _ => rfl⟩ (.inr rfl)

theorem rUnlock_lawful (hi : Inv s) (key : κ) : Inv (s.step (.rUnlock key)) ∧ Lawful s (.rUnlock key) := by
  have hview := Lock.view_call s.lock (.rUnlock key)
  have hcount := hi.counts key
  have hex := hi.exclusive key
  simp only [Lock.onCounters, MultiLocker.rUnlock, hcount] at hview
  by_cases hnone : s.holds.readers key < 1
  · rw [if_pos hnone] at hview
    exact lawful_of_failed hi hview ⟨.inr rfl, fun _ => by omega, fun _ => rfl⟩ (.inr rfl)
  · rw [if_neg hnone] at hview
    have hr : Holds.readers (s.holds.erase (key, .read)) key = s.holds.readers key - 1 := List.count_erase_self
    have hw : Holds.writers (s.holds.erase (key, .read)) key = s.holds.writers key :=
      List.count_erase_of_ne (by simp)
    -- with its last reader the counter is deleted: no writer is left behind
    have hlast : MultiLocker.rUnlock s.lock.counter key = some (Function.update s.lock.counter key
        ⟨s.holds.readers key - 1, s.holds.writers key⟩) := by
      simp only [MultiLocker.rUnlock, hcount, if_neg hnone]
      split
      · rename_i h1
        have h0 : s.holds.writers key = 0 := by omega
        rw [h0, h1]
      · rfl
    simp only [MultiLocker.rUnlock, hcount, if_neg hnone] at hlast
    rw [hlast] at hview
    have hans : Outcome.returned = .panicked ↔ s.holds.readers key = 0 := ⟨fun h => absurd h (by decide), fun _ => by omega⟩
    refine lawful_of_counter hi hview ⟨.inl rfl, hans⟩ (fun hf => absurd hf (by decide)) ?_ ?_ <;>
      simp only [Holds.after, Call.key, hr, hw]
    omega

theorem step_lawful (hi : Inv s) (c : Call κ) : Inv (s.step c) ∧ Lawful s c := by
  cases c with
  | tryLock key => exact tryLock_lawful hi key
  | tryRLock key => exact tryRLock_lawful hi key
  | unlock key => exact unlock_lawful hi key
  | rUnlock key => exact rUnlock_lawful hi key

/-- Mutual exclusion, over every sequence of calls on a new locker: every call answers by what
    is held, and at the end too the holds exclude each other and are what the counters say. -/
theorem lock_excludes (cs : List (Call κ)) : Machine.Along step Lawful new cs ∧
    (Machine.run step new cs).holds.Exclusive ∧
    ∀ key, (Machine.run step new cs).lock.counter key =
      ⟨(Machine.run step new cs).holds.readers key, (Machine.run step new cs).holds.writers key⟩ := by
  have hrun : Inv (Machine.run step new cs) :=
    Machine.run_keeps Inv (fun s c hi => (step_lawful hi c).1) cs new inv_new
  exact ⟨Machine.along_keeps Inv (fun s c hi => step_lawful hi c) cs new inv_new, hrun.exclusive, hrun.counts⟩

end Locked

end Fnd.Util

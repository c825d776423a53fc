/-
  Fnd.Util.MultiLocker — the per-key reader/writer counters (`util/multi_locker.go`).

  A key without a counter holds zeros. The attempts never block: `none` is the `false` of
  `TryLock`; for `unlock` and `rUnlock`, `none` is the panic.
-/

import Mathlib.Logic.Function.Basic

namespace Fnd.Util

structure RefCounter where
  readers : Nat
  writers : Nat
  deriving DecidableEq, Repr

/-- `inUse`. -/
abbrev MultiLocker (κ : Type) := κ → RefCounter

namespace MultiLocker

variable {κ : Type} [DecidableEq κ]

def new : MultiLocker κ := fun _ => ⟨0, 0⟩

def tryLock (l : MultiLocker κ) (key : κ) : Option (MultiLocker κ) :=
  if (l key).readers > 0 ∨ (l key).writers > 0 then none
  else some (Function.update l key { l key with writers := (l key).writers + 1 })

def tryRLock (l : MultiLocker κ) (key : κ) : Option (MultiLocker κ) :=
  if (l key).writers > 0 then none
  else some (Function.update l key { l key with readers := (l key).readers + 1 })

/-- The counter is deleted with its last writer. -/
def unlock (l : MultiLocker κ) (key : κ) : Option (MultiLocker κ) :=
  if (l key).writers ≠ 1 then none else some (Function.update l key ⟨0, 0⟩)

def rUnlock (l : MultiLocker κ) (key : κ) : Option (MultiLocker κ) :=
  if (l key).readers < 1 then none
  else if (l key).readers = 1 then some (Function.update l key ⟨0, 0⟩)
  else some (Function.update l key { l key with readers := (l key).readers - 1 })

theorem tryLock_eq_some {l l' : MultiLocker κ} {key : κ} :
    l.tryLock key = some l' ↔ l key = ⟨0, 0⟩ ∧ l' = Function.update l key ⟨0, 1⟩ := by
  unfold tryLock
  rcases e : l key with ⟨r, w⟩
  constructor
  · intro h
    split at h
    · cases h
    · rename_i hn
      obtain ⟨rfl, rfl⟩ : r = 0 ∧ w = 0 := by simp only at hn; omega
      exact ⟨rfl, (Option.some.inj h).symm⟩
  · rintro ⟨h0, rfl⟩
    cases h0; simp

theorem tryRLock_eq_some {l l' : MultiLocker κ} {key : κ} :
    l.tryRLock key = some l' ↔
      (l key).writers = 0 ∧ l' = Function.update l key { l key with readers := (l key).readers + 1 } := by
  unfold tryRLock
  constructor
  · intro h
    split at h
    · cases h
    · rename_i hw
      exact ⟨by omega, (Option.some.inj h).symm⟩
  · rintro ⟨hw, rfl⟩
    rw [if_neg (by omega)]

theorem unlock_held {l : MultiLocker κ} {key : κ} (h : (l key).writers = 1) :
    l.unlock key = some (Function.update l key ⟨0, 0⟩) := by
  simp [unlock, h]

theorem tryRLock_writers {l l' : MultiLocker κ} {key k : κ} (h : l.tryRLock key = some l')
    (hk : (l k).writers > 0) : l' k = l k := by
  unfold tryRLock at h
  split at h
  · cases h
  · rename_i hw
    cases h
    have hne : k ≠ key := by rintro rfl; exact hw hk
    exact Function.update_of_ne hne _ _

theorem rUnlock_of_tryRLock {l l' : MultiLocker κ} {key : κ} (h : l.tryRLock key = some l') :
    ∃ l'', l'.rUnlock key = some l'' := by
  unfold tryRLock at h
  split at h
  · cases h
  · cases h
    unfold rUnlock
    simp only [Function.update_self]
    rw [if_neg (by omega)]
    split <;> exact ⟨_, rfl⟩

theorem rUnlock_tryRLock {l l' : MultiLocker κ} {key : κ} (h : l.tryRLock key = some l') : l'.rUnlock key = some l := by
  obtain ⟨hw, rfl⟩ := tryRLock_eq_some.mp h
  rcases e : l key with ⟨readers, writers⟩
  have hw : writers = 0 := by rw [e] at hw; exact hw
  have hback (c : RefCounter) : c = l key → Function.update (Function.update l key ⟨readers + 1, writers⟩) key c = l := by
    rintro rfl
    rw [Function.update_idem, Function.update_eq_self]
  simp only [rUnlock, Function.update_self, Nat.not_lt.mpr (Nat.le_add_left 1 readers), if_false, Nat.add_sub_cancel]
  split
  · rw [hback _ (by rw [e, hw]; congr 1; omega)]
  · rw [hback _ e.symm]

theorem tryRLock_free {l : MultiLocker κ} {key : κ} (h : (l key).writers = 0) : ∃ l', l.tryRLock key = some l' :=
  ⟨_, by simp only [tryRLock, h, Nat.lt_irrefl, if_false]; rfl⟩

theorem rUnlock_ne {l l' : MultiLocker κ} {key k : κ} (h : l.rUnlock key = some l') (hk : k ≠ key) : l' k = l k := by
  unfold rUnlock at h
  split at h
  · cases h
  · split at h <;> (cases h; exact Function.update_of_ne hk _ _)

end MultiLocker

end Fnd.Util

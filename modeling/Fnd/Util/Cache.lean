/-
  Fnd.Util.Cache — the expiring map (`util/cache.go`): the sector server's responses and
  the RPC server's open transactions.

  An expired entry goes when it is next looked up. The reaper goroutine compares seconds
  with nanoseconds (`reap`): it removes an entry only when the Unix time in seconds has
  reached its expiry in nanoseconds.
-/

import Mathlib.Logic.Function.Basic
import Fnd.Basic

namespace Fnd.Util

def millisecond : Int := 1000000

structure Entry (V : Type) where
  val : V
  /-- Unix nanoseconds. -/
  expiry : Int

abbrev Cache (κ V : Type) := κ → Option (Entry V)

namespace Cache

variable {κ V : Type} [DecidableEq κ]

def new : Cache κ V := fun _ => none

def get (c : Cache κ V) (now : Time) (key : κ) : Option V × Cache κ V :=
  match c key with
  | none => (none, c)
  | some entry => if now > entry.expiry then (none, Function.update c key none) else (some entry.val, c)

/-- `Set`: without a duration the entry expires at `math.MaxInt16`. -/
def set (c : Cache κ V) (now : Time) (key : κ) (val : V) (expMS : Int) : Cache κ V :=
  Function.update c key (some ⟨val, if expMS = 0 then 32767 else now + expMS * millisecond⟩)

/-- The value behind the entry's pointer was changed; its expiry stays. -/
def assign (c : Cache κ V) (key : κ) (val : V) : Cache κ V :=
  match c key with
  | none => c
  | some entry => Function.update c key (some { entry with val := val })

def del (c : Cache κ V) (key : κ) : Cache κ V := Function.update c key none

def reap (c : Cache κ V) (now : Time) : Cache κ V := fun key =>
  match c key with
  | none => none
  | some entry => if unix now < entry.expiry then some entry else none

theorem get_some {c c' : Cache κ V} {now : Time} {key : κ} {v : V} (h : c.get now key = (some v, c')) :
    c' = c ∧ ∃ expiry, c key = some ⟨v, expiry⟩ := by
  unfold get at h
  split at h
  · cases h
  · rename_i entry he
    split at h
    · cases h
    · cases h; exact ⟨rfl, entry.expiry, he⟩

/-- A lookup finds an entry that has not expired and changes nothing. -/
theorem get_of_le {c : Cache κ V} {now : Time} {key : κ} {entry : Entry V} (he : c key = some entry) (h : now ≤ entry.expiry) :
    c.get now key = (some entry.val, c) := by
  simp only [get, he, if_neg (Int.not_lt.mpr h)]

theorem get_live {c c' : Cache κ V} {now : Time} {key : κ} {v : V} (h : c.get now key = (some v, c')) :
    ∃ entry, c key = some entry ∧ now ≤ entry.expiry := by
  unfold get at h
  split at h
  · cases h
  · rename_i entry he
    split at h
    · cases h
    · rename_i hlive
      exact ⟨entry, he, Int.not_lt.mp hlive⟩

theorem get_none {c c' : Cache κ V} {now : Time} {key : κ} (h : c.get now key = (none, c')) :
    c' = Function.update c key none := by
  unfold get at h
  split at h
  · rename_i he
    cases h
    exact (Function.update_eq_self_iff.mpr he.symm).symm
  · split at h
    · cases h; rfl
    · cases h

theorem assign_some {c : Cache κ V} {key k : κ} {val : V} {entry : Entry V} (h : c.assign key val k = some entry) :
    c k = some entry ∨ k = key ∧ entry.val = val ∧ ∃ v, c k = some { entry with val := v } := by
  cases he : c key with
  | none => simp only [assign, he] at h; exact .inl h
  | some e =>
    simp only [assign, he] at h
    by_cases hk : k = key
    · subst hk
      rw [Function.update_self] at h
      cases h
      exact .inr ⟨rfl, rfl, e.val, he⟩
    · rw [Function.update_of_ne hk] at h
      exact .inl h

theorem assign_self {c : Cache κ V} {key : κ} {entry : Entry V} (h : c key = some entry) :
    c.assign key entry.val = c := by
  simp only [assign, h]
  exact Function.update_eq_self_iff.mpr h.symm

theorem del_some {c : Cache κ V} {key k : κ} {entry : Entry V} (h : c.del key k = some entry) :
    k ≠ key ∧ c k = some entry := by
  by_cases hk : k = key
  · subst hk; simp [del] at h
  · rw [del, Function.update_of_ne hk] at h; exact ⟨hk, h⟩

omit [DecidableEq κ] in
theorem reap_some {c : Cache κ V} {now : Time} {key : κ} {entry : Entry V} (h : c.reap now key = some entry) :
    c key = some entry := by
  unfold reap at h
  split at h
  · cases h
  · rename_i he
    split at h
    · cases h; exact he
    · cases h

end Cache

end Fnd.Util

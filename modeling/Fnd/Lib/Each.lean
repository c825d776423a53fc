/-
  Fnd.Lib.Each — a step for each entry of a list, up to the first that fails.

  The results are there exactly when each step has one, and they are those (`mapM_eq_ok_iff`).
-/

import Mathlib.Data.List.Forall2

namespace Each

variable {α β ε : Type}

theorem exists_of_forall₂ {R : α → β → Prop} {xs : List α} {ys : List β} (h : List.Forall₂ R xs ys) : ∀ x ∈ xs, ∃ y, R x y := by
  induction h with
  | nil => exact fun x hx => absurd hx List.not_mem_nil
  | cons hxy _ ih => exact List.forall_mem_cons.mpr ⟨⟨_, hxy⟩, ih⟩

theorem exists_forall₂ {R : α → β → Prop} {xs : List α} (h : ∀ x ∈ xs, ∃ y, R x y) : ∃ ys, List.Forall₂ R xs ys := by
  induction xs with
  | nil => exact ⟨[], .nil⟩
  | cons x xs ih =>
    obtain ⟨⟨y, hy⟩, hxs⟩ := List.forall_mem_cons.mp h
    obtain ⟨ys, hys⟩ := ih hxs
    exact ⟨y :: ys, .cons hy hys⟩

variable {f : α → Except ε β} {l : List α}

theorem mapM_eq_ok_iff {ys : List β} : l.mapM f = .ok ys ↔ List.Forall₂ (fun x y => f x = .ok y) l ys := by
  induction l generalizing ys with
  | nil =>
    refine ⟨fun h => ?_, fun h => ?_⟩
    · cases h
      exact .nil
    · cases h
      rfl
  | cons x l ih =>
    rw [List.mapM_cons]
    refine ⟨fun h => ?_, fun h => ?_⟩
    · cases hx : f x with
      | error e =>
        rw [hx] at h
        cases h
      | ok y =>
        cases hl : l.mapM f with
        | error e =>
          rw [hx, hl] at h
          cases h
        | ok ys =>
          rw [hx, hl] at h
          cases h
          exact .cons hx (ih.mp hl)
    · cases h with
      | cons hx hl =>
        rw [hx, ih.mpr hl]
        rfl

theorem mapM_ok {g : α → β} (h : ∀ x ∈ l, f x = .ok (g x)) : l.mapM f = .ok (l.map g) :=
  mapM_eq_ok_iff.mpr (List.forall₂_map_right_iff.mpr (List.forall₂_same.mpr h))

theorem mapM_error {x : α} (hx : x ∈ l) {e : ε} (h : f x = .error e) : ∃ e', l.mapM f = .error e' := by
  cases hl : l.mapM f with
  | error e' => exact ⟨e', rfl⟩
  | ok ys =>
    obtain ⟨y, hy⟩ := exists_of_forall₂ (mapM_eq_ok_iff.mp hl) x hx
    rw [h] at hy
    cases hy

end Each

/-
  Fnd.Lib.Weight — the weight of a list of parts, when one part changes.

  For measures over a list of processes: exchanging one (`sum_set`), one ending (`sum_eraseIdx`).
-/

import Mathlib.Algebra.Ring.Nat

namespace Weight

variable {α : Type} (w : α → Nat) {l : List α} {i : Nat} {a : α}

theorem sum_set (h : l[i]? = some a) (b : α) : ((l.set i b).map w).sum + w a = (l.map w).sum + w b := by
  induction l generalizing i with
  | nil => cases h
  | cons x l ih =>
    cases i with
    | zero =>
      cases h
      simp only [List.set_cons_zero, List.map_cons, List.sum_cons]
      omega
    | succ i =>
      have hl := ih h
      simp only [List.set_cons_succ, List.map_cons, List.sum_cons]
      omega

theorem sum_eraseIdx (h : l[i]? = some a) : ((l.eraseIdx i).map w).sum + w a = (l.map w).sum := by
  induction l generalizing i with
  | nil => cases h
  | cons x l ih =>
    cases i with
    | zero =>
      cases h
      simp only [List.eraseIdx_cons_zero, List.map_cons, List.sum_cons]
      omega
    | succ i =>
      have hl := ih h
      simp only [List.eraseIdx_cons_succ, List.map_cons, List.sum_cons]
      omega

end Weight

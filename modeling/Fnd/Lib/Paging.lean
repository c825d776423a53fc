/-
  Fnd.Lib.Paging — reading a sorted list page by page.

  `after s` is what is listed from `s` on. `visit` reads pages of given sizes, each from the last
  entry of the one before. If what is listed after an entry is all that is above it, enough pages
  give the whole list (`visit_all`); what is left out after some entry is not seen again
  (`not_mem_visit`).
-/

import Mathlib.Data.List.Sort

namespace Paging

variable {κ : Type}

def visit (after : κ → List κ) : List Nat → κ → List κ
  | [], _ => []
  | n :: ns, start =>
    let page := (after start).take n
    page ++ visit after ns (page.getLastD start)

theorem visit_cons (after : κ → List κ) (n : Nat) (ns : List Nat) (start : κ) :
    visit after (n :: ns) start = (after start).take n ++ visit after ns (((after start).take n).getLastD start) := rfl

variable [LT κ]

/-- `m` is above `a`, and below all that is listed after `a`. What is listed has `P`, and after an
    entry only what is above it. -/
theorem not_mem_visit {after : κ → List κ} {P : κ → Prop} (hP : ∀ s x, x ∈ after s → P x) {a m : κ}
    (ha : ∀ x ∈ after a, m < x) (hup : ∀ s, P s → m < s → ∀ x ∈ after s, m < x) (hirr : ¬ m < m) :
    ∀ (ns : List Nat) {s : κ}, s = a ∨ P s ∧ m < s → m ∉ visit after ns s := by
  intro ns
  induction ns with
  | nil => intro s _ hm; exact absurd hm List.not_mem_nil
  | cons n ns ih =>
    intro s hs
    have hpage : ∀ x ∈ (after s).take n, P x ∧ m < x := by
      intro x hx
      have hx := List.mem_of_mem_take hx
      refine ⟨hP s x hx, ?_⟩
      cases hs with
      | inl heq => exact ha x (heq ▸ hx)
      | inr hs => exact hup s hs.1 hs.2 x hx
    rw [visit_cons, List.mem_append, not_or]
    refine ⟨fun hm => hirr (hpage m hm).2, ih ?_⟩
    rw [List.getLastD_eq_getLast?]
    cases hl : ((after s).take n).getLast? with
    | none => exact hs
    | some l => exact .inr (hpage l (List.mem_of_getLast? hl))

variable [DecidableLT κ] [LE κ] [Std.LawfulOrderLT κ] [Std.IsLinearOrder κ]

theorem filter_above {pre rest : List κ} {l : κ} (h : (pre ++ l :: rest).Pairwise (· < ·)) :
    (pre ++ l :: rest).filter (fun x => decide (l < x)) = rest := by
  obtain ⟨-, hrest, hpre⟩ := List.pairwise_append.mp h
  have h1 : pre.filter (fun x => decide (l < x)) = [] := by
    refine List.filter_eq_nil_iff.mpr fun x hx hlt => ?_
    exact Std.lt_irrefl (Std.lt_trans (hpre x hx l List.mem_cons_self) (of_decide_eq_true hlt))
  have h2 : rest.filter (fun x => decide (l < x)) = rest :=
    List.filter_eq_self.mpr fun x hx => decide_eq_true ((List.pairwise_cons.mp hrest).1 x hx)
  rw [List.filter_append, h1, List.nil_append, List.filter_cons_of_neg (by simp [Std.lt_irrefl]), h2]

/-- Enough pages, none of them empty by its size, from where `rest` is listed. -/
theorem visit_all {after : κ → List κ} {all : List κ} (hsorted : all.Pairwise (· < ·))
    (hafter : ∀ s ∈ all, after s = all.filter (fun x => decide (s < x))) :
    ∀ (ns : List Nat) {pre rest : List κ} {start : κ}, (∀ n ∈ ns, 0 < n) → all = pre ++ rest → after start = rest →
      rest.length ≤ ns.length → visit after ns start = rest := by
  intro ns
  induction ns with
  | nil =>
    intro pre rest start _ _ _ hlen
    exact (List.eq_nil_of_length_eq_zero (Nat.le_zero.mp hlen)).symm
  | cons n ns ih =>
    intro pre rest start hpos hall hstart hlen
    obtain ⟨hn, hns⟩ := List.forall_mem_cons.mp hpos
    rw [visit_cons, hstart]
    cases hl : (rest.take n).getLast? with
    | none =>
      -- nothing is left
      have hnil : rest = [] :=
        (List.take_eq_nil_iff.mp (List.getLast?_eq_none_iff.mp hl)).resolve_left (Nat.pos_iff_ne_zero.mp hn)
      subst hnil
      rw [List.take_nil, List.getLastD_nil, ih hns hall hstart (Nat.zero_le _)]
      rfl
    | some l =>
      obtain ⟨init, hinit⟩ := List.getLast?_eq_some_iff.mp hl
      have hsplit : all = (pre ++ init) ++ l :: rest.drop n := by
        calc
          all = pre ++ (rest.take n ++ rest.drop n) := by rw [List.take_append_drop, hall]
          _ = (pre ++ init) ++ l :: rest.drop n := by rw [hinit]; simp
      have hlast : after l = rest.drop n := by
        rw [hafter l (hsplit ▸ List.mem_append_right _ List.mem_cons_self)]
        rw [hsplit] at hsorted ⊢
        exact filter_above hsorted
      have hall' : all = (pre ++ rest.take n) ++ rest.drop n := by rw [List.append_assoc, List.take_append_drop, hall]
      have hrest : visit after ns l = rest.drop n :=
        ih hns hall' hlast (by rw [List.length_drop]; rw [List.length_cons] at hlen; omega)
      rw [List.getLastD_eq_getLast?, hl]
      show rest.take n ++ visit after ns l = rest
      rw [hrest, List.take_append_drop]

omit [DecidableLT κ] in
theorem eq_of_sorted {xs ys : List κ} (hx : xs.Pairwise (· < ·)) (hy : ys.Pairwise (· < ·)) (h : ∀ a, a ∈ xs ↔ a ∈ ys) :
    xs = ys := by
  have hnd : ∀ {zs : List κ}, zs.Pairwise (· < ·) → zs.Nodup := fun hz => hz.imp fun {a b} hlt =>
    show a ≠ b from fun heq => Std.lt_irrefl (heq ▸ hlt)
  have hperm : xs.Perm ys := (List.perm_ext_iff_of_nodup (hnd hx) (hnd hy)).mpr h
  exact hperm.eq_of_pairwise (fun a b _ _ hab hba => absurd (Std.lt_trans hab hba) Std.lt_irrefl) hx hy

end Paging

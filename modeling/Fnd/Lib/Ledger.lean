/-
  Fnd.Lib.Ledger — references counted for the owners of keys.

  `keys` are the keys in use, `owner` says whose each one is, `refs` is a counter for every
  owner kept beside them. `Balanced`: the counters are the numbers of keys. Filing a free key
  with one reference more, and dropping a key with one less, keep it so (`Balanced.file`,
  `Balanced.drop`); filing over a key in use without dropping it does not
  (`Balanced.not_overwrite`).
-/

import Mathlib.Data.List.Nodup
import Mathlib.Logic.Function.Basic

namespace Ledger

variable {κ ν : Type} [DecidableEq κ] [DecidableEq ν]

def owned (keys : List κ) (owner : κ → Option ν) (n : ν) : Nat := keys.countP (owner · = some n)

structure Balanced (keys : List κ) (owner : κ → Option ν) (refs : ν → Int) : Prop where
  nodup : keys.Nodup
  filed : ∀ k, k ∈ keys ↔ owner k ≠ none
  count : ∀ n, refs n = owned keys owner n

variable {keys : List κ} {owner : κ → Option ν} {refs : ν → Int}

omit [DecidableEq κ] in
theorem balanced_nil : Balanced ([] : List κ) (fun _ => (none : Option ν)) fun _ => 0 :=
  ⟨List.nodup_nil, fun _ => by simp, fun _ => rfl⟩

omit [DecidableEq κ] in
theorem owned_congr {owner' : κ → Option ν} (h : ∀ k ∈ keys, owner k = owner' k) (n : ν) :
    owned keys owner n = owned keys owner' n :=
  List.countP_congr fun k hk => by rw [h k hk]

theorem owned_update_of_notMem {k : κ} (hk : k ∉ keys) (o : Option ν) (n : ν) :
    owned keys (Function.update owner k o) n = owned keys owner n := by
  refine owned_congr (fun j hj => ?_) n
  have hne : j ≠ k := fun e => hk (e ▸ hj)
  rw [Function.update_of_ne hne]

theorem Balanced.file (h : Balanced keys owner refs) {k : κ} (hk : owner k = none) (n : ν) :
    Balanced (k :: keys) (Function.update owner k (some n)) (Function.update refs n (refs n + 1)) := by
  have hnot : k ∉ keys := fun hmem => (h.filed k).mp hmem hk
  refine ⟨List.nodup_cons.mpr ⟨hnot, h.nodup⟩, fun j => ?_, fun m => ?_⟩
  · by_cases hj : j = k
    · subst hj; simp
    · rw [Function.update_of_ne hj, List.mem_cons, h.filed j]
      simp [hj]
  · have hcount := h.count m
    have hrest : owned keys (Function.update owner k (some n)) m = owned keys owner m :=
      owned_update_of_notMem hnot _ m
    unfold owned at hrest hcount ⊢
    rw [List.countP_cons, hrest, Function.update_self]
    by_cases hm : m = n
    · subst hm; simp [hcount]
    · rw [Function.update_of_ne hm, hcount]
      have : ¬ n = m := fun e => hm e.symm
      simp [this]

theorem Balanced.owned_erase (h : Balanced keys owner refs) {k : κ} {n : ν} (hk : owner k = some n) (m : ν) :
    (owned (keys.erase k) owner m : Int) = owned keys owner m - if m = n then 1 else 0 := by
  have hmem : k ∈ keys := (h.filed k).mpr (by rw [hk]; exact Option.some_ne_none n)
  have hsplit : owned keys owner m = owned (k :: keys.erase k) owner m :=
    (List.perm_cons_erase hmem).countP_eq _
  unfold owned at hsplit ⊢
  rw [hsplit, List.countP_cons, hk]
  by_cases hm : m = n
  · subst hm; simp
  · have : ¬ n = m := fun e => hm e.symm
    simp [hm, this]

theorem Balanced.drop (h : Balanced keys owner refs) {k : κ} {n : ν} (hk : owner k = some n) :
    Balanced (keys.erase k) (Function.update owner k none) (Function.update refs n (refs n - 1)) := by
  have hnot : k ∉ keys.erase k := h.nodup.not_mem_erase
  refine ⟨h.nodup.erase k, fun j => ?_, fun m => ?_⟩
  · by_cases hj : j = k
    · subst hj; simp [hnot]
    · rw [Function.update_of_ne hj, List.mem_erase_of_ne hj, h.filed j]
  · rw [owned_update_of_notMem hnot, h.owned_erase hk m]
    by_cases hm : m = n
    · subst hm; rw [Function.update_self, h.count m, if_pos rfl]
    · rw [Function.update_of_ne hm, h.count m, if_neg hm]; omega

/-- The owner of a key that is filed again keeps a reference for nothing. -/
theorem Balanced.not_overwrite (h : Balanced keys owner refs) {k : κ} {n : ν} (hk : owner k = some n) (m : ν) :
    Function.update refs m (refs m + 1) n ≠ owned keys (Function.update owner k (some m)) n := by
  have hmem : k ∈ keys := (h.filed k).mpr (by rw [hk]; exact Option.some_ne_none n)
  have hnot : k ∉ keys.erase k := h.nodup.not_mem_erase
  have hsplit : owned keys (Function.update owner k (some m)) n =
      owned (k :: keys.erase k) (Function.update owner k (some m)) n :=
    (List.perm_cons_erase hmem).countP_eq _
  have hrest : owned (keys.erase k) (Function.update owner k (some m)) n = owned (keys.erase k) owner n :=
    owned_update_of_notMem hnot _ n
  have herase := h.owned_erase hk n
  have hcount := h.count n
  unfold owned at hsplit hrest herase hcount
  unfold owned
  rw [hsplit, List.countP_cons, hrest, Function.update_self]
  rw [if_pos rfl] at herase
  by_cases hm : n = m
  · subst hm
    rw [Function.update_self]
    simp only [decide_true, if_true]
    omega
  · rw [Function.update_of_ne hm]
    have : ¬ m = n := fun e => hm e.symm
    simp only [Option.some.injEq, this, decide_false, Bool.false_eq_true, if_false]
    omega

end Ledger

/-
  Fnd.Lib.Rejection — distinct values from a source that repeats itself, with a limit on how
  many repeats in a row are taken.

  `draw` goes on from a position of the source until a value is new; it gives up after `limit`
  draws. `sample` draws until it has as many values as are wanted. It gets them exactly when, as
  long as fewer values have been seen, one of the next `limit` draws is new (`sample_spec`).
-/

import Mathlib.Data.Finset.Card
import Mathlib.Data.Finset.Range

namespace Rejection

variable {α : Type} [DecidableEq α] (r : Nat → α)

/-- A value that is not used, from position `k` on, and the position after it. -/
def draw (used : List α) : Nat → Nat → Option (α × Nat)
  | 0, _ => none
  | limit + 1, k => if r k ∈ used then draw used limit (k + 1) else some (r k, k + 1)

/-- So many values more, from position `k` on. -/
def sample (limit : Nat) : Nat → Nat → List α → Option (List α)
  | 0, _, out => some out
  | count + 1, k, out =>
    match draw r out limit k with
    | none => none
    | some (x, k) => sample limit count k (out ++ [x])

/-- The values before position `k`. -/
def seen (k : Nat) : Finset α := (Finset.range k).image r

/-- One of the draws from position `k` on is new. -/
def NewWithin (limit k : Nat) : Prop := ∃ i, k ≤ i ∧ i < k + limit ∧ r i ∉ seen r k

variable {r}

theorem seen_succ (k : Nat) : seen r (k + 1) = insert (r k) (seen r k) := by
  rw [seen, Finset.range_add_one, Finset.image_insert, seen]

theorem seen_of_repeats {k i : Nat} (hki : k ≤ i) (h : ∀ m, k ≤ m → m < i → r m ∈ seen r k) : seen r i = seen r k := by
  induction i, hki using Nat.le_induction with
  | base => rfl
  | succ i hki ih =>
    have hsame := ih fun m hm hmi => h m hm (by omega)
    rw [seen_succ, hsame, Finset.insert_eq_of_mem (h i hki (by omega))]

/-- What a draw can do: it stops at the first value that is not used, or there is none. -/
theorem draw_cases (used : List α) (limit k : Nat) :
    (∃ i, k ≤ i ∧ i < k + limit ∧ r i ∉ used ∧ (∀ m, k ≤ m → m < i → r m ∈ used) ∧
      draw r used limit k = some (r i, i + 1)) ∨
    (∀ m, k ≤ m → m < k + limit → r m ∈ used) ∧ draw r used limit k = none := by
  induction limit generalizing k with
  | zero => exact .inr ⟨fun m hk hm => absurd hk (by omega), rfl⟩
  | succ limit ih =>
    by_cases hk : r k ∈ used
    · rw [draw, if_pos hk]
      rcases ih (k + 1) with ⟨i, hki, hi, hnew, hold, hdraw⟩ | ⟨hold, hdraw⟩
      · refine .inl ⟨i, by omega, by omega, hnew, fun m hm hmi => ?_, hdraw⟩
        rcases Nat.eq_or_lt_of_le hm with rfl | hm
        · exact hk
        · exact hold m hm hmi
      · refine .inr ⟨fun m hm hmk => ?_, hdraw⟩
        rcases Nat.eq_or_lt_of_le hm with rfl | hm
        · exact hk
        · exact hold m hm (by omega)
    · exact .inl ⟨k, Nat.le_refl k, by omega, hk, fun m hm hmk => absurd hm (by omega), by rw [draw, if_neg hk]⟩

/-- The values in hand are those before position `k`, each once. -/
structure Holds (r : Nat → α) (out : List α) (k : Nat) : Prop where
  nodup : out.Nodup
  values : out.toFinset = seen r k

section Holds

variable {out : List α} {k i : Nat} (h : Holds r out k)
include h

theorem Holds.mem_iff (x : α) : x ∈ out ↔ x ∈ seen r k := by
  rw [← h.values, List.mem_toFinset]

theorem Holds.length_le {k' : Nat} (hk' : k ≤ k') : out.length ≤ (seen r k').card := by
  rw [← List.toFinset_card_of_nodup h.nodup, h.values]
  exact Finset.card_le_card (Finset.image_subset_image (Finset.range_subset_range.mpr hk'))

theorem Holds.length_eq : out.length = (seen r k).card := by
  rw [← List.toFinset_card_of_nodup h.nodup, h.values]

theorem Holds.seen_eq (hold : ∀ m, k ≤ m → m < i → r m ∈ out) {k' : Nat} (hk' : k ≤ k') (hi : k' ≤ i) :
    seen r k' = seen r k :=
  seen_of_repeats hk' fun m hm hmk => (h.mem_iff _).mp (hold m hm (by omega))

theorem Holds.concat (hki : k ≤ i) (hnew : r i ∉ out) (hold : ∀ m, k ≤ m → m < i → r m ∈ out) :
    Holds r (out ++ [r i]) (i + 1) := by
  refine ⟨?_, ?_⟩
  · rw [List.nodup_append_comm]
    exact List.nodup_cons.mpr ⟨hnew, h.nodup⟩
  · rw [seen_succ, h.seen_eq hold hki (Nat.le_refl i), List.toFinset_append, h.values, Finset.union_comm]
    rfl

end Holds

/-- With the values before `k` in hand: it gets the rest of them, or there are not enough new
    values in time. -/
theorem sample_spec (limit count k : Nat) (out : List α) (h : Holds r out k) :
    (∃ xs, sample r limit count k out = some xs ∧ xs.Nodup ∧ xs.length = out.length + count ∧
      (∀ x ∈ xs, x ∈ out ∨ ∃ i, x = r i) ∧
      ∀ k', k ≤ k' → (seen r k').card < out.length + count → NewWithin r limit k') ∨
    sample r limit count k out = none ∧
      ∃ k', k ≤ k' ∧ (seen r k').card < out.length + count ∧ ¬ NewWithin r limit k' := by
  induction count generalizing k out with
  | zero =>
    -- as many have been seen
    refine .inl ⟨out, rfl, h.nodup, rfl, fun x hx => .inl hx, fun k' hk' hcard => ?_⟩
    exact absurd hcard (Nat.not_lt.mpr (h.length_le hk'))
  | succ count ih =>
    rcases draw_cases (r := r) out limit k with ⟨i, hki, hi, hnew, hold, hdraw⟩ | ⟨hold, hdraw⟩
    · have hcount : (out ++ [r i]).length + count = out.length + (count + 1) := by
        rw [List.length_append, List.length_singleton]
        omega
      have hsample : sample r limit (count + 1) k out = sample r limit count (i + 1) (out ++ [r i]) := by
        simp only [sample, hdraw]
      have hrest := ih (i + 1) (out ++ [r i]) (h.concat hki hnew hold)
      rw [hcount, ← hsample] at hrest
      rcases hrest with ⟨xs, hxs, hdistinct, hxlen, hfrom, hafter⟩ | ⟨hnone, k', hk', hcard, hlate⟩
      · refine .inl ⟨xs, hxs, hdistinct, hxlen, fun x hx => ?_, fun k' hk' hcard => ?_⟩
        · rcases hfrom x hx with hx | hx
          · rcases List.mem_append.mp hx with hx | hx
            · exact .inl hx
            · exact .inr ⟨i, List.mem_singleton.mp hx⟩
          · exact .inr hx
        · by_cases hi' : k' ≤ i
          · refine ⟨i, hi', by omega, ?_⟩
            rw [h.seen_eq hold hk' hi', ← h.mem_iff]
            exact hnew
          · exact hafter k' (by omega) hcard
      · exact .inr ⟨hnone, k', by omega, hcard, hlate⟩
    · have hlen := h.length_eq
      refine .inr ⟨by simp only [sample, hdraw], k, Nat.le_refl k, by omega, ?_⟩
      rintro ⟨i, hki, hi, hnew⟩
      exact hnew ((h.mem_iff _).mp (hold i hki hi))

end Rejection

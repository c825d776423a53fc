/-
  Fnd.Lib.Refill — one buffer, filled again and again from a source that may deliver less than
  it is asked for.

  A source delivers a list. What it does at a call is up to its plan: how much of what is left
  it delivers, nothing included, and whether it reports the end with the last of it, later or
  never. A read puts what it gets over the start of the buffer; the rest of the buffer stays, and
  so the next read finds the last one's symbols there.

  The buffers are the blocks of the list, one after another, exactly when each read turns the
  block before into the next (`buffers_eq_iff`). A source that delivers all it can does so to the
  last whole block (`buffer_whole`), and reports its end only to a read that finds nothing
  (`ended_whole`).
-/

namespace Refill

variable {α : Type}

/-- At this call, with this left: how much is delivered, at most, and whether the end is reported
    if nothing is left then. -/
abbrev Plan (α : Type) := Nat → List α → Nat × Bool

structure Source (α : Type) where
  rest : List α
  calls : Nat
  deriving DecidableEq

namespace Source

variable (plan : Plan α) (s : Source α)

/-- What a read of `w` symbols gets. -/
def count (w : Nat) : Nat := min (plan s.calls s.rest).1 (min w s.rest.length)

def ended (w : Nat) : Bool := decide (s.count plan w = s.rest.length) && (plan s.calls s.rest).2

def next (w : Nat) : Source α := ⟨s.rest.drop (s.count plan w), s.calls + 1⟩

def fill (buf : List α) : List α := s.rest.take (s.count plan buf.length) ++ buf.drop (s.count plan buf.length)

@[simp] theorem length_fill (buf : List α) : (s.fill plan buf).length = buf.length := by
  have hle : s.count plan buf.length ≤ min buf.length s.rest.length := Nat.min_le_right _ _
  rw [fill, List.length_append, List.length_take, List.length_drop]
  omega

/-- After so many reads of `w` symbols. -/
def after (w : Nat) : Nat → Source α
  | 0 => s
  | k + 1 => (after w k).next plan w

end Source

/-- The buffer after so many reads into it. -/
def buffer (plan : Plan α) (s : Source α) (buf : List α) : Nat → List α
  | 0 => buf
  | k + 1 => (s.after plan buf.length k).fill plan (buffer plan s buf k)

@[simp] theorem length_buffer (plan : Plan α) (s : Source α) (buf : List α) (k : Nat) :
    (buffer plan s buf k).length = buf.length := by
  induction k with
  | zero => rfl
  | succ k ih => rw [buffer, Source.length_fill, ih]

/-! ## Blocks -/

/-- The `i`-th block of `w` symbols. -/
def block (w : Nat) (xs : List α) (i : Nat) : List α := (xs.drop (w * i)).take w

/-- What a buffer that holds the blocks in turn holds before the `i`-th. -/
def before (buf xs : List α) : Nat → List α
  | 0 => buf
  | i + 1 => block buf.length xs i

theorem length_block {w : Nat} {xs : List α} {i : Nat} (h : w * (i + 1) ≤ xs.length) : (block w xs i).length = w := by
  rw [Nat.mul_succ] at h
  rw [block, List.length_take, List.length_drop]
  omega

theorem length_flatten {w : Nat} {xss : List (List α)} (h : ∀ xs ∈ xss, xs.length = w) : xss.flatten.length = w * xss.length := by
  induction xss with
  | nil => rfl
  | cons xs xss ih =>
    obtain ⟨hxs, hxss⟩ := List.forall_mem_cons.mp h
    rw [List.flatten_cons, List.length_append, hxs, ih hxss, List.length_cons, Nat.mul_succ, Nat.add_comm]

theorem block_flatten {w : Nat} : ∀ {xss : List (List α)}, (∀ xs ∈ xss, xs.length = w) → ∀ {i : Nat} (hi : i < xss.length),
    block w xss.flatten i = xss[i]
  | [], _, i, hi => absurd hi (Nat.not_lt_zero i)
  | xs :: xss, h, 0, _ => by
    obtain ⟨hxs, -⟩ := List.forall_mem_cons.mp h
    rw [block, Nat.mul_zero, List.drop_zero, List.flatten_cons, ← hxs, List.take_left]
    rfl
  | xs :: xss, h, i + 1, hi => by
    obtain ⟨hxs, hxss⟩ := List.forall_mem_cons.mp h
    have hdrop : (xs ++ xss.flatten).drop (w * (i + 1)) = xss.flatten.drop (w * i) := by
      rw [Nat.mul_succ, Nat.add_comm, ← List.drop_drop, ← hxs, List.drop_left]
    rw [block, List.flatten_cons, hdrop]
    exact block_flatten hxss (Nat.lt_of_succ_lt_succ hi)

theorem buffers_eq_iff (plan : Plan α) (buf xs : List α) (m : Nat) :
    (∀ i < m, buffer plan ⟨xs, 0⟩ buf (i + 1) = block buf.length xs i) ↔
      ∀ i < m, (Source.after plan ⟨xs, 0⟩ buf.length i).fill plan (before buf xs i) = block buf.length xs i := by
  -- up to the first read that does not, the buffer holds the block before
  have hbefore : ∀ i, (∀ j < i, buffer plan ⟨xs, 0⟩ buf (j + 1) = block buf.length xs j) →
      buffer plan ⟨xs, 0⟩ buf i = before buf xs i := by
    intro i h
    cases i with
    | zero => rfl
    | succ i => exact h i (Nat.lt_succ_self i)
  refine ⟨fun h i hi => ?_, fun h i => ?_⟩
  · rw [← hbefore i fun j hj => h j (Nat.lt_trans hj hi)]
    exact h i hi
  · induction i using Nat.strongRecOn with
    | ind i ih =>
      intro hi
      rw [buffer, hbefore i fun j hj => ih j hj (Nat.lt_trans hj hi)]
      exact h i hi

/-! ## A source that delivers all it can -/

/-- Everything that is asked for and there; the end when nothing is. -/
def whole : Plan α := fun _ rest => (rest.length, rest.isEmpty)

theorem count_whole (s : Source α) (w : Nat) : s.count whole w = min w s.rest.length :=
  Nat.min_eq_right (Nat.min_le_right _ _)

theorem rest_whole (xs : List α) (w k : Nat) : (Source.after whole ⟨xs, 0⟩ w k).rest = xs.drop (w * k) := by
  induction k with
  | zero => rw [Nat.mul_zero, List.drop_zero]; rfl
  | succ k ih =>
    rw [Source.after, Source.next, count_whole, ih, List.drop_drop, Nat.mul_succ]
    by_cases h : w ≤ (xs.drop (w * k)).length
    · rw [Nat.min_eq_left h]
    · rw [List.length_drop] at h ⊢
      rw [List.drop_eq_nil_of_le (by omega), List.drop_eq_nil_of_le (by omega)]

theorem ended_whole (xs : List α) (w k : Nat) : (Source.after whole ⟨xs, 0⟩ w k).ended whole w = true ↔ xs.length ≤ w * k := by
  have hempty : (Source.after whole ⟨xs, 0⟩ w k).ended whole w = true ↔ (Source.after whole ⟨xs, 0⟩ w k).rest = [] := by
    rw [Source.ended, Bool.and_eq_true, decide_eq_true_iff, count_whole]
    refine ⟨fun h => List.isEmpty_iff.mp h.2, fun h => ⟨?_, List.isEmpty_iff.mpr h⟩⟩
    rw [h]
    exact Nat.min_zero w
  rw [hempty, rest_whole, List.drop_eq_nil_iff]

theorem fill_whole (xs buf : List α) (k : Nat) : (Source.after whole ⟨xs, 0⟩ buf.length k).fill whole buf =
    block buf.length xs k ++ buf.drop (block buf.length xs k).length := by
  have htake : (xs.drop (buf.length * k)).take (min buf.length (xs.drop (buf.length * k)).length) = block buf.length xs k := by
    rw [block, List.take_eq_take_iff]
    omega
  have hlen : min buf.length (xs.drop (buf.length * k)).length = (block buf.length xs k).length := List.length_take.symm
  rw [Source.fill, count_whole, rest_whole, htake, hlen]

theorem buffer_whole (xs buf : List α) {i : Nat} (h : buf.length * (i + 1) ≤ xs.length) :
    buffer whole ⟨xs, 0⟩ buf (i + 1) = block buf.length xs i := by
  have hlen : (buffer whole ⟨xs, 0⟩ buf i).length = buf.length := length_buffer _ _ _ _
  have hfill := fill_whole xs (buffer whole ⟨xs, 0⟩ buf i) i
  rw [hlen, length_block h, List.drop_eq_nil_of_le (Nat.le_of_eq hlen), List.append_nil] at hfill
  exact hfill

end Refill

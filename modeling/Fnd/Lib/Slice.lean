/-
  Fnd.Lib.Slice — slices: a length over a backing array that operations on the slice write to.

  `append` and `delete` write in place, as far as the array reaches. `deleteEach` deletes the
  elements equal to `x` while a range over the slice is under way: the range keeps the length
  it started with and reads the array as the deletions leave it, so after one deletion it
  skips an element and, at its end, reads the last one twice. In a slice without duplicates
  it deletes what it should (`deleteEach_nodup`).
-/

/-- The array from the slice's start to its capacity. -/
structure Slice (α : Type) where
  array : List α
  len : Nat
  fits : len ≤ array.length

namespace Slice

variable {α : Type}

def toList (s : Slice α) : List α := s.array.take s.len

def nil : Slice α := ⟨[], 0, Nat.le_refl 0⟩

@[simp] theorem toList_nil : (nil : Slice α).toList = [] := rfl

/-- `append(s, x)`: in place where the array has room, else in a new one. -/
def append (s : Slice α) (x : α) : Slice α :=
  ⟨s.array.take s.len ++ x :: s.array.drop (s.len + 1), s.len + 1, by
    have := s.fits
    simp only [List.length_append, List.length_take, List.length_cons]
    omega⟩

/-- `append(s[:i], s[i+1:]...)`: the elements behind `i` move down; the array keeps its last one. -/
def delete (s : Slice α) (i : Nat) (h : i < s.len) : Slice α :=
  ⟨s.array.take i ++ (s.array.take s.len).drop (i + 1) ++ s.array.drop (s.len - 1), s.len - 1, by
    have := s.fits
    simp only [List.length_append, List.length_take, List.length_drop]
    omega⟩

/-- `for i, y := range s { if y == x { s = append(s[:i], s[i+1:]...) } }` from `i`, with `n` elements
    to go; `none` is the panic of a slice out of bounds. -/
def deleteEach [DecidableEq α] (x : α) : Nat → Nat → Slice α → Option (Slice α)
  | 0, _, s => some s
  | n + 1, i, s =>
    if s.array[i]? = some x then
      if h : i < s.len then deleteEach x n (i + 1) (s.delete i h) else none
    else deleteEach x n (i + 1) s

@[simp] theorem toList_append (s : Slice α) (x : α) : (s.append x).toList = s.toList ++ [x] := by
  have hlen : (s.array.take s.len).length = s.len := by
    rw [List.length_take]; exact Nat.min_eq_left s.fits
  show (s.array.take s.len ++ x :: s.array.drop (s.len + 1)).take (s.len + 1) = s.array.take s.len ++ [x]
  rw [List.take_append, hlen, List.take_of_length_le (by omega), Nat.add_sub_cancel_left, List.take_succ_cons,
    List.take_zero]

variable {s : Slice α}

/-- A slice seen as its elements around one of them, and the rest of the array. -/
theorem delete_eq {pre post spare : List α} {x : α} (ha : s.array = pre ++ x :: post ++ spare)
    (hl : s.len = (pre ++ x :: post).length) (h : pre.length < s.len) :
    (s.delete pre.length h).array = pre ++ post ++ [(x :: post).getLast (List.cons_ne_nil x post)] ++ spare ∧
    (s.delete pre.length h).toList = pre ++ post := by
  have htake : s.array.take s.len = pre ++ x :: post := by rw [ha, hl, List.take_left]
  have hdrop : s.array.drop (s.len - 1) = [(x :: post).getLast (List.cons_ne_nil x post)] ++ spare := by
    have hsplit : pre ++ x :: post = pre ++ (x :: post).dropLast ++ [(x :: post).getLast (List.cons_ne_nil x post)] := by
      rw [List.append_assoc, List.dropLast_concat_getLast]
    have hlen : s.len - 1 = (pre ++ (x :: post).dropLast).length := by
      rw [hl]; simp only [List.length_append, List.length_dropLast, List.length_cons]; omega
    rw [ha, hsplit, List.append_assoc, hlen, List.drop_left]
  have hpre : s.array.take pre.length = pre := by rw [ha, List.append_assoc, List.take_left]
  have hpost : (pre ++ x :: post).drop (pre.length + 1) = post := by
    rw [← List.drop_drop, List.drop_left]; rfl
  have harray : (s.delete pre.length h).array =
      pre ++ post ++ [(x :: post).getLast (List.cons_ne_nil x post)] ++ spare := by
    show s.array.take pre.length ++ (s.array.take s.len).drop (pre.length + 1) ++ s.array.drop (s.len - 1) = _
    rw [htake, hdrop, hpre, hpost, List.append_assoc (pre ++ post)]
  refine ⟨harray, ?_⟩
  have hlen : s.len - 1 = (pre ++ post).length := by
    rw [hl]; simp only [List.length_append, List.length_cons]; omega
  show (s.delete pre.length h).array.take (s.len - 1) = pre ++ post
  rw [harray, hlen, List.append_assoc, List.take_left]

/-- Behind the gap the range meets the later elements, the last of them twice. -/
theorem delete_behind {pre post spare : List α} {x : α} (ha : s.array = pre ++ x :: post ++ spare)
    (hl : s.len = (pre ++ x :: post).length) (h : pre.length < s.len) (hpost : x ∉ post) (j : Nat)
    (hj : pre.length + 1 ≤ j) (hj' : j < pre.length + 1 + post.length) : (s.delete pre.length h).array[j]? ≠ some x := by
  intro he
  rw [(delete_eq ha hl h).1, List.append_assoc, List.append_assoc, List.getElem?_append_right (by omega)] at he
  have hne : post ≠ [] := by
    intro hnil
    rw [hnil, List.length_nil] at hj'
    omega
  by_cases hin : j - pre.length < post.length
  · rw [List.getElem?_append_left hin] at he
    exact hpost (List.mem_of_getElem? he)
  · have hj0 : j - pre.length - post.length = 0 := by omega
    rw [List.getElem?_append_right (by omega), hj0, List.singleton_append, List.getElem?_cons_zero,
      List.getLast_cons hne, Option.some.injEq] at he
    exact hpost (he ▸ List.getLast_mem hne)

variable [DecidableEq α]

theorem deleteEach_skip (x : α) : ∀ (n i : Nat), (∀ j, i ≤ j → j < i + n → s.array[j]? ≠ some x) →
    deleteEach x n i s = some s := by
  intro n
  induction n with
  | zero => intro i _; rfl
  | succ n ih =>
    intro i h
    rw [deleteEach, if_neg (h i (Nat.le_refl i) (by omega))]
    exact ih (i + 1) fun j h1 h2 => h j (by omega) (by omega)

theorem deleteEach_add (x : α) : ∀ (n m i : Nat), (∀ j, i ≤ j → j < i + n → s.array[j]? ≠ some x) →
    deleteEach x (n + m) i s = deleteEach x m (i + n) s := by
  intro n
  induction n with
  | zero => intro m i _; rw [Nat.zero_add, Nat.add_zero]
  | succ n ih =>
    intro m i h
    rw [Nat.add_right_comm, deleteEach, if_neg (h i (Nat.le_refl i) (by omega)),
      ih m (i + 1) fun j h1 h2 => h j (by omega) (by omega)]
    congr 1
    omega

/-- Without duplicates the range deletes the one element, and does not meet it again. -/
theorem deleteEach_nodup (x : α) (hnodup : s.toList.Nodup) :
    ∃ s', deleteEach x s.len 0 s = some s' ∧ s'.toList = s.toList.erase x := by
  have harray : s.array = s.toList ++ s.array.drop s.len := (List.take_append_drop _ _).symm
  have hlen : s.len = s.toList.length := by
    rw [toList, List.length_take]; exact (Nat.min_eq_left s.fits).symm
  by_cases hx : x ∈ s.toList
  · obtain ⟨pre, post, hsplit⟩ := List.append_of_mem hx
    rw [hsplit] at hnodup harray hlen ⊢
    have hpre : x ∉ pre := fun h => (List.nodup_append.mp hnodup).2.2 x h x List.mem_cons_self rfl
    have hpost : x ∉ post := (List.nodup_cons.mp (List.nodup_append.mp hnodup).2.1).1
    have hn : s.len = pre.length + (post.length + 1) := by rw [hlen, List.length_append, List.length_cons]
    have hlt : pre.length < s.len := by omega
    have hbefore : ∀ j, 0 ≤ j → j < 0 + pre.length → s.array[j]? ≠ some x := by
      intro j _ hj he
      rw [harray, List.append_assoc, List.getElem?_append_left (by omega)] at he
      exact hpre (List.mem_of_getElem? he)
    have hat : s.array[0 + pre.length]? = some x := by
      rw [Nat.zero_add, harray, List.append_assoc, List.getElem?_append_right (Nat.le_refl _), Nat.sub_self]
      rfl
    refine ⟨s.delete pre.length hlt, ?_, ?_⟩
    · rw [hn, deleteEach_add x pre.length (post.length + 1) 0 hbefore, deleteEach, if_pos hat,
        dif_pos (by rw [Nat.zero_add]; exact hlt)]
      simp only [Nat.zero_add]
      exact deleteEach_skip x _ _ (delete_behind harray hlen hlt hpost)
    · rw [(delete_eq harray hlen hlt).2, List.erase_append_right _ hpre, List.erase_cons_head]
  · refine ⟨s, deleteEach_skip x _ _ fun j _ hj he => hx ?_, (List.erase_of_not_mem hx).symm⟩
    rw [harray, List.getElem?_append_left (by omega)] at he
    exact List.mem_of_getElem? he

end Slice

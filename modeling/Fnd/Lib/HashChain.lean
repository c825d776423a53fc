/-
  Fnd.Lib.HashChain — serial hash chains over an arbitrary link function.

  A link function `f` takes an item and the hash before it. `chain f h xs` is the hash
  after the items `xs` from `h`. When `f` is collision-free, a chain of known length
  commits to its start and to every item (`chain_inj`); from a start that is no link itself,
  it commits to its length as well (`chain_inj_start`).
-/

namespace HashChain

variable {S H : Type} (f : S → H → H)

def chain (h : H) (xs : List S) : H := xs.foldl (fun h x => f x h) h

@[simp] theorem chain_nil (h : H) : chain f h [] = h := rfl

@[simp] theorem chain_cons (h : H) (x : S) (xs : List S) : chain f h (x :: xs) = chain f (f x h) xs := rfl

theorem chain_append (h : H) (xs ys : List S) : chain f h (xs ++ ys) = chain f (chain f h xs) ys :=
  List.foldl_append

theorem chain_concat (h : H) (xs : List S) (x : S) : chain f h (xs ++ [x]) = f x (chain f h xs) := by
  rw [chain_append]; rfl

/-- No two inputs of a link collide. -/
def CollisionFree : Prop := ∀ x y h k, f x h = f y k → x = y ∧ h = k

variable {f}

/-- Chains of one length with one end have one start and the same items. -/
theorem chain_inj (hf : CollisionFree f) :
    ∀ (xs ys : List S) {h k : H}, xs.length = ys.length → chain f h xs = chain f k ys → h = k ∧ xs = ys := by
  intro xs
  induction xs with
  | nil =>
    intro ys h k hl he
    have : ys = [] := List.eq_nil_of_length_eq_zero hl.symm
    subst this; exact ⟨he, rfl⟩
  | cons x xs ih =>
    intro ys h k hl he
    cases ys with
    | nil => simp at hl
    | cons y ys =>
      obtain ⟨hh, rfl⟩ := ih ys (by simpa using hl) he
      obtain ⟨rfl, rfl⟩ := hf _ _ _ _ hh
      exact ⟨rfl, rfl⟩

/-- From a start that no link is, chains with one end have the same items. -/
theorem chain_inj_start (hf : CollisionFree f) {h : H} (hh : ∀ x k, f x k ≠ h) :
    ∀ (n : Nat) (xs ys : List S), xs.length = n → chain f h xs = chain f h ys → xs = ys := by
  intro n
  induction n with
  | zero =>
    intro xs ys hn he
    obtain rfl := List.eq_nil_of_length_eq_zero hn
    rcases List.eq_nil_or_concat ys with rfl | ⟨ys, y, rfl⟩
    · rfl
    · rw [List.concat_eq_append, chain_concat] at he
      exact absurd he.symm (hh y _)
  | succ n ih =>
    intro xs ys hn he
    rcases List.eq_nil_or_concat xs with rfl | ⟨xs, x, rfl⟩
    · cases hn
    rw [List.concat_eq_append, chain_concat] at he
    rcases List.eq_nil_or_concat ys with rfl | ⟨ys, y, rfl⟩
    · exact absurd he (hh x _)
    rw [List.concat_eq_append, chain_concat] at he
    obtain ⟨rfl, hxs⟩ := hf _ _ _ _ he
    have hlen : xs.length = n := by simpa using hn
    rw [ih xs ys hlen hxs]

end HashChain

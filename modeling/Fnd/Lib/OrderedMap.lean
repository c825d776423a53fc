/-
  Fnd.Lib.OrderedMap — finite maps that are iterated in key order, and key spaces made of
  tagged rows.

  A map is its entries, strictly increasing in the key; the proof comes with them. `get_put`,
  `get_delete` and `get_deleteAll` say what each operation does to a read. `iterator` lists the
  entries whose keys meet a condition: it is increasing (`iterator_sorted`) and has exactly the
  bindings that meet it (`mem_iterator`).

  A key that is a tag followed by a row determines both when no tag starts with another
  (`append_inj_of_free`). Rows of one tag are ordered as their keys are (`append_lt_append_iff`),
  and keys between two of one tag have the tag (`eq_append_of_between`).
-/

namespace OrderedMap

/-! ## Tagged rows -/

section Rows

variable {α τ : Type} {tag : τ → List α}

/-- No tag starts with another. -/
def Free (tag : τ → List α) : Prop := ∀ t t' rest, tag t' = tag t ++ rest → t = t'

theorem append_inj_of_free (hfree : Free tag) {t t' : τ} {row row' : List α} (h : tag t ++ row = tag t' ++ row') :
    t = t' ∧ row = row' := by
  have ht : t = t' := by
    rcases List.append_eq_append_iff.mp h with ⟨rest, he, -⟩ | ⟨rest, he, -⟩
    · exact hfree t t' rest he
    · exact (hfree t' t rest he).symm
  subst ht
  exact ⟨rfl, List.append_cancel_left h⟩

/-- Where no tag is a start of `p`, a row has no part in what `p` is a start of. -/
theorem append_eq_append_row_iff {p : List α} (hp : ∀ t rest, p ≠ tag t ++ rest) (t : τ) (row : List α) :
    (∃ rest, tag t ++ row = p ++ rest) ↔ ∃ rest, tag t = p ++ rest := by
  constructor
  · rintro ⟨rest, h⟩
    rcases List.append_eq_append_iff.mp h with ⟨rest', he, -⟩ | ⟨rest', he, -⟩
    · exact absurd he (hp t rest')
    · exact ⟨rest', he⟩
  · rintro ⟨rest, h⟩
    exact ⟨rest ++ row, by rw [h, List.append_assoc]⟩

variable [LT α]

theorem append_lt_append_iff [Std.Irrefl fun a b : α => a < b] (t : List α) {row row' : List α} :
    t ++ row < t ++ row' ↔ row < row' := by
  induction t with
  | nil => exact Iff.rfl
  | cons a t ih =>
    rw [List.cons_append, List.cons_append, List.cons_lt_cons_iff, ih]
    exact ⟨fun h => h.elim (fun h => absurd h Std.lt_irrefl) And.right, fun h => .inr ⟨rfl, h⟩⟩

theorem eq_append_of_between (t : List α) {row row' : List α} :
    ∀ {k : List α}, ¬ k < t ++ row → k < t ++ row' → ∃ r, k = t ++ r := by
  induction t with
  | nil => intro k _ _; exact ⟨k, rfl⟩
  | cons a t ih =>
    intro k hlow hhigh
    cases k with
    | nil => exact absurd (List.nil_lt_cons a _) hlow
    | cons b k =>
      rw [List.cons_append, List.cons_lt_cons_iff, not_or] at hlow
      rw [List.cons_append, List.cons_lt_cons_iff] at hhigh
      obtain ⟨hba, hlow⟩ := hlow
      obtain ⟨hab, hbelow⟩ := hhigh.resolve_left hba
      obtain ⟨r, rfl⟩ := ih (fun h => hlow ⟨hab, h⟩) hbelow
      exact ⟨r, by rw [hab, List.cons_append]⟩

end Rows

end OrderedMap

/-! ## Maps -/

structure OrderedMap (κ ν : Type) [LT κ] where
  entries : List (κ × ν)
  sorted : entries.Pairwise (·.1 < ·.1)

namespace OrderedMap

variable {κ ν : Type} [LT κ]

def empty : OrderedMap κ ν := ⟨[], .nil⟩

section Put

variable [DecidableEq κ] [DecidableLT κ]

def insert (k : κ) (v : ν) : List (κ × ν) → List (κ × ν)
  | [] => [(k, v)]
  | e :: es => if k < e.1 then (k, v) :: e :: es else if k = e.1 then (k, v) :: es else e :: insert k v es

theorem mem_insert {k : κ} {v : ν} : ∀ {es : List (κ × ν)} {f : κ × ν}, f ∈ insert k v es → f = (k, v) ∨ f ∈ es := by
  intro es
  induction es with
  | nil => intro f hf; exact .inl (List.mem_singleton.mp hf)
  | cons e es ih =>
    intro f hf
    rw [insert] at hf
    split at hf
    · exact List.mem_cons.mp hf
    split at hf
    · exact (List.mem_cons.mp hf).imp_right (List.mem_cons_of_mem _)
    · rcases List.mem_cons.mp hf with rfl | hf
      · exact .inr List.mem_cons_self
      · exact (ih hf).imp_right (List.mem_cons_of_mem _)

variable [LE κ] [Std.LawfulOrderLT κ] [Std.IsLinearOrder κ]

theorem insert_sorted (k : κ) (v : ν) {es : List (κ × ν)} (h : es.Pairwise (·.1 < ·.1)) :
    (insert k v es).Pairwise (·.1 < ·.1) := by
  induction es with
  | nil => exact List.pairwise_singleton _ _
  | cons e es ih =>
    obtain ⟨he, hes⟩ := List.pairwise_cons.mp h
    rw [insert]
    split
    · rename_i hlt
      refine List.pairwise_cons.mpr ⟨fun f hf => ?_, h⟩
      rcases List.mem_cons.mp hf with rfl | hf
      · exact hlt
      · exact Std.lt_trans hlt (he f hf)
    split
    · rename_i heq
      exact List.pairwise_cons.mpr ⟨fun f hf => heq ▸ he f hf, hes⟩
    · rename_i hlt heq
      refine List.pairwise_cons.mpr ⟨fun f hf => ?_, ih hes⟩
      rcases mem_insert hf with rfl | hf
      · rcases Std.lt_trichotomy k e.1 with hk | hk | hk
        · exact absurd hk hlt
        · exact absurd hk heq
        · exact hk
      · exact he f hf

def put (m : OrderedMap κ ν) (k : κ) (v : ν) : OrderedMap κ ν := ⟨insert k v m.entries, insert_sorted k v m.sorted⟩

end Put

variable [DecidableEq κ]

def get (m : OrderedMap κ ν) (k : κ) : Option ν := m.entries.lookup k

def has (m : OrderedMap κ ν) (k : κ) : Bool := (m.get k).isSome

def delete (m : OrderedMap κ ν) (k : κ) : OrderedMap κ ν := ⟨m.entries.filter (·.1 ≠ k), m.sorted.filter _⟩

/-- Deletes the keys of a list of entries, one by one. -/
def deleteAll (m : OrderedMap κ ν) (es : List (κ × ν)) : OrderedMap κ ν := es.foldl (fun m e => m.delete e.1) m

omit [DecidableEq κ] in
/-- The entries whose keys meet `p`. -/
def iterator (m : OrderedMap κ ν) (p : κ → Bool) : List (κ × ν) := m.entries.filter fun e => p e.1

/-! ## Reads -/

@[simp] theorem get_empty (k : κ) : (empty : OrderedMap κ ν).get k = none := rfl

omit [LT κ] in
theorem lookup_cons_eq (e : κ × ν) (es : List (κ × ν)) (k : κ) :
    (e :: es).lookup k = if k = e.1 then some e.2 else es.lookup k := by
  rw [List.lookup_cons]
  by_cases h : k = e.1
  · simp [h]
  · rw [beq_eq_false_iff_ne.mpr h, if_neg h]

theorem lookup_insert [DecidableLT κ] (k : κ) (v : ν) (es : List (κ × ν)) (k' : κ) :
    (insert k v es).lookup k' = if k' = k then some v else es.lookup k' := by
  induction es with
  | nil => exact lookup_cons_eq (k, v) [] k'
  | cons e es ih =>
    rw [insert]
    split
    · exact lookup_cons_eq (k, v) (e :: es) k'
    rw [lookup_cons_eq e es]
    split
    · rename_i heq
      rw [lookup_cons_eq (k, v) es, ← heq]
      split <;> rfl
    · rename_i heq
      rw [lookup_cons_eq e, ih]
      by_cases h : k' = k
      · subst h
        rw [if_neg heq, if_pos rfl, if_pos rfl]
      · rw [if_neg h, if_neg h]

theorem get_put [DecidableLT κ] [LE κ] [Std.LawfulOrderLT κ] [Std.IsLinearOrder κ]
    (m : OrderedMap κ ν) (k : κ) (v : ν) (k' : κ) : (m.put k v).get k' = if k' = k then some v else m.get k' :=
  lookup_insert k v m.entries k'

omit [LT κ] in
theorem lookup_filter (p : κ → Bool) (es : List (κ × ν)) (k : κ) :
    (es.filter fun e => p e.1).lookup k = if p k then es.lookup k else none := by
  induction es with
  | nil => split <;> rfl
  | cons e es ih =>
    rw [List.filter_cons, lookup_cons_eq e es]
    split
    · rename_i he
      rw [lookup_cons_eq, ih]
      by_cases h : k = e.1
      · rw [if_pos h, if_pos h, h, if_pos he]
      · rw [if_neg h, if_neg h]
    · rename_i he
      rw [ih]
      by_cases h : k = e.1
      · rw [h, if_neg he, if_neg he]
      · rw [if_neg h]

theorem get_delete (m : OrderedMap κ ν) (k k' : κ) : (m.delete k).get k' = if k' = k then none else m.get k' := by
  show (m.entries.filter fun e => decide (e.1 ≠ k)).lookup k' = _
  rw [lookup_filter (fun x => decide (x ≠ k))]
  by_cases h : k' = k <;> simp [h, get]

theorem get_deleteAll (es : List (κ × ν)) : ∀ (m : OrderedMap κ ν) (k : κ),
    (m.deleteAll es).get k = if k ∈ es.map (·.1) then none else m.get k := by
  induction es with
  | nil => intro m k; rw [if_neg (by simp)]; rfl
  | cons e es ih =>
    intro m k
    show ((m.delete e.1).deleteAll es).get k = _
    rw [ih, get_delete, List.map_cons]
    by_cases h : k = e.1
    · simp [h]
    · by_cases hes : k ∈ es.map (·.1)
      · rw [if_pos hes, if_pos (List.mem_cons_of_mem _ hes)]
      · rw [if_neg hes, if_neg h, if_neg (fun hk => (List.mem_cons.mp hk).elim h hes)]

/-! ## Iteration -/

omit [DecidableEq κ] in
theorem iterator_sorted (m : OrderedMap κ ν) (p : κ → Bool) : (m.iterator p).Pairwise (·.1 < ·.1) := m.sorted.filter _

variable [Std.Irrefl fun a b : κ => a < b]

theorem mem_entries (m : OrderedMap κ ν) (k : κ) (v : ν) : (k, v) ∈ m.entries ↔ m.get k = some v := by
  obtain ⟨es, sorted⟩ := m
  show (k, v) ∈ es ↔ es.lookup k = some v
  induction es with
  | nil => simp
  | cons e es ih =>
    obtain ⟨he, hes⟩ := List.pairwise_cons.mp sorted
    rw [List.mem_cons, ih hes, lookup_cons_eq]
    by_cases h : k = e.1
    · subst h
      have hnot : ¬ es.lookup e.1 = some v := fun hl => Std.lt_irrefl (he (e.1, v) ((ih hes).mpr hl))
      rw [or_iff_left hnot, if_pos rfl, Option.some.injEq]
      exact ⟨fun heq => (congrArg Prod.snd heq).symm, fun heq => Prod.ext rfl heq.symm⟩
    · rw [if_neg h, or_iff_right fun heq => h (congrArg Prod.fst heq)]

theorem mem_iterator (m : OrderedMap κ ν) (p : κ → Bool) (k : κ) (v : ν) :
    (k, v) ∈ m.iterator p ↔ m.get k = some v ∧ p k = true := by
  rw [iterator, List.mem_filter, mem_entries]

theorem get_deleteAll_iterator (m : OrderedMap κ ν) (p : κ → Bool) (k : κ) :
    (m.deleteAll (m.iterator p)).get k = if p k then none else m.get k := by
  rw [get_deleteAll]
  cases hget : m.get k with
  | none => rw [ite_self, ite_self]
  | some v =>
    have hmem : k ∈ (m.iterator p).map (·.1) ↔ p k = true := by
      rw [List.mem_map]
      constructor
      · rintro ⟨⟨k', v'⟩, he, rfl⟩
        exact ((mem_iterator m p k' v').mp he).2
      · intro hp
        exact ⟨(k, v), (mem_iterator m p k v).mpr ⟨hget, hp⟩, rfl⟩
    by_cases hp : p k = true
    · rw [if_pos (hmem.mpr hp), if_pos hp]
    · rw [if_neg fun h => hp (hmem.mp h), if_neg hp]

end OrderedMap

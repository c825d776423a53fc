/-
  Fnd.Blob.Pool — the reference-counted pool of open blobs (`blob/pool.go`) and its holders
  (`storeImpl.Open`, `wrappedBlob.Close` of `blob/store.go`).

  `Get` opens a blob for the first holder of a name and shares it with the next ones; `Put`
  closes it with the last. An entry is found by the blob's name, not by the object. `held` is
  what the holders have: one blob for every `Get` that was not put back.

  As long as only holders put back (`Matched`), the entry of a name is the object that all
  its holders have, `refs` is their number, and every object is closed once, by its last
  holder (`pool_counts`).
-/

import Mathlib.Logic.Function.Basic
import Fnd.Lib.Machine
import Fnd.Basic

namespace Fnd.Blob

/-- An open blob: which object it is, and the name it was opened for. -/
structure Handle where
  id : Nat
  name : Name
  deriving DecidableEq, Repr

structure PoolEntry where
  blob : Handle
  refs : Int
  deriving DecidableEq, Repr

abbrev Pool := Name → Option PoolEntry

namespace Pool

def new : Pool := fun _ => none

/-- `Pool.Get`; `getter` is what the opener would return, `none` an error. -/
def get (p : Pool) (name : Name) (getter : Option Handle) : Option Handle × Pool :=
  match p name with
  | some entry => (some entry.blob, Function.update p name (some { entry with refs := entry.refs + 1 }))
  | none =>
    match getter with
    | none => (none, p)
    | some blob => (some blob, Function.update p name (some ⟨blob, 1⟩))

/-- `Pool.Put`: the blob it closed, if any; `none` is the panic. -/
def put (p : Pool) (blob : Handle) : Option (Option Handle × Pool) :=
  match p blob.name with
  | none => none
  | some entry =>
    let entry := { entry with refs := entry.refs - 1 }
    if entry.refs > 0 then some (none, Function.update p blob.name (some entry))
    else some (some entry.blob, Function.update p blob.name none)

end Pool

/-! ## The pool and its holders -/

/-- The pool, the number of blobs opened, those closed (in order), those held. -/
structure Pooled where
  pool : Pool
  opened : Nat
  closed : List Handle
  held : List Handle

namespace Pooled

def new : Pooled := ⟨Pool.new, 0, [], []⟩

inductive Event where
  /-- `Open`, and whether the opener succeeds if it is called -/
  | get (name : Name) (opens : Bool)
  /-- `Close` by a holder -/
  | put (blob : Handle)
  deriving DecidableEq

/-- What the opener returns: a new object, or an error. -/
def opener (s : Pooled) (name : Name) (opens : Bool) : Option Handle := if opens then some ⟨s.opened, name⟩ else none

def step (s : Pooled) : Event → Pooled
  | .get name opens =>
    let (blob, pool) := s.pool.get name (s.opener name opens)
    { s with
      pool := pool
      opened := if (s.pool name).isNone && opens then s.opened + 1 else s.opened
      held := blob.toList ++ s.held }
  | .put blob =>
    match s.pool.put blob with
    | none => s
    | some (closed, pool) => { s with pool := pool, closed := s.closed ++ closed.toList, held := s.held.erase blob }

/-- Only holders put back, each once. -/
def Matched (s : Pooled) : Event → Prop
  | .get _ _ => True
  | .put blob => blob ∈ s.held

instance (s : Pooled) : (e : Event) → Decidable (Matched s e)
  | .get _ _ => .isTrue trivial
  | .put blob => inferInstanceAs (Decidable (blob ∈ s.held))

def holders (s : Pooled) (name : Name) : Nat := s.held.countP (·.name = name)

structure Consistent (s : Pooled) : Prop where
  /-- all holders of a name have the same object -/
  shared : ∀ b ∈ s.held, ∀ b' ∈ s.held, b.name = b'.name → b = b'
  /-- a pooled name is held, and `refs` is how often -/
  refs : ∀ name entry, s.pool name = some entry → entry.refs = s.holders name ∧ 1 ≤ entry.refs
  /-- what is held is pooled -/
  pooled : ∀ b ∈ s.held, ∃ entry, s.pool b.name = some entry ∧ entry.blob = b
  /-- no blob is closed under a holder, or twice -/
  unclosed : ∀ b ∈ s.held, b ∉ s.closed
  once : s.closed.Nodup

/-- What a call does: a `Get` fails, only with its opener, and leaves everything, or gives an
    open blob to one more holder, a new one when the name was not pooled; a `Put` finds its
    entry, and closes the blob exactly when no other holder is left. -/
def Lawful (s : Pooled) : Event → Prop
  | .get name opens =>
    match (s.pool.get name (s.opener name opens)).1 with
    | none => s.pool name = none ∧ opens = false ∧ s.step (.get name opens) = s
    | some b =>
      (s.step (.get name opens)).held = b :: s.held ∧ b.name = name ∧ b ∉ (s.step (.get name opens)).closed ∧
        (s.pool name = none → b.id = s.opened ∧ ∀ b' ∈ s.held ++ s.closed, b' ≠ b)
  | .put b =>
    (s.pool.put b).isSome ∧ (s.step (.put b)).held = s.held.erase b ∧
      (s.step (.put b)).closed = if s.held.count b = 1 then s.closed ++ [b] else s.closed

/-! ## Every call keeps the books -/

/-- The entry of a name is what its holders have, and objects are numbered as they come. -/
structure Inv (s : Pooled) : Prop where
  entry : ∀ name entry, s.pool name = some entry →
    entry.blob.name = name ∧ entry.refs = s.held.count entry.blob ∧ entry.blob ∈ s.held
  pooled : ∀ b ∈ s.held, ∃ entry, s.pool b.name = some entry ∧ entry.blob = b
  numbered : ∀ b ∈ s.held ++ s.closed, b.id < s.opened
  unclosed : ∀ b ∈ s.held, b ∉ s.closed
  once : s.closed.Nodup

theorem inv_new : Inv new :=
  ⟨nofun, nofun, nofun, nofun, List.nodup_nil⟩

variable {s : Pooled}

theorem Inv.shared (hi : Inv s) : ∀ b ∈ s.held, ∀ b' ∈ s.held, b.name = b'.name → b = b' := by
  intro b hb b' hb' hname
  obtain ⟨e, he, rfl⟩ := hi.pooled b hb
  obtain ⟨e', he', rfl⟩ := hi.pooled b' hb'
  rw [hname, he'] at he
  cases he
  rfl

/-- Where all holders of a name have one object, counting it counts them. -/
theorem Inv.holders (hi : Inv s) {b : Handle} (hb : b ∈ s.held) : s.holders b.name = s.held.count b := by
  rw [Pooled.holders, List.count, List.countP_congr]
  intro b' hb'
  simp only [decide_eq_true_eq, beq_iff_eq]
  exact ⟨fun h => hi.shared b' hb' b hb h, fun h => congrArg Handle.name h⟩

theorem Inv.consistent (hi : Inv s) : Consistent s := by
  refine ⟨hi.shared, ?_, hi.pooled, hi.unclosed, hi.once⟩
  intro name entry he
  obtain ⟨hname, hrefs, hmem⟩ := hi.entry name entry he
  have hpos : 0 < s.held.count entry.blob := List.count_pos_iff.mpr hmem
  rw [← hname, hi.holders hmem]
  exact ⟨hrefs, by omega⟩

/-- With nothing closed and no new object, the numbers stay below `opened`. -/
theorem Inv.numbered_of (hi : Inv s) {held : List Handle} (hsub : ∀ b ∈ held, b ∈ s.held) :
    ∀ b ∈ held ++ s.closed, b.id < s.opened := by
  intro b hb
  rcases List.mem_append.mp hb with hb | hb
  · exact hi.numbered b (List.mem_append_left _ (hsub b hb))
  · exact hi.numbered b (List.mem_append_right _ hb)

theorem inv_of_name (hi : Inv s) {s' : Pooled} (name : Name) (hpool : ∀ n, n ≠ name → s'.pool n = s.pool n)
    (hheld : ∀ b : Handle, b.name ≠ name → s'.held.count b = s.held.count b)
    (hentry : ∀ e, s'.pool name = some e → e.blob.name = name ∧ e.refs = s'.held.count e.blob ∧ e.blob ∈ s'.held)
    (hpooled : ∀ b ∈ s'.held, b.name = name → ∃ e, s'.pool name = some e ∧ e.blob = b)
    (hnumbered : ∀ b ∈ s'.held ++ s'.closed, b.id < s'.opened) (hunclosed : ∀ b ∈ s'.held, b ∉ s'.closed)
    (honce : s'.closed.Nodup) : Inv s' := by
  have hmem : ∀ b : Handle, b.name ≠ name → (b ∈ s'.held ↔ b ∈ s.held) := by
    intro b hb
    rw [← List.count_pos_iff, ← List.count_pos_iff, hheld b hb]
  refine ⟨?_, ?_, hnumbered, hunclosed, honce⟩
  · intro n e hn
    by_cases hne : n = name
    · subst hne; exact hentry e hn
    · rw [hpool n hne] at hn
      obtain ⟨h1, h2, h3⟩ := hi.entry n e hn
      have hb : e.blob.name ≠ name := h1 ▸ hne
      exact ⟨h1, by rw [hheld _ hb, h2], (hmem _ hb).mpr h3⟩
  · intro b hb
    by_cases hne : b.name = name
    · rw [hne]; exact hpooled b hb hne
    · rw [hpool _ hne]; exact hi.pooled b ((hmem b hne).mp hb)

theorem get_pooled (hi : Inv s) {name : Name} {entry : PoolEntry} (he : s.pool name = some entry) (opens : Bool) :
    Inv (s.step (.get name opens)) ∧ Lawful s (.get name opens) := by
  obtain ⟨hname, hrefs, hmem⟩ := hi.entry name entry he
  have hstep : s.step (.get name opens) =
      { s with pool := Function.update s.pool name (some { entry with refs := entry.refs + 1 })
               held := entry.blob :: s.held } := by
    simp [step, Pool.get, he]
  have hmem' : ∀ b, b ∈ entry.blob :: s.held → b ∈ s.held := by
    intro b hb
    rcases List.mem_cons.mp hb with rfl | hb
    · exact hmem
    · exact hb
  constructor
  · rw [hstep]
    refine inv_of_name hi name (fun n hn => Function.update_of_ne hn _ _) ?_ ?_ ?_ (hi.numbered_of hmem')
      (fun b hb => hi.unclosed b (hmem' b hb)) hi.once
    · intro b hb
      exact List.count_cons_of_ne fun h : entry.blob = b => hb (h ▸ hname)
    · intro e hn
      simp only [Function.update_self, Option.some.injEq] at hn
      subst hn
      refine ⟨hname, ?_, List.mem_cons_self⟩
      simp only [List.count_cons_self, hrefs]
      omega
    · intro b hb hn
      have hsame := hi.shared _ hmem b (hmem' b hb) (hname.trans hn.symm)
      exact ⟨_, Function.update_self .., hsame⟩
  · simp only [Lawful, Pool.get, he, hstep]
    exact ⟨trivial, hname, hi.unclosed _ hmem, nofun⟩

theorem get_opened (hi : Inv s) {name : Name} (he : s.pool name = none) :
    Inv (s.step (.get name true)) ∧ Lawful s (.get name true) := by
  have hstep : s.step (.get name true) =
      ⟨Function.update s.pool name (some ⟨⟨s.opened, name⟩, 1⟩), s.opened + 1, s.closed, ⟨s.opened, name⟩ :: s.held⟩ := by
    simp [step, Pool.get, opener, he]
  have hnew : ∀ b ∈ s.held ++ s.closed, b ≠ ⟨s.opened, name⟩ := by
    intro b hb h
    have := hi.numbered b hb
    rw [h] at this
    exact absurd this (Nat.lt_irrefl _)
  have hheld : ⟨s.opened, name⟩ ∉ s.held := fun h => hnew _ (List.mem_append_left _ h) rfl
  have hclosed : ⟨s.opened, name⟩ ∉ s.closed := fun h => hnew _ (List.mem_append_right _ h) rfl
  constructor
  · rw [hstep]
    refine inv_of_name hi name (fun n hn => Function.update_of_ne hn _ _) ?_ ?_ ?_ ?_ ?_ hi.once
    · intro b hb
      exact List.count_cons_of_ne fun h : ⟨s.opened, name⟩ = b => hb (h ▸ rfl)
    · intro e hn
      simp only [Function.update_self, Option.some.injEq] at hn
      subst hn
      refine ⟨rfl, ?_, List.mem_cons_self⟩
      simp only [List.count_cons_self, List.count_eq_zero_of_not_mem hheld]
      rfl
    · intro b hb hn
      rcases List.mem_cons.mp hb with rfl | hb
      · exact ⟨_, Function.update_self .., rfl⟩
      · obtain ⟨e, hp, -⟩ := hi.pooled b hb
        rw [hn, he] at hp
        cases hp
    · intro b hb
      rcases List.mem_cons.mp hb with rfl | hb
      · exact Nat.lt_succ_self _
      · exact Nat.lt_succ_of_lt (hi.numbered b hb)
    · intro b hb
      rcases List.mem_cons.mp hb with rfl | hb
      · exact hclosed
      · exact hi.unclosed b hb
  · simp only [Lawful, Pool.get, he, opener, if_true, hstep]
    exact ⟨trivial, trivial, hclosed, fun _ => ⟨trivial, hnew⟩⟩

theorem get_failed {name : Name} (he : s.pool name = none) :
    s.step (.get name false) = s ∧ Lawful s (.get name false) := by
  have hstep : s.step (.get name false) = s := by
    simp [step, Pool.get, opener, he]
  refine ⟨hstep, ?_⟩
  simp only [Lawful, Pool.get, he, opener, Bool.false_eq_true, if_false]
  exact ⟨trivial, trivial, hstep⟩

theorem put_last (hi : Inv s) {b : Handle} (hlast : s.held.count b = 1) :
    Inv (s.step (.put b)) ∧ Lawful s (.put b) := by
  have hb : b ∈ s.held := List.count_pos_iff.mp (by omega)
  obtain ⟨entry, he, rfl⟩ := hi.pooled b hb
  obtain ⟨-, hrefs, -⟩ := hi.entry _ entry he
  have hstep : s.step (.put entry.blob) =
      ⟨Function.update s.pool entry.blob.name none, s.opened, s.closed ++ [entry.blob], s.held.erase entry.blob⟩ := by
    simp [step, Pool.put, he, hrefs, hlast]
  have hsub : ∀ b, b ∈ s.held.erase entry.blob → b ∈ s.held := fun b h => List.mem_of_mem_erase h
  have hgone : entry.blob ∉ s.held.erase entry.blob := by
    rw [← List.count_eq_zero, List.count_erase_self, hlast]
  constructor
  · rw [hstep]
    refine inv_of_name hi entry.blob.name (fun n hn => Function.update_of_ne hn _ _) ?_ ?_ ?_ ?_ ?_ ?_
    · intro b hne
      exact List.count_erase_of_ne fun h : b = entry.blob => hne (congrArg Handle.name h)
    · intro e hn
      simp at hn
    · intro b hmem hn
      have hsame := hi.shared b (hsub b hmem) _ hb hn
      exact absurd (hsame ▸ hmem) hgone
    · intro b hmem
      rw [← List.append_assoc, List.mem_append, List.mem_singleton] at hmem
      rcases hmem with h | rfl
      · exact hi.numbered_of hsub b h
      · exact hi.numbered _ (List.mem_append_left _ hb)
    · intro b hmem h
      simp only [List.mem_append, List.mem_singleton] at h
      rcases h with h | rfl
      · exact hi.unclosed b (hsub b hmem) h
      · exact hgone hmem
    · refine List.nodup_append.mpr ⟨hi.once, List.pairwise_singleton _ _, ?_⟩
      intro b h b' h' e
      rw [List.mem_singleton] at h'
      exact hi.unclosed _ hb (h' ▸ e ▸ h)
  · refine ⟨?_, by rw [hstep], by rw [hstep, if_pos hlast]⟩
    simp [Pool.put, he, hrefs, hlast]

theorem put_shared (hi : Inv s) {b : Handle} (hb : b ∈ s.held) (hmore : s.held.count b ≠ 1) :
    Inv (s.step (.put b)) ∧ Lawful s (.put b) := by
  obtain ⟨entry, he, rfl⟩ := hi.pooled b hb
  obtain ⟨-, hrefs, -⟩ := hi.entry _ entry he
  have hpos : 0 < s.held.count entry.blob := List.count_pos_iff.mpr hb
  have hgt : entry.refs - 1 > 0 := by omega
  have hstep : s.step (.put entry.blob) =
      { s with pool := Function.update s.pool entry.blob.name (some { entry with refs := entry.refs - 1 })
               held := s.held.erase entry.blob } := by
    simp only [step, Pool.put, he, hgt, if_true, Option.toList_none, List.append_nil]
  have hsub : ∀ b, b ∈ s.held.erase entry.blob → b ∈ s.held := fun b h => List.mem_of_mem_erase h
  have hcount : (s.held.erase entry.blob).count entry.blob = s.held.count entry.blob - 1 := List.count_erase_self
  constructor
  · rw [hstep]
    refine inv_of_name hi entry.blob.name (fun n hn => Function.update_of_ne hn _ _) ?_ ?_ ?_ (hi.numbered_of hsub)
      (fun b h => hi.unclosed b (hsub b h)) hi.once
    · intro b hne
      exact List.count_erase_of_ne fun h : b = entry.blob => hne (congrArg Handle.name h)
    · intro e hn
      simp only [Function.update_self, Option.some.injEq] at hn
      subst hn
      refine ⟨rfl, ?_, ?_⟩
      · simp only [hcount, hrefs]; omega
      · rw [← List.count_pos_iff, hcount]; omega
    · intro b hmem hn
      exact ⟨_, Function.update_self .., (hi.shared b (hsub b hmem) _ hb hn).symm⟩
  · refine ⟨?_, by rw [hstep], by rw [hstep, if_neg hmore]⟩
    simp only [Pool.put, he, hgt, if_true, Option.isSome_some]

theorem step_lawful (hi : Inv s) {e : Event} (hm : Matched s e) : Inv (s.step e) ∧ Lawful s e := by
  cases e with
  | get name opens =>
    cases he : s.pool name with
    | some entry => exact get_pooled hi he opens
    | none =>
      cases opens with
      | true => exact get_opened hi he
      | false =>
        obtain ⟨hstep, hl⟩ := get_failed (s := s) he
        exact ⟨hstep.symm ▸ hi, hl⟩
  | put b =>
    by_cases hlast : s.held.count b = 1
    · exact put_last hi hlast
    · exact put_shared hi hm hlast

/-- Over every run in which only holders put back. -/
theorem pool_counts (es : List Event) (h : Machine.Along step Matched new es) :
    Machine.Along step Lawful new es ∧ Consistent (Machine.run step new es) := by
  have hrun : Inv (Machine.run step new es) :=
    Machine.run_inv Inv (fun s e hi hm => (step_lawful hi hm).1) es new inv_new h
  exact ⟨Machine.along_of_inv Inv (fun s e hi hm => step_lawful hi hm) es new inv_new h, hrun.consistent⟩

/-- Two holders of a name, an opener that fails, the last holder's `Put` and a reopening. -/
def siteTwice : List Event :=
  [.get [0x61] true, .get [0x61] false, .get [0x62] false, .put ⟨0, [0x61]⟩, .put ⟨0, [0x61]⟩, .get [0x61] true]

theorem siteTwice_counts : Machine.Along step Matched new siteTwice ∧ Machine.Along step Lawful new siteTwice ∧
    Consistent (Machine.run step new siteTwice) :=
  have h : Machine.Along step Matched new siteTwice := by decide +kernel
  ⟨h, pool_counts siteTwice h⟩

end Pooled

end Fnd.Blob

/-
  Fnd.Util.Reaper — the expiring map over whole runs, with the calls of its `ReaperFunc`
  (`util/cache.go`).

  The entries are a finite table here, for the reaper ranges over them; `Table.cache` is the
  map of `Fnd.Util.Cache`, and the operations are its operations. A lookup drops an entry
  when the clock's nanoseconds are past the deadline. The reaper drops it when the clock's
  seconds have reached the deadline's nanoseconds, which for a clock in this century is some
  billions of years later.

  Each `Set` is given a serial number, so that an entry can be told from a later one under
  its key. What is proved of every run:
  - no entry is given to `ReaperFunc` twice, and those given to it are the ones that
    lookups and the reaper have dropped (`Inv.step`);
  - lookups and the reaper agree on what has expired, and the calls are for expired entries,
    exactly when at every reap no entry's deadline lies between the clock's seconds and its
    nanoseconds (`expiry_agrees_iff`).
-/

import Mathlib.Algebra.Group.Int.Defs
import Mathlib.Algebra.Group.Nat.Defs
import Mathlib.Data.List.AList
import Fnd.Lib.Machine
import Fnd.Util.Cache

namespace Fnd.Util

/-- An `int64`, of a result that may not fit. -/
def wrap64 (n : Int) : Int := Int.bmod n (2 ^ 64)

abbrev Table (κ V : Type) := AList fun _ : κ => Entry V

/-! ## The operations -/

namespace Table

variable {κ V : Type} [DecidableEq κ]

def cache (t : Table κ V) : Cache κ V := fun key => t.lookup key

/-- `Get`: the value, the calls of `ReaperFunc` (the entry stands for its value), and the table. -/
def get (t : Table κ V) (now : Time) (key : κ) : Option V × List (κ × Entry V) × Table κ V :=
  match t.lookup key with
  | none => (none, [], t)
  | some entry => if now > entry.expiry then (none, [(key, entry)], t.erase key) else (some entry.val, [], t)

def has (t : Table κ V) (now : Time) (key : κ) : Bool × List (κ × Entry V) × Table κ V :=
  let r := t.get now key
  (r.1.isSome, r.2)

/-- The deadline `Set` gives: both the duration and its sum with the clock are `int64`s. -/
def expiry (now : Time) (expMS : Int) : Int :=
  if expMS = 0 then 32767 else wrap64 (now + wrap64 (expMS * millisecond))

def set (t : Table κ V) (now : Time) (key : κ) (val : V) (expMS : Int) : Table κ V :=
  t.insert key ⟨val, expiry now expMS⟩

def del (t : Table κ V) (key : κ) : Table κ V := t.erase key

/-- The first loop of `reap`. -/
def toDelete (t : Table κ V) (now : Time) : List κ :=
  (t.entries.filter fun x => ¬ unix now < x.2.expiry).map Sigma.fst

/-- The second loop of `reap`. -/
def deleteAll : Table κ V → List κ → List (κ × Entry V) × Table κ V
  | t, [] => ([], t)
  | t, key :: keys =>
    match t.lookup key with
    | none => deleteAll t keys   -- not reached: the keys are the table's own, each once
    | some entry =>
      let r := deleteAll (t.erase key) keys
      ((key, entry) :: r.1, r.2)

def reap (t : Table κ V) (now : Time) : List (κ × Entry V) × Table κ V := t.deleteAll (t.toDelete now)

theorem mem_toDelete {t : Table κ V} {now : Time} {key : κ} :
    key ∈ t.toDelete now ↔ ∃ entry, t.lookup key = some entry ∧ ¬ unix now < entry.expiry := by
  rw [toDelete, List.mem_map]
  constructor
  · intro ⟨⟨key', entry⟩, hx, hkey⟩
    obtain ⟨hmem, hle⟩ := List.mem_filter.mp hx
    cases hkey
    exact ⟨entry, AList.mem_lookup_iff.mpr hmem, of_decide_eq_true hle⟩
  · intro ⟨entry, hlook, hle⟩
    exact ⟨⟨key, entry⟩, List.mem_filter.mpr ⟨AList.mem_lookup_iff.mp hlook, decide_eq_true hle⟩, rfl⟩

omit [DecidableEq κ] in
theorem nodup_toDelete (t : Table κ V) (now : Time) : (t.toDelete now).Nodup :=
  List.NodupKeys.sublist List.filter_sublist t.nodupKeys

/-- The second loop on keys that are there: it passes each entry on, and drops it. -/
theorem deleteAll_spec : ∀ (keys : List κ) (t : Table κ V), keys.Nodup → (∀ key ∈ keys, ∃ entry, t.lookup key = some entry) →
    (t.deleteAll keys).1.map Prod.fst = keys ∧
    (∀ key entry, (key, entry) ∈ (t.deleteAll keys).1 ↔ key ∈ keys ∧ t.lookup key = some entry) ∧
    ∀ key, (t.deleteAll keys).2.lookup key = if key ∈ keys then none else t.lookup key := by
  intro keys
  induction keys with
  | nil => intro t _ _; simp [deleteAll]
  | cons k keys ih =>
    intro t hnd hpres
    obtain ⟨hk, hnd⟩ := List.nodup_cons.mp hnd
    obtain ⟨entry, he⟩ := hpres k List.mem_cons_self
    have hother : ∀ key ∈ keys, (t.erase k).lookup key = t.lookup key := fun key hkey =>
      AList.lookup_erase_ne fun heq => hk (heq ▸ hkey)
    obtain ⟨hmap, hmem, hlook⟩ := ih (t.erase k) hnd fun key hkey => by
      rw [hother key hkey]
      exact hpres key (List.mem_cons_of_mem _ hkey)
    have hcons : t.deleteAll (k :: keys) = ((k, entry) :: (deleteAll (t.erase k) keys).1, (deleteAll (t.erase k) keys).2) := by
      simp only [deleteAll, he]
    rw [hcons]
    refine ⟨by rw [List.map_cons, hmap], fun key e => ?_, fun key => ?_⟩
    · rw [List.mem_cons, hmem key e, List.mem_cons]
      constructor
      · intro h
        cases h with
        | inl h => cases h; exact ⟨.inl rfl, he⟩
        | inr h => exact ⟨.inr h.1, (hother key h.1).symm.trans h.2⟩
      · intro ⟨hkey, hlook'⟩
        cases hkey with
        | inl h =>
          rw [h, he] at hlook'
          cases hlook'
          exact .inl (by rw [h])
        | inr h => exact .inr ⟨h, (hother key h).trans hlook'⟩
    · show (deleteAll (t.erase k) keys).2.lookup key = _
      rw [hlook key]
      by_cases hkey : key = k
      · rw [hkey, if_neg hk, if_pos List.mem_cons_self, AList.lookup_erase]
      · rw [AList.lookup_erase_ne hkey]
        simp only [List.mem_cons, hkey, false_or]

theorem lookup_reap (t : Table κ V) (now : Time) (key : κ) : (t.reap now).2.lookup key = t.cache.reap now key := by
  obtain ⟨-, -, hlook⟩ := deleteAll_spec (t.toDelete now) t (t.nodup_toDelete now) fun key hkey =>
    (mem_toDelete.mp hkey).imp fun _ h => h.1
  rw [reap, hlook key, Cache.reap, cache]
  cases he : t.lookup key with
  | none => exact ite_self none
  | some entry =>
    have hmem : key ∈ t.toDelete now ↔ ¬ unix now < entry.expiry := by
      rw [mem_toDelete, he]
      constructor
      · intro ⟨_, h, hle⟩; cases h; exact hle
      · intro hle; exact ⟨entry, rfl, hle⟩
    by_cases hlt : unix now < entry.expiry
    · rw [if_neg (fun h => hmem.mp h hlt)]
      exact (if_pos hlt).symm
    · rw [if_pos (hmem.mpr hlt)]
      exact (if_neg hlt).symm

/-- The table's operations are the map's. A deadline that fits an `int64` is the one of `Cache.set`. -/
theorem cache_get (t : Table κ V) (now : Time) (key : κ) :
    t.cache.get now key = ((t.get now key).1, (t.get now key).2.2.cache) := by
  rw [Cache.get, cache, get]
  cases he : t.lookup key with
  | none => rfl
  | some entry =>
    show (if _ then _ else _) = _
    by_cases hlt : now > entry.expiry
    · simp only [if_pos hlt, Prod.mk.injEq, true_and]
      funext k
      by_cases hk : k = key
      · rw [hk, Function.update_self]
        exact (AList.lookup_erase key t).symm
      · rw [Function.update_of_ne hk]
        exact (AList.lookup_erase_ne hk).symm
    · simp only [if_neg hlt]

theorem cache_set (t : Table κ V) {now : Time} (key : κ) (val : V) {expMS : Int}
    (hd : wrap64 (expMS * millisecond) = expMS * millisecond)
    (he : wrap64 (now + expMS * millisecond) = now + expMS * millisecond) :
    (t.set now key val expMS).cache = t.cache.set now key val expMS := by
  funext k
  rw [cache, set, Cache.set, expiry, hd, he]
  by_cases hk : k = key
  · rw [hk, AList.lookup_insert, Function.update_self]
  · rw [AList.lookup_insert_ne hk, Function.update_of_ne hk]
    rfl

theorem cache_del (t : Table κ V) (key : κ) : (t.del key).cache = t.cache.del key := by
  funext k
  rw [cache, del, Cache.del]
  by_cases hk : k = key
  · rw [hk, AList.lookup_erase, Function.update_self]
  · rw [AList.lookup_erase_ne hk, Function.update_of_ne hk]
    rfl

theorem cache_reap (t : Table κ V) (now : Time) : (t.reap now).2.cache = t.cache.reap now :=
  funext (t.lookup_reap now)

/-- Entries are dropped, and just those are passed to `ReaperFunc`, each once. -/
structure Drops (t : Table κ V) (calls : List (κ × Entry V)) (t' : Table κ V) : Prop where
  kept : ∀ key entry, t'.lookup key = some entry → t.lookup key = some entry
  keys : (calls.map Prod.fst).Nodup
  gone : ∀ key entry, (key, entry) ∈ calls ↔ t.lookup key = some entry ∧ t'.lookup key = none

theorem drops_nothing (t : Table κ V) : t.Drops [] t :=
  ⟨fun _ _ h => h, List.nodup_nil, fun _ _ =>
    ⟨fun h => absurd h List.not_mem_nil, fun ⟨h, h'⟩ => absurd (h.symm.trans h') (Option.some_ne_none _)⟩⟩

/-- What is found after an entry was erased was there before, under another key. -/
theorem lookup_of_erase {t : Table κ V} {key k : κ} {entry : Entry V} (h : AList.lookup k (t.erase key) = some entry) :
    k ≠ key ∧ t.lookup k = some entry := by
  by_cases hk : k = key
  · rw [hk, AList.lookup_erase] at h
    cases h
  · rw [AList.lookup_erase_ne hk] at h
    exact ⟨hk, h⟩

theorem drops_get (t : Table κ V) (now : Time) (key : κ) : t.Drops (t.get now key).2.1 (t.get now key).2.2 := by
  unfold get
  split
  · exact t.drops_nothing
  · rename_i entry he
    split
    · refine ⟨fun k e h => (lookup_of_erase h).2, List.nodup_singleton _, fun k e => ?_⟩
      rw [List.mem_singleton, Prod.mk.injEq]
      constructor
      · intro ⟨hk, hentry⟩
        rw [hk, hentry]
        exact ⟨he, AList.lookup_erase key t⟩
      · intro ⟨h, hgone⟩
        by_cases hk : k = key
        · rw [hk, he] at h
          exact ⟨hk, (Option.some.inj h).symm⟩
        · rw [AList.lookup_erase_ne hk, h] at hgone; cases hgone
    · exact t.drops_nothing

theorem drops_reap (t : Table κ V) (now : Time) : t.Drops (t.reap now).1 (t.reap now).2 := by
  obtain ⟨hmap, hmem, hlook⟩ := deleteAll_spec (t.toDelete now) t (t.nodup_toDelete now) fun key hkey =>
    (mem_toDelete.mp hkey).imp fun _ h => h.1
  refine ⟨fun k e h => ?_, ?_, fun k e => ?_⟩
  · rw [reap, hlook k] at h
    split at h
    · cases h
    · exact h
  · rw [reap, hmap]
    exact t.nodup_toDelete now
  · rw [reap, hmem k e, hlook k]
    constructor
    · intro ⟨hk, h⟩
      exact ⟨h, if_pos hk⟩
    · intro ⟨h, hgone⟩
      refine ⟨?_, h⟩
      by_contra hk
      rw [if_neg hk, h] at hgone
      cases hgone

end Table

/-! ## Runs -/

/-- A value, with the `Set` that stored it. -/
structure Stamped (V : Type) where
  serial : Nat
  expMS : Int
  val : V

/-- An entry, and when something was done with it. -/
structure Event (κ V : Type) where
  time : Time
  key : κ
  entry : Entry (Stamped V)

def Event.serial {κ V : Type} (c : Event κ V) : Nat := c.entry.val.serial

inductive Op (κ V : Type) where
  | set (key : κ) (val : V) (expMS : Int)
  | get (key : κ)
  | has (key : κ)
  | del (key : κ)
  | reap

/-- A cache, with what has happened to it. -/
structure Run (κ V : Type) where
  table : Table κ (Stamped V)
  sets : Nat
  /-- The calls of `ReaperFunc`. -/
  calls : List (Event κ V)
  /-- The entries that have left other than by `Del` and `Set`. -/
  expired : List (Event κ V)

namespace Run

variable {κ V : Type} [DecidableEq κ]

def start : Run κ V := ⟨∅, 0, [], []⟩

/-- The entries of the one table that are not in the other. -/
def left (t t' : Table κ (Stamped V)) : List (κ × Entry (Stamped V)) :=
  (t.entries.filter fun x => (t'.lookup x.1).isNone).map fun x => (x.1, x.2)

def after (s : Run κ V) (now : Time) (r : List (κ × Entry (Stamped V)) × Table κ (Stamped V)) : Run κ V :=
  { s with
    table := r.2
    calls := s.calls ++ r.1.map fun x => ⟨now, x.1, x.2⟩
    expired := s.expired ++ (left s.table r.2).map fun x => ⟨now, x.1, x.2⟩ }

def step (s : Run κ V) (e : Time × Op κ V) : Run κ V :=
  match e.2 with
  | .set key val expMS => { s with table := s.table.set e.1 key ⟨s.sets, expMS, val⟩ expMS, sets := s.sets + 1 }
  | .get key => s.after e.1 (s.table.get e.1 key).2
  | .has key => s.after e.1 (s.table.has e.1 key).2
  | .del key => { s with table := s.table.del key }
  | .reap => s.after e.1 (s.table.reap e.1)

theorem mem_left {t t' : Table κ (Stamped V)} {key : κ} {entry : Entry (Stamped V)} :
    (key, entry) ∈ left t t' ↔ t.lookup key = some entry ∧ t'.lookup key = none := by
  rw [left, List.mem_map]
  constructor
  · intro ⟨⟨k, e⟩, hx, heq⟩
    obtain ⟨hmem, hnone⟩ := List.mem_filter.mp hx
    cases heq
    exact ⟨AList.mem_lookup_iff.mpr hmem, Option.isNone_iff_eq_none.mp hnone⟩
  · intro ⟨hlook, hnone⟩
    exact ⟨⟨key, entry⟩, List.mem_filter.mpr ⟨AList.mem_lookup_iff.mp hlook, Option.isNone_iff_eq_none.mpr hnone⟩, rfl⟩

/-- Every `Set`'s entry is in one place at most: under its key, or passed to `ReaperFunc` once. -/
structure Inv (s : Run κ V) : Prop where
  stamped : ∀ key entry, s.table.lookup key = some entry → entry.val.serial < s.sets
  distinct : ∀ key key' entry entry', s.table.lookup key = some entry → s.table.lookup key' = some entry' →
    entry.val.serial = entry'.val.serial → key = key'
  called : ∀ c ∈ s.calls, c.serial < s.sets ∧ ∀ key entry, s.table.lookup key = some entry → entry.val.serial ≠ c.serial
  once : (s.calls.map Event.serial).Nodup
  same : ∀ c, c ∈ s.calls ↔ c ∈ s.expired

theorem inv_start : (start : Run κ V).Inv := by
  refine ⟨?_, ?_, ?_, List.nodup_nil, fun _ => Iff.rfl⟩
  · intro key entry h; cases h
  · intro key _ entry _ h; cases h
  · intro c h; cases h

theorem Inv.after {s : Run κ V} (h : s.Inv) (now : Time) {r : List (κ × Entry (Stamped V)) × Table κ (Stamped V)}
    (hr : s.table.Drops r.1 r.2) : (s.after now r).Inv := by
  have hnew : ∀ c ∈ r.1.map (fun x => (⟨now, x.1, x.2⟩ : Event κ V)),
      s.table.lookup c.key = some c.entry ∧ r.2.lookup c.key = none := by
    intro c hc
    obtain ⟨⟨key, entry⟩, hx, rfl⟩ := List.mem_map.mp hc
    exact (hr.gone key entry).mp hx
  refine ⟨fun key entry hl => h.stamped key entry (hr.kept key entry hl), fun key key' entry entry' hl hl' heq =>
    h.distinct key key' entry entry' (hr.kept key entry hl) (hr.kept key' entry' hl') heq, fun c hc => ?_, ?_, fun c => ?_⟩
  · cases List.mem_append.mp hc with
    | inl hold => exact ⟨(h.called c hold).1, fun key entry hl => (h.called c hold).2 key entry (hr.kept key entry hl)⟩
    | inr hc =>
      obtain ⟨hlook, hnone⟩ := hnew c hc
      refine ⟨h.stamped c.key c.entry hlook, fun key entry hl heq => ?_⟩
      have hkey := h.distinct key c.key entry c.entry (hr.kept key entry hl) hlook heq
      rw [← hkey] at hnone
      exact Option.some_ne_none _ (hl.symm.trans hnone)
  · show ((s.calls ++ _).map Event.serial).Nodup
    rw [List.map_append]
    refine List.nodup_append.mpr ⟨h.once, ?_, ?_⟩
    · -- one call a key, and one serial number a key
      rw [List.map_map]
      refine List.Nodup.map_on ?_ (List.Nodup.of_map Prod.fst hr.keys)
      intro ⟨key, entry⟩ hx ⟨key', entry'⟩ hx' heq
      obtain ⟨hl, -⟩ := (hr.gone key entry).mp hx
      obtain ⟨hl', -⟩ := (hr.gone key' entry').mp hx'
      have hkey := h.distinct key key' entry entry' hl hl' heq
      subst hkey
      rw [Option.some.inj (hl.symm.trans hl')]
    · intro n hn m hm heq
      obtain ⟨c, hc, rfl⟩ := List.mem_map.mp hn
      obtain ⟨c', hc', rfl⟩ := List.mem_map.mp hm
      exact (h.called c hc).2 c'.key c'.entry (hnew c' hc').1 heq.symm
  · show c ∈ s.calls ++ _ ↔ c ∈ s.expired ++ _
    rw [List.mem_append, List.mem_append, h.same c, List.mem_map, List.mem_map]
    refine or_congr_right (exists_congr fun x => and_congr_left' ?_)
    rw [hr.gone x.1 x.2, ← mem_left]

theorem Inv.del {s : Run κ V} (h : s.Inv) (key : κ) : ({ s with table := s.table.del key } : Run κ V).Inv := by
  have hkept : ∀ k entry, (s.table.del key).lookup k = some entry → s.table.lookup k = some entry :=
    fun k entry hl => (Table.lookup_of_erase hl).2
  exact ⟨fun k entry hl => h.stamped k entry (hkept k entry hl), fun k k' entry entry' hl hl' =>
    h.distinct k k' entry entry' (hkept k entry hl) (hkept k' entry' hl'), fun c hc =>
    ⟨(h.called c hc).1, fun k entry hl => (h.called c hc).2 k entry (hkept k entry hl)⟩, h.once, h.same⟩

/-- The number of the new entry is the next one; the others are below it. -/
theorem Inv.set {s : Run κ V} (h : s.Inv) (now : Time) (key : κ) (val : V) (expMS : Int) :
    ({ s with table := s.table.set now key ⟨s.sets, expMS, val⟩ expMS, sets := s.sets + 1 } : Run κ V).Inv := by
  have hlook : ∀ k entry, (s.table.set now key ⟨s.sets, expMS, val⟩ expMS).lookup k = some entry →
      k = key ∧ entry.val.serial = s.sets ∨ s.table.lookup k = some entry ∧ entry.val.serial < s.sets := by
    intro k entry hl
    by_cases hk : k = key
    · rw [hk, Table.set, AList.lookup_insert] at hl
      cases hl
      exact .inl ⟨hk, rfl⟩
    · rw [Table.set, AList.lookup_insert_ne hk] at hl
      exact .inr ⟨hl, h.stamped k entry hl⟩
  refine ⟨fun k entry hl => ?_, fun k k' entry entry' hl hl' heq => ?_, fun c hc => ?_, h.once, h.same⟩
  · show entry.val.serial < s.sets + 1
    have := hlook k entry hl
    omega
  · cases hlook k entry hl with
    | inl hnew =>
      cases hlook k' entry' hl' with
      | inl hnew' => rw [hnew.1, hnew'.1]
      | inr hold' => omega
    | inr hold =>
      cases hlook k' entry' hl' with
      | inl hnew' => omega
      | inr hold' => exact h.distinct k k' entry entry' hold.1 hold'.1 heq
  · obtain ⟨hlt, hother⟩ := h.called c hc
    refine ⟨Nat.lt_succ_of_lt hlt, fun k entry hl => ?_⟩
    cases hlook k entry hl with
    | inl hnew => omega
    | inr hold => exact hother k entry hold.1

theorem Inv.step {s : Run κ V} (h : s.Inv) (e : Time × Op κ V) : (s.step e).Inv := by
  obtain ⟨now, op⟩ := e
  cases op with
  | set key val expMS => exact h.set now key val expMS
  | get key => exact h.after now (s.table.drops_get now key)
  | has key => exact h.after now (s.table.drops_get now key)
  | del key => exact h.del key
  | reap => exact h.after now (s.table.drops_reap now)

/-- A reap drops those entries that a lookup would report as expired, of those that were set with a
    positive expiry. -/
def Agrees (s : Run κ V) (e : Time × Op κ V) : Prop :=
  e.2 = .reap → ∀ key entry, s.table.lookup key = some entry → 0 < entry.val.expMS →
    ((s.step e).table.lookup key = none ↔ (s.table.get e.1 key).1 = none)

/-- At a reap, no such entry's deadline lies between the two readings of the clock. -/
def Timely (s : Run κ V) (e : Time × Op κ V) : Prop :=
  e.2 = .reap → ∀ key entry, s.table.lookup key = some entry → 0 < entry.val.expMS →
    ¬ (unix e.1 < entry.expiry ∧ entry.expiry < e.1) ∧ ¬ (e.1 ≤ entry.expiry ∧ entry.expiry ≤ unix e.1)

/-- `ReaperFunc` is called once for each entry that was removed because it expired, and for no
    other: not for one that was still live. -/
structure CalledOnce (s : Run κ V) : Prop where
  once : ∀ x ∈ s.expired, 0 < x.entry.val.expMS → (s.calls.map Event.serial).count x.serial = 1
  dead : ∀ c ∈ s.calls, 0 < c.entry.val.expMS → c ∈ s.expired ∧ c.entry.expiry < c.time

theorem get_eq_none {t : Table κ V} {now : Time} {key : κ} {entry : Entry V} (h : t.lookup key = some entry) :
    (t.get now key).1 = none ↔ entry.expiry < now := by
  simp only [Table.get, h]
  split
  · rename_i hlt; exact ⟨fun _ => hlt, fun _ => rfl⟩
  · rename_i hlt; exact ⟨fun h => absurd h (Option.some_ne_none _), fun h => absurd h hlt⟩

theorem reap_eq_none {t : Table κ V} {now : Time} {key : κ} {entry : Entry V} (h : t.lookup key = some entry) :
    (t.reap now).2.lookup key = none ↔ entry.expiry ≤ unix now := by
  rw [Table.lookup_reap, Cache.reap, Table.cache, h]
  show (if unix now < entry.expiry then some entry else none) = none ↔ _
  split
  · rename_i hlt; exact ⟨fun h => absurd h (Option.some_ne_none _), fun hle => absurd hlt (Int.not_lt.mpr hle)⟩
  · rename_i hlt; exact ⟨fun _ => Int.not_lt.mp hlt, fun _ => rfl⟩

theorem agrees_iff (s : Run κ V) (e : Time × Op κ V) : s.Agrees e ↔ s.Timely e := by
  obtain ⟨now, op⟩ := e
  refine forall_congr' fun hop => forall_congr' fun key => forall_congr' fun entry => forall_congr' fun hl =>
    forall_congr' fun _ => ?_
  cases (show op = .reap from hop)
  show ((s.table.reap now).2.lookup key = none ↔ (s.table.get now key).1 = none) ↔
    ¬ (unix now < entry.expiry ∧ entry.expiry < now) ∧ ¬ (now ≤ entry.expiry ∧ entry.expiry ≤ unix now)
  rw [reap_eq_none hl, get_eq_none hl]
  constructor
  · intro hiff
    exact ⟨fun ⟨hlt, hexp⟩ => absurd (hiff.mpr hexp) (Int.not_le.mpr hlt), fun ⟨hlive, hle⟩ =>
      absurd (hiff.mp hle) (Int.not_lt.mpr hlive)⟩
  · intro ⟨hlate, hearly⟩
    exact ⟨fun hle => Int.not_le.mp fun hlive => hearly ⟨hlive, hle⟩, fun hexp =>
      Int.not_lt.mp fun hlt => hlate ⟨hlt, hexp⟩⟩

/-- The calls so far were for entries that had expired. -/
def Dead (s : Run κ V) : Prop := ∀ c ∈ s.calls, 0 < c.entry.val.expMS → c.entry.expiry < c.time

theorem Dead.after {s : Run κ V} (h : s.Dead) {now : Time} {r : List (κ × Entry (Stamped V)) × Table κ (Stamped V)}
    (hr : ∀ key entry, (key, entry) ∈ r.1 → 0 < entry.val.expMS → entry.expiry < now) : (s.after now r).Dead := by
  intro c hc hpos
  cases List.mem_append.mp hc with
  | inl hold => exact h c hold hpos
  | inr hnew =>
    obtain ⟨⟨key, entry⟩, hx, rfl⟩ := List.mem_map.mp hnew
    exact hr key entry hx hpos

theorem dead_get (t : Table κ V) (now : Time) {key k : κ} {entry : Entry V} (h : (k, entry) ∈ (t.get now key).2.1) :
    entry.expiry < now := by
  unfold Table.get at h
  split at h
  · cases h
  · split at h
    · rename_i hlt
      cases List.mem_singleton.mp h
      exact hlt
    · cases h

theorem Dead.step {s : Run κ V} (h : s.Dead) {e : Time × Op κ V} (ht : s.Timely e) : (s.step e).Dead := by
  obtain ⟨now, op⟩ := e
  cases op with
  | set key val expMS => exact h
  | del key => exact h
  | get key => exact h.after fun _ _ hx _ => dead_get s.table now hx
  | has key => exact h.after fun _ _ hx _ => dead_get s.table now hx
  | reap =>
    refine h.after fun key entry hx hpos => ?_
    obtain ⟨hl, hnone⟩ := ((s.table.drops_reap now).gone key entry).mp hx
    have hle := (reap_eq_none hl).mp hnone
    have hlive := (ht rfl key entry hl hpos).2
    show entry.expiry < now
    by_contra hge
    exact hlive ⟨Int.not_lt.mp hge, hle⟩

theorem Inv.calledOnce {s : Run κ V} (h : s.Inv) (hd : s.Dead) : s.CalledOnce :=
  ⟨fun x hx _ => List.count_eq_one_of_mem h.once (List.mem_map_of_mem ((h.same x).mpr hx)),
    fun c hc hpos => ⟨(h.same c).mp hc, hd c hc hpos⟩⟩

/-- A reap with the clock after 1970 leaves every live entry. -/
theorem reap_keeps_live {t : Table κ V} {now : Time} (hnow : 0 < now) {key : κ} {entry : Entry V}
    (h : t.lookup key = some entry) (hlive : (t.get now key).1 ≠ none) : (t.reap now).2.lookup key ≠ none := by
  intro hnone
  have hle := (reap_eq_none h).mp hnone
  have hlt : unix now < now := Int.ediv_lt_self_of_pos_of_ne_one hnow (by decide)
  exact hlive ((get_eq_none h).mpr (Int.lt_of_le_of_lt hle hlt))

/-- At every reap of the run lookups agree with it, and `ReaperFunc` is called as it should be:
    exactly if no deadline ever lies between the clock's seconds and its nanoseconds. -/
theorem expiry_agrees_iff (es : List (Time × Op κ V)) :
    Machine.Along step Agrees start es ∧ CalledOnce (Machine.run step start es) ↔ Machine.Along step Timely start es := by
  have hagree : Machine.Along step Agrees start es ↔ Machine.Along step (Timely (κ := κ) (V := V)) start es :=
    Machine.along_iff (fun _ => True) (fun s e _ => agrees_iff s e) (fun _ _ _ _ => trivial) es start trivial
  rw [hagree]
  refine ⟨And.left, fun ht => ⟨ht, ?_⟩⟩
  obtain ⟨hinv, hdead⟩ := Machine.run_inv (fun s => Inv s ∧ Dead s) (fun s e h ht => ⟨h.1.step e, h.2.step ht⟩) es start
    ⟨inv_start, fun c hc => by cases hc⟩ ht
  exact hinv.calledOnce hdead

/-- Set for a millisecond in the year 2001 and reaped a second later: it is still there. -/
theorem an_expired_entry_is_not_reaped :
    ¬ Machine.Along step Agrees (start : Run Nat Unit) [(10 ^ 18, .set 0 () 1), (10 ^ 18 + second, .reap)] := by
  intro h
  have hgone := (h.2.1 rfl 0 ⟨⟨0, 1, ()⟩, 10 ^ 18 + millisecond⟩ rfl (by decide)).mpr rfl
  exact absurd hgone (by decide)

end Run

end Fnd.Util

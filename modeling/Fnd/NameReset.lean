/-
  Fnd.NameReset — resetting the name store, and importing on (`TruncateNameStore`,
  `cmd/unsafe/reset_name_store.go`).

  The reset deletes the names and keeps the height they were imported up to, so the importer
  goes on from there: the blocks before are not read again. `since src g n` is what the `n`
  blocks after height `g` leave of an empty store. Every database a round stores is that, over
  the one it began with (`sync_after`). So a store that was reset at `g` is a freshly
  imported one exactly when the blocks after `g` have a key for every name that the blocks
  before have one for (`reset_recovers_iff`).
-/

import Fnd.NameImport

namespace Fnd.NameReset

open Protocol NameImport
open Store (DB NameInfo)

variable {H K G : Type}

/-- The names of the `n` blocks after height `g`. -/
def since (src : Source K) (g : Int) : Nat → Name → Option (NameInfo K)
  | 0, _ => none
  | n + 1, name =>
    match importedKey src (g + n + 1) name with
    | some key => some ⟨name, key, g + n + 1⟩
    | none => since src g n name

/-- A block after `g`, up to `h`, has a key for the name. -/
def NamedIn (src : Source K) (g h : Int) (name : Name) : Prop :=
  ∃ j, g < j ∧ j ≤ h ∧ importedKey src j name ≠ none

variable {src : Source K}

theorem since_ne_none (g : Int) (name : Name) : ∀ n : Nat, since src g n name ≠ none ↔ NamedIn src g (g + n) name := by
  intro n
  induction n with
  | zero =>
    refine ⟨fun h => absurd rfl h, fun ⟨j, h1, h2, _⟩ => ?_⟩
    omega
  | succ n ih =>
    rw [since]
    cases hk : importedKey src (g + n + 1) name with
    | some key =>
      exact iff_of_true (Option.some_ne_none _) ⟨g + n + 1, by omega, by omega, by rw [hk]; exact Option.some_ne_none _⟩
    | none =>
      rw [ih]
      constructor
      · intro ⟨j, h1, h2, hj⟩
        exact ⟨j, h1, by omega, hj⟩
      · intro ⟨j, h1, h2, hj⟩
        have hne : j ≠ g + n + 1 := fun heq => hj (by rw [heq, hk])
        exact ⟨j, h1, by omega, hj⟩

theorem since_add (g : Int) (m : Nat) (name : Name) : ∀ n : Nat,
    since src g (m + n) name = (since src (g + m) n name).or (since src g m name) := by
  intro n
  induction n with
  | zero => rfl
  | succ n ih =>
    have hheight : g + ((m + n : Nat) : Int) + 1 = g + m + n + 1 := by omega
    rw [← Nat.add_assoc, since, since, hheight, ih]
    cases importedKey src (g + m + n + 1) name <;> rfl

structure After (src : Source K) (db d : DB H K G) : Prop where
  height : db.lastNameImportHeight ≤ d.lastNameImportHeight
  names : ∀ name, d.nameInfo name =
    (since src db.lastNameImportHeight (d.lastNameImportHeight - db.lastNameImportHeight).toNat name).or (db.nameInfo name)

theorem After.refl (db : DB H K G) : After src db db := by
  refine ⟨Int.le_refl _, fun name => ?_⟩
  rw [Int.sub_self]
  rfl

theorem After.step {db d d' : DB H K G} (h : After src db d) (hs : Step src d d') : After src db d' := by
  have hle := h.height
  have hheight := hs.height
  refine ⟨by omega, fun name => ?_⟩
  have hn : (d'.lastNameImportHeight - db.lastNameImportHeight).toNat =
      (d.lastNameImportHeight - db.lastNameImportHeight).toNat + 1 := by omega
  have hj : db.lastNameImportHeight + ((d.lastNameImportHeight - db.lastNameImportHeight).toNat : Int) + 1 =
      d.lastNameImportHeight + 1 := by omega
  rw [hs.names name, hn, since, hj, h.names name]
  cases importedKey src (d.lastNameImportHeight + 1) name <;> rfl

theorem sync_after (n : NameImporter) (rs : List Round) (db : DB H K G) : ∀ d ∈ db :: sync n src rs db, After src db d :=
  (sync_chain n rs db).induction (After src db) _ (fun _ _ hs h => h.step hs) fun _ => After.refl db

/-- Import rounds from an empty store reach this database. -/
def Reached (src : Source K) (db : DB H K G) : Prop :=
  ∃ (n : NameImporter) (rs : List Round) (db₀ : DB H K G), (∀ name, db₀.nameInfo name = none) ∧
    db₀.lastNameImportHeight = 0 ∧ db ∈ db₀ :: sync n src rs db₀

theorem Reached.nameInfo {db : DB H K G} (h : Reached src db) :
    0 ≤ db.lastNameImportHeight ∧ ∀ name, db.nameInfo name = since src 0 db.lastNameImportHeight.toNat name := by
  obtain ⟨n, rs, db₀, hnames, hheight, hmem⟩ := h
  obtain ⟨hle, hinfo⟩ := sync_after n rs db₀ db hmem
  rw [hheight] at hle hinfo
  refine ⟨hle, fun name => ?_⟩
  rw [hinfo name, hnames name, Option.or_none, Int.sub_zero]

/-- The rounds after a reset leave the names of a fresh import up to the same height exactly when
    every name with a key up to the height of the reset has one after it. -/
theorem reset_recovers_iff (src : Source K) (db : DB H K G) (hdb : Reached src db) (n : NameImporter) (rs : List Round)
    (after : DB H K G) (hafter : after ∈ db.truncateNameStore :: sync n src rs db.truncateNameStore)
    (fresh : DB H K G) (hfresh : Reached src fresh) (hheight : fresh.lastNameImportHeight = after.lastNameImportHeight) :
    (∀ name, after.nameInfo name = fresh.nameInfo name) ↔
      ∀ name, NamedIn src 0 db.lastNameImportHeight name →
        NamedIn src db.lastNameImportHeight after.lastNameImportHeight name := by
  obtain ⟨hle, hinfo⟩ := sync_after n rs db.truncateNameStore after hafter
  obtain ⟨hpos, -⟩ := hdb.nameInfo
  obtain ⟨-, hfold⟩ := hfresh.nameInfo
  have hg : db.truncateNameStore.lastNameImportHeight = db.lastNameImportHeight := rfl
  rw [hg] at hle hinfo
  generalize db.lastNameImportHeight = g at *
  obtain ⟨m, rfl⟩ := Int.eq_ofNat_of_zero_le hpos
  obtain ⟨k, hk⟩ := Int.eq_ofNat_of_zero_le (Int.sub_nonneg_of_le hle)
  have hlast : after.lastNameImportHeight = m + k := by omega
  refine forall_congr' fun name => ?_
  have hsub : ((m : Int) + k - m).toNat = k := by omega
  have hsum : ((m : Int) + k).toNat = m + k := by omega
  have hbefore : since src 0 m name ≠ none ↔ NamedIn src 0 m name := by
    rw [since_ne_none, Int.zero_add]
  rw [hinfo name, hfold name, hheight, hlast, hsub, hsum, since_add, Int.zero_add, ← hbefore, ← since_ne_none]
  show (since src m k name).or none = _ ↔ _
  cases since src m k name with
  | some info => exact iff_of_true rfl fun _ => Option.some_ne_none _
  | none =>
    rw [Option.or_none, Option.none_or]
    constructor
    · intro heq hne
      exact absurd heq.symm hne
    · intro h
      by_contra hne
      exact h (Ne.symm hne) rfl

/-! ## A reset at the first block, and one at the third -/

/-- `count` blocks are confirmed, nothing fails. -/
def confirmed (count : Int) : Round := ⟨some ⟨count, false⟩, fun _ => true, fun _ _ => true⟩

/-- The last database stored from here. -/
def imported (count : Int) (db : DB Nat UInt8 Nat) : DB Nat UInt8 Nat := (sync importer sample [confirmed count] db).getLastD db

theorem imported_mem (count : Int) (db : DB Nat UInt8 Nat) :
    imported count db ∈ db :: sync importer sample [confirmed count] db := List.getLastD_mem_cons

theorem reached_imported (count : Int) : Reached sample (imported count noNames) :=
  ⟨importer, [confirmed count], noNames, fun _ => rfl, rfl, imported_mem count noNames⟩

/-- The one name of the first block is in the second as well. -/
theorem a_reset_after_the_first_block_recovers :
    (imported 4 (imported 2 noNames).truncateNameStore).nameInfo = (imported 4 noNames).nameInfo := by
  refine funext ((reset_recovers_iff sample (imported 2 noNames) (reached_imported 2) importer [confirmed 4] _
    (imported_mem 4 (imported 2 noNames).truncateNameStore) (imported 4 noNames) (reached_imported 4)
    (by decide +kernel)).mpr fun name ⟨j, h1, h2, hj⟩ => ?_)
  have hone : (imported 2 noNames).lastNameImportHeight = 1 := by decide +kernel
  have hthree : (imported 4 (imported 2 noNames).truncateNameStore).lastNameImportHeight = 3 := by decide +kernel
  rw [hone, hthree]
  obtain rfl : j = 1 := by omega
  have hblock : extractTXTRecordsBlock sample (sample.block 1) = .ok [⟨[1], 0x41⟩] := rfl
  have hname : name = [1] := by
    by_contra hne
    refine hj ?_
    rw [importedKey_eq hblock]
    have hnot : ¬ ([1] : Bytes) = name := fun h => hne h.symm
    simp [lastRecord, sample, hnot]
  refine ⟨2, by decide, by decide, ?_⟩
  rw [hname]
  decide +kernel

/-- Reset after three blocks; the fourth has no names. The name of the first two is lost. -/
theorem a_reset_loses_names :
    (imported 5 (imported 4 noNames).truncateNameStore).lastNameImportHeight = (imported 5 noNames).lastNameImportHeight ∧
    ¬ ∀ name, (imported 5 (imported 4 noNames).truncateNameStore).nameInfo name = (imported 5 noNames).nameInfo name := by
  refine ⟨by decide +kernel, fun h => ?_⟩
  exact absurd (h [1]) (by decide +kernel)

end Fnd.NameReset

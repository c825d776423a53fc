/-
  Fnd.Protocol.Moderation — the ban-list ingest (`protocol/moderation.go`).

  At start, before any service runs, the daemon fetches its ban lists and replaces the set of
  banned names, inside one database transaction; the blob of each listed name is removed at
  once. Nothing writes the time of the last import, so the seven days since it have always
  passed unless a store comes with one. A fetched list is a parameter: `FetchListFile`'s
  result for each url, in order. Files and database writes succeed.
-/

import Fnd.Blob.Store
import Fnd.Store.DB
import Fnd.Store.WithTx

namespace Fnd.Protocol

open Blob (File Files Tx TxErr)
open Store (DB TxCb TxError withTx)

inductive IngestErr (F : Type) where
  /-- "failed to fetch ban list" -/
  | fetching (e : F)
  /-- "error removing banned name" -/
  | removing (e : TxErr)
  /-- "error committing transaction" -/
  | committing (e : TxErr)
  deriving DecidableEq, Repr

variable {H K G L F : Type}

/-- The blob transaction of one listed name. -/
def removeBlob (files : Files) (name : Name) : Except (Fault (IngestErr F)) Files :=
  match (Tx.new name).remove with
  | .error .panic => .error .panic
  | .error (.err e) => .error (.err (.removing e))
  | .ok tx =>
    match (files.open_ name).2.commit tx with
    | .error e => .error (.err (.committing e))
    | .ok (files, _) => .ok files

def banNames : List Name → TxCb (DB H K G) Files (IngestErr F)
  | [], tx, files => (.ok (), tx, files)
  | name :: names, tx, files =>
    let tx := tx.banName name
    if files.exists_ name then
      match removeBlob files name with
      | .error f => (.error f, tx, files)
      | .ok files => banNames names tx files
    else banNames names tx files

def banLists : List (Except (Fault F) (List Name)) → TxCb (DB H K G) Files (IngestErr F)
  | [], tx, files => (.ok (), tx, files)
  | .error .panic :: _, tx, files => (.error .panic, tx, files)
  | .error (.err e) :: _, tx, files => (.error (.err (.fetching e)), tx, files)
  | .ok names :: lists, tx, files =>
    match banNames names tx files with
    | (.error f, tx, files) => (.error f, tx, files)
    | (.ok (), tx, files) => banLists lists tx files

def refreshBans (lists : List (Except (Fault F) (List Name))) : TxCb (DB H K G) Files (IngestErr F) :=
  fun tx files => banLists lists tx.truncateBannedNames files

/-- What the ingest works on: the database and the blob directory. -/
structure Disk (H K G : Type) where
  db : DB H K G
  /-- The stored integer. -/
  lastBanListImportAt : Option Nat
  files : Files

/-- `GetLastBanListImportAt`: 1970 without a record. -/
def Disk.getLastBanListImportAt {ε : Type} (d : Disk H K G) : Except (Fault ε) Time :=
  match d.lastBanListImportAt with
  | none => .ok 0
  | some n => if n > 9223372036854775807 then .error .panic else .ok (n * second)

def banListUpdateInterval : Int := 7 * 24 * 3600 * second

def ingestBanLists (opens commits : Except L Unit) (now : Time) (lists : List (Except (Fault F) (List Name)))
    (d : Disk H K G) : Except (Fault (TxError L (IngestErr F))) Unit × Disk H K G :=
  match d.getLastBanListImportAt with
  | .error f => (.error f, d)
  | .ok currRev =>
    if now - currRev < banListUpdateInterval then (.ok (), d)
    else
      let (res, db, files) := withTx opens commits (refreshBans lists) d.db d.files
      (res, { d with db := db, files := files })

/-! ## What the ingest leaves -/

theorem removeBlob_eq (files : Files) (name : Name) :
    removeBlob (F := F) files name = .ok (Function.update files name none) := by
  have hcommit : (files.open_ name).2.commit { Tx.new name with removed := true } =
      .ok (Function.update (files.open_ name).2 name none, { Tx.new name with removed := true, closed := true }) := rfl
  have hopen : Function.update (files.open_ name).2 name none = Function.update files name none := by
    unfold Files.open_
    cases files name <;> simp
  have hremove : (Tx.new name).remove = .ok { Tx.new name with removed := true } := rfl
  rw [removeBlob, hremove]
  simp only [hcommit, hopen]

/-- The files without those of some names. -/
def without (names : List Name) (files : Files) : Files := fun name => if names.contains name then none else files name

/-- The names the loops get to: those of the lists before the first that fails. -/
def reached : List (Except (Fault F) (List Name)) → List Name
  | .ok names :: lists => names ++ reached lists
  | _ => []

theorem without_of_mem {names : List Name} {name : Name} (h : name ∈ names) (files : Files) :
    without names files name = none :=
  if_pos (List.contains_iff_mem.mpr h)

theorem without_of_not_mem {names : List Name} {name : Name} (h : name ∉ names) (files : Files) :
    without names files name = files name :=
  if_neg fun hc => h (List.contains_iff_mem.mp hc)

@[simp] theorem without_nil (files : Files) : without [] files = files := by
  funext n
  simp [without]

theorem without_cons (name : Name) (names : List Name) (files : Files) :
    without names (Function.update files name none) = without (name :: names) files := by
  funext n
  by_cases h : n = name
  · subst h; simp [without]
  · simp [without, h]

theorem without_append (names names' : List Name) (files : Files) :
    without names' (without names files) = without (names ++ names') files := by
  funext n
  by_cases h : n ∈ names <;> by_cases h' : n ∈ names' <;> simp [without, h, h']

theorem banNames_eq (names : List Name) : ∀ (tx : DB H K G) (files : Files),
    banNames (F := F) names tx files =
      (.ok (), { tx with nameBans := fun n => names.contains n || tx.nameBans n }, without names files) := by
  induction names with
  | nil => intro tx files; simp [banNames]
  | cons name names ih =>
    intro tx files
    have hbans : (fun n => names.contains n || (tx.banName name).nameBans n) =
        fun n => (name :: names).contains n || tx.nameBans n := by
      funext n
      by_cases h : n = name
      · subst h; simp [DB.banName]
      · simp [DB.banName, h]
    have hfiles : without names (if files.exists_ name then Function.update files name none else files) =
        without (name :: names) files := by
      split
      · exact without_cons name names files
      · rename_i hnone
        rw [← without_cons, Function.update_eq_self_iff.mpr]
        exact Option.not_isSome_iff_eq_none.mp hnone |>.symm
    have hrec : banNames (F := F) (name :: names) tx files =
        banNames names (tx.banName name) (if files.exists_ name then Function.update files name none else files) := by
      rw [banNames]
      split
      · rw [removeBlob_eq]
      · rfl
    rw [hrec, ih, hbans, hfiles]
    rfl

/-- The lists before the first that fails are ingested, whatever the end. -/
theorem banLists_eq (lists : List (Except (Fault F) (List Name))) : ∀ (tx : DB H K G) (files : Files),
    (banLists lists tx files).2 =
      ({ tx with nameBans := fun n => (reached lists).contains n || tx.nameBans n }, without (reached lists) files) := by
  induction lists with
  | nil => intro tx files; simp [banLists, reached]
  | cons l lists ih =>
    intro tx files
    match l with
    | .error .panic => simp [banLists, reached]
    | .error (.err e) => simp [banLists, reached]
    | .ok names =>
      have hbans : (fun n => (reached lists).contains n || (names.contains n || tx.nameBans n)) =
          fun n => (names ++ reached lists).contains n || tx.nameBans n := by
        funext n
        rw [List.contains_append, Bool.or_left_comm, Bool.or_assoc]
      simp only [banLists, banNames_eq, ih, reached, without_append, hbans]

/-- The names an ingest gets to; none if it is too early or the transaction does not open. -/
def ingested (opens : Except L Unit) (now : Time) (lists : List (Except (Fault F) (List Name))) (d : Disk H K G) :
    List Name :=
  match d.getLastBanListImportAt (ε := TxError L (IngestErr F)), opens with
  | .ok currRev, .ok () => if now - currRev < banListUpdateInterval then [] else reached lists
  | _, _ => []

/-- However an ingest ends: the files of those names are gone, and the headers are as before. -/
theorem ingestBanLists_cases (opens commits : Except L Unit) (now : Time) (lists : List (Except (Fault F) (List Name)))
    (d : Disk H K G) :
    (ingestBanLists opens commits now lists d).2.files = without (ingested opens now lists d) d.files ∧
    (ingestBanLists opens commits now lists d).2.db.headers = d.db.headers := by
  unfold ingestBanLists ingested
  cases d.getLastBanListImportAt (ε := TxError L (IngestErr F)) with
  | error f => simp
  | ok currRev =>
    by_cases hnow : now - currRev < banListUpdateInterval
    · cases opens <;> simp [hnow]
    cases opens with
    | error e => simp [hnow, withTx]
    | ok _ =>
      simp only [hnow, if_false]
      have hcb : (refreshBans lists d.db d.files).2 = _ := banLists_eq lists d.db.truncateBannedNames d.files
      refine ⟨Store.withTx_world.trans (congrArg Prod.snd hcb), ?_⟩
      rcases Store.withTx_db with hdb | hdb <;> rw [hdb]
      rw [hcb]
      rfl

end Fnd.Protocol

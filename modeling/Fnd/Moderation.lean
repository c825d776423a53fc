/-
  Fnd.Moderation — database transactions, and what a ban-list ingest leaves behind.

  A callback's writes are published whenever it returns, with an error or without, and the
  error of a commit is never reported (`withTx_allOrNothing_iff`): an ingest that fails on its
  second list has replaced the ban set by the first (`a_failed_ingest_replaces_the_ban_set`).

  An ingest removes the blobs of the listed names and no header. Through every run of ingests
  and opens the stored headers describe their blobs, and none has lost its file, exactly if no
  listed name with a file has a header of nonzero size (`headers_keep_their_blobs_iff`);
  otherwise the header stays, and once the name is off the lists a zero-filled blob is opened
  under it (`a_header_outlives_its_blob`).
-/

import Fnd.Lib.Machine
import Fnd.Protocol.Moderation
import Fnd.Symbolic

namespace Fnd.Moderation

open Blob (File Files Tx tip serialHash hashesOf maxSectors zeroSector)
open Store (DB Header TxCb withTx withTx_panic withTx_returned)
open Protocol

/-! ## Database transactions -/

section
variable {L D W ε : Type}

/-- What the callers of `WithTx` rely on: a callback that fails leaves the database as it was,
    one that does not has all its writes published, and a failed commit is reported. -/
structure AllOrNothing (commits : Except L Unit) (cb : TxCb D W ε) (db : D) (w : W) : Prop where
  discards : ∀ f, (cb db w).1 = .error f → (withTx (.ok ()) commits cb db w).2.1 = db
  publishes : (cb db w).1 = .ok () → commits = .ok () → (withTx (.ok ()) commits cb db w).2.1 = (cb db w).2.1
  reports : ∀ e, (cb db w).1 = .ok () → commits = .error e →
    (withTx (.ok ()) commits cb db w).1 = .error (.err (.commit e))

/-- For every callback and database: exactly if a callback that returns an error has written
    nothing, or the commit fails too; and the commit after one that does not succeeds. -/
theorem withTx_allOrNothing_iff (commits : Except L Unit) (cb : TxCb D W ε) (db : D) (w : W) :
    AllOrNothing commits cb db w ↔
      (∀ e, (cb db w).1 = .error (.err e) → (cb db w).2.1 = db ∨ commits ≠ .ok ()) ∧
      ((cb db w).1 = .ok () → commits = .ok ()) := by
  constructor
  · intro h
    refine ⟨fun e he => ?_, fun hok => ?_⟩
    · have hdb := h.discards _ he
      rw [(withTx_returned (by rw [he]; nofun)).2] at hdb
      cases commits with
      | error e' => exact .inr nofun
      | ok _ => exact .inl hdb
    · cases commits with
      | ok _ => rfl
      | error e =>
        have hres := h.reports e hok rfl
        rw [(withTx_returned (by rw [hok]; nofun)).1, hok] at hres
        cases hres
  · rintro ⟨herr, hok⟩
    refine ⟨fun f hf => ?_, fun hcb hc => ?_, fun e hcb hc => ?_⟩
    · cases f with
      | panic => exact withTx_panic hf
      | err e =>
        rw [(withTx_returned (by rw [hf]; nofun)).2]
        rcases herr e hf with hdb | hc
        · cases commits <;> simp [Store.commit, hdb]
        · cases commits with
          | error e' => rfl
          | ok _ => exact absurd rfl hc
    · rw [(withTx_returned (by rw [hcb]; nofun)).2, hc]
      rfl
    · rw [hok hcb] at hc
      cases hc

end

/-- A name is banned; of the two lists fetched now the first has another, the second fails. -/
def moderated : Disk Symbolic.Sym Nat Symbolic.Sig :=
  ⟨{ Symbolic.names with nameBans := fun name => name == Symbolic.site }, none, fun _ => none⟩

def twoLists : List (Except (Fault Unit) (List Name)) := [.ok [[0x62]], .error (.err ())]

/-- The ingest returns the error, and the old ban is gone. And an ingest whose commit fails
    returns none. -/
theorem a_failed_ingest_replaces_the_ban_set :
    let out := ingestBanLists (L := Unit) (.ok ()) (.ok ()) (Symbolic.weeks 6) twoLists moderated
    (out.1 = .error (.err (.callback (.fetching ()))) ∧ moderated.db.nameBans Symbolic.site = true ∧
      out.2.db.nameBans Symbolic.site = false ∧ out.2.db.nameBans [0x62] = true) ∧
    ¬ AllOrNothing (L := Unit) (.ok ()) (refreshBans twoLists) moderated.db moderated.files ∧
    ¬ AllOrNothing (.error ()) (refreshBans (F := Unit) []) moderated.db moderated.files := by
  refine ⟨⟨rfl, rfl, rfl, rfl⟩, fun h => ?_, fun h => ?_⟩
  · have hbans := congrArg (fun db => db.nameBans Symbolic.site) (h.discards _ rfl)
    exact absurd hbans (by decide)
  · cases h.reports () rfl rfl

/-! ## Headers and blobs -/

variable {H K G L F : Type}

inductive Event (L F : Type) where
  | ingest (opens commits : Except L Unit) (now : Time) (lists : List (Except (Fault F) (List Name)))
  | open_ (name : Name)

def step (d : Disk H K G) : Event L F → Disk H K G
  | .ingest opens commits now lists => (ingestBanLists opens commits now lists d).2
  | .open_ name => { d with files := (d.files.open_ name).2 }

/-- Every stored header's tip is that of `SerialHash` over its blob. -/
def TipsAgree [Zero H] [DecidableEq H] (P : Prims H K G) (d : Disk H K G) : Prop :=
  ∀ name header, d.db.headers name = some header → ∃ hashes,
    (serialHash P (d.files.content name) (Tx.new name) 0 header.sectorSize).1 = .ok hashes ∧
    header.sectorTipHash = tip hashes

/-- After a step every stored header agrees with its blob, and none of nonzero size has lost
    the file it had. -/
def Consistent [Zero H] [DecidableEq H] (P : Prims H K G) (d d' : Disk H K G) : Prop :=
  TipsAgree P d' ∧ ∀ name header, d'.db.headers name = some header → header.sectorSize ≠ 0 →
    d.files.exists_ name = true → d'.files.exists_ name = true

def listed (d : Disk H K G) : Event L F → List Name
  | .ingest opens _ now lists => ingested opens now lists d
  | .open_ _ => []

/-- No listed name with a file has a header of nonzero size. -/
def Spares (d : Disk H K G) (e : Event L F) : Prop :=
  ∀ name ∈ listed d e, d.files.exists_ name = true → ∀ header ∈ d.db.headers name, header.sectorSize = 0

instance (d : Disk H K G) (e : Event L F) : Decidable (Spares d e) :=
  inferInstanceAs (Decidable (∀ name ∈ listed d e, d.files.exists_ name = true →
    ∀ header ∈ d.db.headers name, header.sectorSize = 0))

theorem tipsAgree_iff [Zero H] [DecidableEq H] {P : Prims H K G} (d : Disk H K G) : TipsAgree P d ↔
    ∀ name header, d.db.headers name = some header → header.sectorSize.toNat ≤ maxSectors ∧
      header.sectorTipHash = tip (hashesOf P ((d.files.content name).sectors header.sectorSize.toNat)) := by
  refine forall₃_congr fun name header _ => ?_
  simp only [Blob.serialHash_new_ok_iff, and_assoc, exists_and_left, exists_eq_left]

/-- A step keeps the headers. A listed file is gone, any other name's content is as it was. -/
theorem step_cases (d : Disk H K G) (e : Event L F) :
    (step d e).db.headers = d.db.headers ∧ (∀ name ∈ listed d e, (step d e).files name = none) ∧
    ∀ name, name ∉ listed d e → (step d e).files.content name = d.files.content name ∧
      (d.files.exists_ name = true → (step d e).files.exists_ name = true) := by
  cases e with
  | ingest opens commits now lists =>
    obtain ⟨hfiles, hheaders⟩ := ingestBanLists_cases opens commits now lists d
    refine ⟨hheaders, fun name hname => ?_, fun name hname => ?_⟩
    · exact (congrFun hfiles name).trans (without_of_mem hname _)
    · have hkept : (ingestBanLists opens commits now lists d).2.files name = d.files name :=
        (congrFun hfiles name).trans (without_of_not_mem hname _)
      exact ⟨congrArg (Option.getD · File.zero) hkept, fun hexists => (congrArg Option.isSome hkept).trans hexists⟩
  | open_ opened =>
    exact ⟨rfl, nofun, fun name _ => ⟨congrFun (Files.content_open d.files opened).2 name,
      fun hexists => Files.exists_open hexists opened⟩⟩

/-- What a header describes of its blob stays if its name is spared: without sectors, without
    a file before, or not listed. -/
theorem spared_sectors {d : Disk H K G} {e : Event L F} (hs : Spares d e) {name : Name} {header : Header H G}
    (hh : (step d e).db.headers name = some header) :
    ((step d e).files.content name).sectors header.sectorSize.toNat =
      (d.files.content name).sectors header.sectorSize.toNat := by
  obtain ⟨hheaders, hgone, hkept⟩ := step_cases d e
  by_cases hname : name ∈ listed d e
  · by_cases hexists : d.files.exists_ name = true
    · rw [hs name hname hexists header (by rw [← hheaders]; exact hh)]
      rfl
    · have hnone : d.files name = none := Option.not_isSome_iff_eq_none.mp hexists
      rw [Files.content, Files.content, hgone name hname, hnone]
  · rw [(hkept name hname).1]

theorem step_consistent_iff [Zero H] [DecidableEq H] {P : Prims H K G} {d : Disk H K G} (h : TipsAgree P d)
    (e : Event L F) : Consistent P d (step d e) ↔ Spares d e := by
  obtain ⟨hheaders, hgone, hkept⟩ := step_cases d e
  constructor
  · rintro ⟨-, hfiles⟩ name hname hexists header hh
    by_contra hsize
    have hstill := hfiles name header (by rw [hheaders]; exact hh) hsize hexists
    rw [Files.exists_, hgone name hname] at hstill
    cases hstill
  · intro hspares
    refine ⟨?_, fun name header hh hsize hexists => ?_⟩
    · rw [tipsAgree_iff] at h ⊢
      intro name header hh
      rw [spared_sectors hspares hh]
      exact h name header (by rw [← hheaders]; exact hh)
    · by_cases hname : name ∈ listed d e
      · exact absurd (hspares name hname hexists header (by rw [← hheaders]; exact hh)) hsize
      · exact (hkept name hname).2 hexists

/-- Over every run of ingests, whatever they fetch and however they end, and opens of any
    blobs. -/
theorem headers_keep_their_blobs_iff [Zero H] [DecidableEq H] (P : Prims H K G) (d : Disk H K G)
    (hagrees : TipsAgree P d) (es : List (Event L F)) :
    Machine.Along step (fun d e => Consistent P d (step d e)) d es ↔ Machine.Along step Spares d es :=
  Machine.along_iff (TipsAgree P) (fun _ e h => step_consistent_iff h e) (fun _ _ _ h => h.1) es d hagrees

/-- The name is listed for a week, and opened afterwards. -/
def aWeekOnTheList (name : Name) : List (Event Unit Unit) :=
  [.ingest (.ok ()) (.ok ()) (Symbolic.weeks 6) [.ok [name]], .ingest (.ok ()) (.ok ()) (Symbolic.weeks 7) [], .open_ name]

def blob : File := File.zero.writeSector 0 (Symbolic.fill 1)

def header : Header Symbolic.Sym Symbolic.Sig :=
  ⟨Symbolic.site, 5, 1, Symbolic.tipOf [Symbolic.fill 1], Symbolic.sign 5 1 (Symbolic.tipOf [Symbolic.fill 1]), 0,
    Symbolic.weeks 6⟩

/-- A name without a header. -/
def elsewhere : Name := [0x62]

/-- The blob of the header, and a file of the other name. -/
def stocked : Disk Symbolic.Sym Nat Symbolic.Sig :=
  ⟨Symbolic.names.setHeader header (hashesOf Symbolic.prims (blob.sectors 1)), none,
    Function.update (Function.update (fun _ => none) Symbolic.site (some blob)) elsewhere (some File.zero)⟩

theorem stocked_agrees : TipsAgree Symbolic.prims stocked := by
  rw [tipsAgree_iff]
  intro name h hh
  by_cases hname : name = Symbolic.site
  · subst hname
    obtain rfl : header = h := Option.some.inj hh
    exact ⟨by decide, by decide +kernel⟩
  · rw [show stocked.db.headers name = none from Function.update_of_ne hname _ _] at hh
    cases hh

theorem a_blob_without_a_header_is_removed :
    (Machine.run step stocked ((aWeekOnTheList elsewhere).take 1)).files elsewhere = none ∧
    Machine.Along step (fun d e => Consistent Symbolic.prims d (step d e)) stocked (aWeekOnTheList elsewhere) :=
  ⟨by decide +kernel, (headers_keep_their_blobs_iff Symbolic.prims stocked stocked_agrees _).mpr (by decide +kernel)⟩

/-- The ingests succeed and the name is not banned in the end; its header claims a sector
    that reads as zeros. -/
theorem a_header_outlives_its_blob :
    let d := Machine.run step stocked (aWeekOnTheList Symbolic.site)
    TipsAgree Symbolic.prims stocked ∧
    (ingestBanLists (L := Unit) (F := Unit) (.ok ()) (.ok ()) (Symbolic.weeks 6) [.ok [Symbolic.site]] stocked).1 = .ok () ∧
    d.db.nameBans Symbolic.site = false ∧ d.db.headers Symbolic.site = some header ∧
    (d.files.content Symbolic.site).sectors 1 = [zeroSector] ∧ ¬ TipsAgree Symbolic.prims d := by
  refine ⟨stocked_agrees, rfl, rfl, rfl, by decide +kernel, fun h => ?_⟩
  obtain ⟨-, htip⟩ := (tipsAgree_iff _).mp h Symbolic.site header rfl
  exact absurd htip (by decide +kernel)

end Fnd.Moderation

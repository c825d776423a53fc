/-
  Fnd.Outcome — whether `UpdateBlob` reports what it did (`protocol/updater.go`).

  A call is faithful when it does not panic, returns nil exactly when it stored a header of
  the item's version and committed the blob, and leaves header, sector hashes and blob alone
  when it returns an error. It is exactly when (`updateBlob_faithful_iff`):
  - the name's ban record, if the checks come to it, decodes;
  - the sync does not time out, or the item has more sectors than a blob: else the nil update
    is dereferenced;
  - what was synced hashes to the tip the response was checked with: else the error that is
    returned wraps a nil one, and nothing was stored;
  - the count of headers, read when the name gets its first one, decodes;
  - the last import height, read after both writes for the gossip, decodes.
  `a_timeout_panics_and_a_mismatch_returns_nil` has the two that any peer can bring about.
-/

import Fnd.Protocol.UpdateServer
import Fnd.Sync

namespace Fnd.Protocol

open Blob (File Tx tip hashesOf serialHash maxSectors)
open Store (DB Header)
open Store.DB (Decodes)
open Wire (BlobRes)
open Node (version)

variable {H K G : Type} [Zero H] [DecidableEq H]

/-! ## What a faithful call is -/

/-- The header is of the item's version; it and its sector hashes are stored, and the transaction
    with a response's payload is committed. -/
def Committed (P : Prims H K G) (item : UpdateQueueItem H K) (msgs : List (BlobRes H G)) (header : Header H G)
    (s s' : Shared H K G) : Prop :=
  header.name = item.name ∧ header.epochHeight = item.epochHeight ∧ header.sectorSize = item.sectorSize ∧
  ∃ plan, ∃ msg ∈ msgs,
    s'.db = s.db.setHeader header (syncedHashes P item plan (s.blobs item.name) msg.payload) ∧
    s'.blobs = Function.update s.blobs item.name (synced item plan (s.blobs item.name) msg.payload)

/-- The name's header, sector hashes and blob are as before. -/
structure Untouched (name : Name) (s s' : Shared H K G) : Prop where
  header : s'.db.headers name = s.db.headers name
  sectorHashes : s'.db.sectorHashes name = s.db.sectorHashes name
  blob : s'.blobs name = s.blobs name

structure Faithful (P : Prims H K G) (now : Time) (item : UpdateQueueItem H K) (msgs : List (BlobRes H G))
    (s : Shared H K G) : Prop where
  noPanic : (updateBlobToEnd P now item msgs s).1 ≠ .error .panic
  nil_iff : (∃ p, (updateBlobToEnd P now item msgs s).1 = .ok p) ↔
    ∃ header, storedIn (updateBlobToEnd P now item msgs s).1 = some header ∧
      Committed P item msgs header s (updateBlobToEnd P now item msgs s).2
  error : ∀ e, (updateBlobToEnd P now item msgs s).1 = .error (.err e) →
    Untouched item.name s (updateBlobToEnd P now item msgs s).2

/-! ## When it is -/

def syncOf (P : Prims H K G) (now : Time) (item : UpdateQueueItem H K) (plan : Plan H) (msgs : List (BlobRes H G))
    (s : Shared H K G) : Except (Fault SyncErr) (Option (SyncUpdate H G)) × Sync H K G :=
  syncSectors P now (plan.opts item.name) (s.blobs item.name) ⟨s.db, startTx item plan, []⟩ msgs

/-- The call comes to its sync: the item is admitted, the name free, the transaction open. -/
structure Syncs (P : Prims H K G) (now : Time) (item : UpdateQueueItem H K) (plan : Plan H) (s : Shared H K G) : Prop where
  check : check P now s.db item = .ok plan
  free : s.locks item.name = ⟨0, 0⟩
  tx : openTx P now item plan = .ok (startTx item plan)

structure Clean (P : Prims H K G) (now : Time) (item : UpdateQueueItem H K) (msgs : List (BlobRes H G))
    (s : Shared H K G) : Prop where
  ban : (∀ header ∈ s.db.headers item.name,
      version header.epochHeight header.sectorSize < version item.epochHeight item.sectorSize) →
    ∀ n ∈ s.db.headerBans item.name, Decodes n
  sync : ∀ plan, Syncs P now item plan s → (syncOf P now item plan msgs s).1 ≠ .error .panic
  timeout : ∀ plan, Syncs P now item plan s → (syncOf P now item plan msgs s).1 = .ok none →
    maxSectors < item.sectorSize.toNat
  tip : ∀ plan u, Syncs P now item plan s → (syncOf P now item plan msgs s).1 = .ok (some u) →
    item.sectorSize.toNat ≤ maxSectors →
    u.sectorTipHash =
      tip (hashesOf P (((syncOf P now item plan msgs s).2.tx.view (s.blobs item.name)).sectors item.sectorSize.toNat))
  count : ∀ plan u, Syncs P now item plan s → (syncOf P now item plan msgs s).1 = .ok (some u) →
    item.sectorSize.toNat ≤ maxSectors → s.db.headers item.name = none → Decodes s.db.headerCount
  height : ∀ plan u, Syncs P now item plan s → (syncOf P now item plan msgs s).1 = .ok (some u) →
    item.sectorSize.toNat ≤ maxSectors → Decodes s.db.lastNameImportHeight

section

variable {P : Prims H K G} {now : Time} {item : UpdateQueueItem H K} {plan : Plan H} {msgs : List (BlobRes H G)}
  {s : Shared H K G}

omit [Zero H] [DecidableEq H] in
theorem getHeaderBan_panic_iff {db : DB H K G} {name : Name} :
    db.getHeaderBan (ε := UpdaterErr) name = .error .panic ↔ ∃ n ∈ db.headerBans name, ¬ Decodes n := by
  cases hb : db.headerBans name with
  | none => simp [DB.getHeaderBan, hb]
  | some n =>
    simp only [DB.getHeaderBan, hb, DB.mustDecodeInt, Option.mem_some_iff, exists_eq_left', Decodes]
    by_cases hn : n > 2147483647
    · simp only [if_pos hn, true_iff]
      omega
    · simp only [if_neg hn, reduceCtorEq, false_iff]
      omega

omit [Zero H] [DecidableEq H] in
theorem takesHeader_iff {db : DB H K G} {name : Name} :
    db.TakesHeader name ↔ (db.headers name = none → Decodes db.headerCount) := by
  cases hh : db.headers name with
  | none =>
    simp only [DB.TakesHeader, hh, Option.isSome_none, Bool.false_eq_true, false_or, Decodes, forall_const]
    omega
  | some header => simp [DB.TakesHeader, hh]

omit [DecidableEq H] in
/-- The checks panic exactly when they come to a ban record that does not decode. -/
theorem check_panic_iff {db : DB H K G} : check P now db item = .error .panic ↔
    (∀ header ∈ db.headers item.name,
      version header.epochHeight header.sectorSize < version item.epochHeight item.sectorSize) ∧
    ∃ n ∈ db.headerBans item.name, ¬ Decodes n := by
  rw [← getHeaderBan_panic_iff]
  have hban : ∀ f, db.getHeaderBan (ε := UpdaterErr) item.name = .error f → f = .panic := fun f => DB.getHeaderBan_error
  cases hh : db.headers item.name with
  | none =>
    have h0 : ¬ item.epochHeight < 0 := by simp
    simp only [check, hh, Option.any_none, Plan.ofHeader, Bool.false_eq_true, if_false, if_neg h0]
    cases hb : db.getHeaderBan (ε := UpdaterErr) item.name with
    | error f => simp [hban f hb]
    | ok bannedAt => simp
  | some header =>
    simp only [Option.mem_some_iff, forall_eq', ← check_newer P now hh]
    constructor
    · intro hc
      refine ⟨⟨by simp [hc], by simp [hc]⟩, ?_⟩
      cases hb : db.getHeaderBan (ε := UpdaterErr) item.name with
      | error f => rw [hban f hb]
      | ok bannedAt =>
        simp only [check, hh, hb] at hc
        split at hc
        · cases hc
        split at hc
        · cases hc
        split at hc
        · split at hc <;> cases hc
        · cases hc
    · rintro ⟨⟨hsync, hback⟩, hb⟩
      by_cases h1 : (header.epochHeight == item.epochHeight && decide (header.sectorSize ≥ item.sectorSize)) = true
      · exact absurd (by simp only [check, hh, Option.any_some, if_pos h1]) hsync
      by_cases h2 : item.epochHeight < header.epochHeight
      · exact absurd (by simp only [check, hh, Option.any_some, if_neg h1, Plan.ofHeader, if_pos h2]) hback
      · simp only [check, hh, Option.any_some, if_neg h1, Plan.ofHeader, if_neg h2, hb]

omit [Zero H] in
theorem syncSectors_timeout {opts : SyncSectorsOpts H} {b : File} {y y' : Sync H K G} {msgs : List (BlobRes H G)}
    (h : syncSectors P now opts b y msgs = (.ok none, y')) : y' = y := by
  induction msgs with
  | nil => cases h; rfl
  | cons msg msgs ih =>
    rcases receive_cases P now opts b y msg with hs | hs | ⟨e, hs⟩ | ⟨he, -, header, hh⟩ | hu
    · simp only [syncSectors, hs] at h
      exact ih h
    · simp only [syncSectors, hs] at h
      cases h
    · simp only [syncSectors, hs] at h
      cases h
    · simp only [syncSectors, receive_equivocates now b he hh] at h
      cases h
    · simp only [syncSectors, receive_usable now b hu] at h
      cases h

theorem toEnd_error {f : Fault UpdaterErr} {s' : Shared H K G} (h : updateBlob P now item msgs s = (.error f, s')) :
    updateBlobToEnd P now item msgs s = (.error f, s') := by
  simp only [updateBlobToEnd, h, readImportHeight]

theorem faithful_of_error {e : UpdaterErr} {s' : Shared H K G} (h : updateBlob P now item msgs s = (.error (.err e), s'))
    (hu : Untouched item.name s s') : Faithful P now item msgs s := by
  have hend := toEnd_error h
  refine ⟨?_, ?_, fun _ _ => ?_⟩
  · rw [hend]
    simp
  · rw [hend]
    exact iff_of_false (by simp) (by simp [storedIn])
  · rw [hend]
    exact hu

theorem not_faithful_of_panic {s' : Shared H K G} (h : updateBlob P now item msgs s = (.error .panic, s')) :
    ¬ Faithful P now item msgs s := by
  intro hf
  exact hf.noPanic (by rw [toEnd_error h])

omit [DecidableEq H] in
/-- The ban record is no obstacle to an item whose checks do not panic. -/
theorem ban_of_check (hc : check P now s.db item ≠ .error .panic)
    (hnewer : ∀ header ∈ s.db.headers item.name,
      version header.epochHeight header.sectorSize < version item.epochHeight item.sectorSize)
    (n : Nat) (hn : n ∈ s.db.headerBans item.name) : Decodes n := by
  by_contra hdec
  exact hc (check_panic_iff.mpr ⟨hnewer, n, hn, hdec⟩)

omit [Zero H] [DecidableEq H] in
theorem Untouched.refl (name : Name) (s : Shared H K G) : Untouched name s s := ⟨rfl, rfl, rfl⟩

theorem faithful_iff_of_not_syncs (h : ∀ plan, ¬ Syncs P now item plan s) :
    Faithful P now item msgs s ↔ Clean P now item msgs s := by
  have hclean (hc : check P now s.db item ≠ .error .panic) : Clean P now item msgs s :=
    ⟨ban_of_check hc, fun plan hp => (h plan hp).elim, fun plan hp => (h plan hp).elim,
      fun plan u hp => (h plan hp).elim, fun plan u hp => (h plan hp).elim, fun plan u hp => (h plan hp).elim⟩
  cases hc : check P now s.db item with
  | error f =>
    cases f with
    | panic =>
      obtain ⟨hnewer, n, hn, hdec⟩ := check_panic_iff.mp hc
      have hpanic : updateBlob P now item msgs s = (.error .panic, s) := by simp only [updateBlob, hc]
      exact iff_of_false (not_faithful_of_panic hpanic) fun hclean => hdec (hclean.ban hnewer n hn)
    | err e =>
      have herr : updateBlob P now item msgs s = (.error (.err e), s) := by simp only [updateBlob, hc]
      exact iff_of_true (faithful_of_error herr (.refl _ _)) (hclean (by simp [hc]))
  | ok plan =>
    have hclean := hclean (by simp [hc])
    cases hl : s.locks.tryLock item.name with
    | none =>
      have herr : updateBlob P now item msgs s = (.error (.err .nameLocked), s) := by simp only [updateBlob, hc, hl]
      exact iff_of_true (faithful_of_error herr (.refl _ _)) hclean
    | some locks =>
      have hfree := (Util.MultiLocker.tryLock_eq_some.mp hl).1
      have heq := updateBlob_eq msgs hc hfree
      cases ho : openTx P now item plan with
      | error e =>
        have herr : updateBlob P now item msgs s = (.error (.err e), s) := by rw [heq]; simp only [apply, ho]
        exact iff_of_true (faithful_of_error herr (.refl _ _)) hclean
      | ok tx =>
        have htx : tx = startTx item plan := by
          rw [openTx_eq] at ho
          split at ho
          · cases ho
          · split at ho <;> cases ho
            rfl
        exact absurd ⟨hc, hfree, htx ▸ ho⟩ (h plan)

theorem clean_iff_of_syncs (h : Syncs P now item plan s) : Clean P now item msgs s ↔
    (syncOf P now item plan msgs s).1 ≠ .error .panic ∧
    ((syncOf P now item plan msgs s).1 = .ok none → maxSectors < item.sectorSize.toNat) ∧
    ∀ u, (syncOf P now item plan msgs s).1 = .ok (some u) → item.sectorSize.toNat ≤ maxSectors →
      u.sectorTipHash =
        tip (hashesOf P (((syncOf P now item plan msgs s).2.tx.view (s.blobs item.name)).sectors item.sectorSize.toNat)) ∧
      s.db.TakesHeader item.name ∧ Decodes s.db.lastNameImportHeight := by
  have hplan : ∀ plan', Syncs P now item plan' s → plan' = plan := by
    intro plan' h'
    exact Except.ok.inj (h'.check.symm.trans h.check)
  constructor
  · intro hc
    exact ⟨hc.sync plan h, hc.timeout plan h, fun u hu hle =>
      ⟨hc.tip plan u h hu hle, takesHeader_iff.mpr (hc.count plan u h hu hle), hc.height plan u h hu hle⟩⟩
  · rintro ⟨hsync, htime, hu⟩
    have hpass : check P now s.db item ≠ .error .panic := by simp [h.check]
    refine ⟨ban_of_check hpass, fun p hp => ?_, fun p hp => ?_, fun p u hp hs hle => ?_,
      fun p u hp hs hle => ?_, fun p u hp hs hle => ?_⟩ <;> obtain rfl := hplan p hp
    · exact hsync
    · exact htime
    · exact (hu u hs hle).1
    · exact takesHeader_iff.mp (hu u hs hle).2.1
    · exact (hu u hs hle).2.2

/-- A call that stored is faithful as far as the import height can be read. -/
theorem faithful_of_stored (h : Syncs P now item plan s) {msg : BlobRes H G} (hmem : msg ∈ msgs)
    (hst : Stores P now item plan s msg)
    (hsync : syncOf P now item plan msgs s =
      (.ok (some (updateOf P msg)), ⟨s.db, writeSectors (s.blobs item.name) (startTx item plan) msg.payload, []⟩)) :
    Faithful P now item msgs s ↔ Decodes s.db.lastNameImportHeight := by
  have hend := updateBlobToEnd_stored ((updateBlob_eq msgs h.check h.free).trans (apply_stores hst hsync))
  by_cases hdec : Decodes s.db.lastNameImportHeight
  · replace hend := hend.trans (if_pos hdec)
    refine iff_of_true ⟨?_, ?_, fun e he => ?_⟩ hdec
    · rw [hend]
      simp
    · rw [hend]
      exact iff_of_true ⟨_, rfl⟩ ⟨storedHeader P now item plan s msg, rfl, rfl, rfl, rfl, plan, msg, hmem, rfl, rfl⟩
    · rw [hend] at he
      cases he
  · refine iff_of_false (fun hf => hf.noPanic ?_) hdec
    rw [hend.trans (if_neg hdec)]

/-- A usable response that ends at the item's size and tip is stored. -/
theorem Syncs.stores (h : Syncs P now item plan s) {msg : BlobRes H G} (hu : Usable P s.db (plan.opts item.name) msg)
    (hsize : item.sectorSize.toNat ≤ maxSectors)
    (htip : (updateOf P msg).sectorTipHash = tip (syncedHashes P item plan (s.blobs item.name) msg.payload))
    (hcount : s.db.TakesHeader item.name) : Stores P now item plan s msg := by
  have ho := h.tx
  rw [openTx_eq] at ho
  split at ho
  · cases ho
  rename_i hsched
  split at ho
  · rename_i hseek
    exact ⟨hu, hseek, fun hc => UInt16.not_lt.mp fun hlt => hsched ⟨hc, hlt⟩, hsize, htip.symm, hcount⟩
  · cases ho

theorem faithful_iff_of_used (h : Syncs P now item plan s) {msg : BlobRes H G} (hmem : msg ∈ msgs)
    (hu : Usable P s.db (plan.opts item.name) msg)
    (hsync : syncOf P now item plan msgs s =
      (.ok (some (updateOf P msg)), ⟨s.db, writeSectors (s.blobs item.name) (startTx item plan) msg.payload, []⟩)) :
    Faithful P now item msgs s ↔ Clean P now item msgs s := by
  have heq := updateBlob_eq msgs h.check h.free
  rw [clean_iff_of_syncs h, hsync]
  rw [syncOf] at hsync
  obtain ⟨tx, hhash, -⟩ := serialHash_synced P item plan (s.blobs item.name) msg.payload
  by_cases hsize : item.sectorSize.toNat ≤ maxSectors
  · rw [if_pos hsize] at hhash
    by_cases htip : (updateOf P msg).sectorTipHash = tip (syncedHashes P item plan (s.blobs item.name) msg.payload)
    · by_cases hcount : s.db.TakesHeader item.name
      · rw [faithful_of_stored h hmem (h.stores hu hsize htip hcount) hsync]
        constructor
        · intro hdec
          refine ⟨by simp, by simp, fun u hu' _ => ?_⟩
          cases hu'
          exact ⟨htip, hcount, hdec⟩
        · intro hc
          exact (hc.2.2 _ rfl hsize).2.2
      · -- the count is read after the tip was compared, before anything is written
        have hpanic : updateBlob P now item msgs s = (.error .panic, s) := by
          rw [heq]
          have htakes : ¬ s.db.TakesHeader (headerOf now item plan
            (syncedHashes P item plan (s.blobs item.name) msg.payload) (updateOf P msg)).name := hcount
          simp only [apply, h.tx, hsync, hhash, ne_eq, htip, not_true_eq_false, if_false, DB.setHeaderTx_panic htakes]
        exact iff_of_false (not_faithful_of_panic hpanic) fun hc => hcount (hc.2.2 _ rfl hsize).2.1
    · have hmis : updateBlob P now item msgs s = (.ok ⟨none, []⟩, s) := by
        rw [heq]
        simp only [apply, h.tx, hsync, hhash, ne_eq, htip, not_false_eq_true, if_true]
      refine iff_of_false (fun hf => ?_) fun hc => htip (hc.2.2 _ rfl hsize).1
      have hend : updateBlobToEnd P now item msgs s = (.ok ⟨none, []⟩, s) := by
        simp only [updateBlobToEnd, hmis, readImportHeight]
      obtain ⟨header, hstored, -⟩ := hf.nil_iff.mp ⟨_, by rw [hend]⟩
      rw [hend] at hstored
      cases hstored
  · rw [if_neg hsize] at hhash
    have herr : updateBlob P now item msgs s = (.error (.err (.hash .eof)), s) := by
      rw [heq]
      simp only [apply, h.tx, hsync, hhash]
    exact iff_of_true (faithful_of_error herr (.refl _ _)) ⟨by simp, by simp, fun _ _ hle => absurd hle hsize⟩

/-- A call whose sync timed out: the rehash fails, or the nil update is dereferenced. -/
theorem faithful_iff_of_timeout (h : Syncs P now item plan s) {y : Sync H K G}
    (hsync : syncOf P now item plan msgs s = (.ok none, y)) : Faithful P now item msgs s ↔ Clean P now item msgs s := by
  have heq := updateBlob_eq msgs h.check h.free
  rw [clean_iff_of_syncs h, hsync]
  rw [syncOf] at hsync
  obtain rfl := syncSectors_timeout hsync
  have hhash := Blob.serialHash_eq P (startTx_live item plan) (s.blobs item.name) item.sectorSize
  by_cases hsize : item.sectorSize.toNat ≤ maxSectors
  · rw [if_pos hsize] at hhash
    have hpanic : updateBlob P now item msgs s = (.error .panic, s) := by
      rw [heq]
      simp only [apply, h.tx, hsync, hhash]
    exact iff_of_false (not_faithful_of_panic hpanic) fun hc => absurd (hc.2.1 rfl) (Nat.not_lt.mpr hsize)
  · rw [if_neg hsize] at hhash
    have herr : updateBlob P now item msgs s = (.error (.err (.hash .eof)), s) := by
      rw [heq]
      simp only [apply, h.tx, hsync, hhash]
    exact iff_of_true (faithful_of_error herr (.refl _ _)) ⟨by simp, fun _ => Nat.not_le.mp hsize, by simp⟩

theorem faithful_iff_of_syncs (h : Syncs P now item plan s) :
    Faithful P now item msgs s ↔ Clean P now item msgs s := by
  have heq := updateBlob_eq msgs h.check h.free
  rcases syncSectors_cases P now (plan.opts item.name) (s.blobs item.name) ⟨s.db, startTx item plan, []⟩ msgs with
    ⟨msg, hmem, -, hu, hsync⟩ | ⟨r, y, hsync, hnone, hban⟩
  · exact faithful_iff_of_used h hmem hu hsync
  have hof : syncOf P now item plan msgs s = (r, y) := hsync
  rcases r with (e | _) | u
  · have herr : updateBlob P now item msgs s = (.error (.err (.sync e)), { s with db := y.db }) := by
      rw [heq]
      simp only [apply, h.tx, hsync]
    have hun : Untouched item.name s { s with db := y.db } :=
      ⟨congrFun hban.sameHeaders.headers _, congrFun hban.sameHeaders.sectorHashes _, rfl⟩
    rw [clean_iff_of_syncs h, hof]
    exact iff_of_true (faithful_of_error herr hun) ⟨by simp, by simp, by simp⟩
  · have hpanic : updateBlob P now item msgs s = (.error .panic, { s with db := y.db }) := by
      rw [heq]
      simp only [apply, h.tx, hsync]
    rw [clean_iff_of_syncs h, hof]
    exact iff_of_false (not_faithful_of_panic hpanic) fun hc => hc.1 rfl
  · cases u with
    | some u => exact absurd rfl (hnone u)
    | none => exact faithful_iff_of_timeout h hof

/-- For every item, every state and every outcome of the sync. -/
theorem updateBlob_faithful_iff (P : Prims H K G) (now : Time) (item : UpdateQueueItem H K) (msgs : List (BlobRes H G))
    (s : Shared H K G) : Faithful P now item msgs s ↔ Clean P now item msgs s := by
  by_cases h : ∃ plan, Syncs P now item plan s
  · obtain ⟨plan, h⟩ := h
    exact faithful_iff_of_syncs h
  · exact faithful_iff_of_not_syncs fun plan hp => h ⟨plan, hp⟩

end

/-- Nobody answers in time: a panic. A publisher that announces two sectors and sends one: nil,
    and nothing is stored. -/
theorem a_timeout_panics_and_a_mismatch_returns_nil :
    let r := updateBlobToEnd Symbolic.prims (Symbolic.weeks 5) (Symbolic.item 5 2)
      [Symbolic.res 5 [] [Symbolic.fill 1]] Symbolic.fresh
    (updateBlobToEnd Symbolic.prims (Symbolic.weeks 5) (Symbolic.item 5 1) [] Symbolic.fresh).1 = .error .panic ∧
    r.1 = .ok ⟨none, []⟩ ∧ r.2.db.headers Symbolic.site = none := by
  decide +kernel

end Fnd.Protocol

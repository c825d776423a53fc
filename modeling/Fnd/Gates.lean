/-
  Fnd.Gates — two gates an announced update passes, `Enqueue` and the checks of `UpdateBlob`.

  The future: the checks bound the epoch of an item only over a stored header with a lower
  one. `UpdateBlob` looks at the clock once more, but at the epoch of its plan, which is 0
  on first sight. So what is stored lies at most one epoch ahead exactly when a first item,
  or the header it appends to, does (`stored_epoch_not_ahead_iff`); a first item can pin
  its name at any epoch (`a_first_item_pins_the_epoch`).

  The ban: `UpdateBlob` lets a name recover after its week, at two epochs above the stored
  one. `Enqueue` refuses every name that has a ban record, whatever its age. So of the
  updates the checks admit, `Enqueue` refuses none for a header ban exactly if there is
  no record, or it never gets to look (`recovery_passes_enqueue_iff`,
  `a_recovery_is_refused`).
-/

import Fnd.Bans

namespace Fnd.Protocol

open Store (DB Header NameInfo)
open Wire (BlobRes Update)

variable {H K G : Type}

/-! ## Epochs ahead of the clock -/

/-- Not more than one above the name's current epoch, as numbers. -/
def WithinNext (P : Prims H K G) (t : Time) (name : Name) (epochHeight : UInt16) : Prop :=
  epochHeight.toNat ≤ (currentEpoch P t name).toNat + 1

instance (P : Prims H K G) (t : Time) (name : Name) (e : UInt16) : Decidable (WithinNext P t name e) :=
  inferInstanceAs (Decidable (_ ≤ _))

/-- A first item is for the next epoch at most, and so is the header an item appends to. -/
def NotAhead (P : Prims H K G) (t : Time) (db : DB H K G) (item : UpdateQueueItem H K) : Prop :=
  match db.headers item.name with
  | none => WithinNext P t item.name item.epochHeight
  | some header => header.epochHeight = item.epochHeight → WithinNext P t item.name header.epochHeight

/-- The `uint16` comparison with `CurrentEpoch+1`, which can wrap, is no weaker. -/
theorem withinNext_of_le {P : Prims H K G} {t : Time} {name : Name} {e : UInt16} (h : e ≤ currentEpoch P t name + 1) :
    WithinNext P t name e := by
  have hle := UInt16.le_iff_toNat_le.mp h
  rw [UInt16.toNat_add] at hle
  exact Nat.le_trans hle (Nat.mod_le _ _)

section

variable [Zero H] [DecidableEq H] {P : Prims H K G} {t : Time} {item : UpdateQueueItem H K} {plan : Plan H}
  {msgs : List (BlobRes H G)} {s : Shared H K G} {header : Header H G}

/-- What is stored is for the item's name and epoch, and was held against the clock at the
    plan's epoch if that is a new one. -/
theorem apply_stored (h : storedIn (apply P t item plan msgs s).1 = some header) :
    header.name = item.name ∧ header.epochHeight = item.epochHeight ∧
      (plan.epochUpdated = true → plan.epochHeight ≤ currentEpoch P t item.name + 1) := by
  rcases apply_cases P t item plan msgs s with ⟨msg, -, -, hst, heq⟩ | ⟨r, db, heq, hnone, -⟩
  · rw [heq] at h
    obtain rfl := Option.some.inj h
    exact ⟨rfl, rfl, hst.schedule⟩
  · rw [heq] at h
    exact absurd (hnone.symm.trans h) nofun

/-- `UpdateBlob` checks the item at `t₀` and, whatever happened in between, stores a header
    at `t`: at most one epoch ahead exactly if the item was not ahead. -/
theorem stored_epoch_not_ahead_iff (P : Prims H K G) (t₀ t : Time) (db : DB H K G) (item : UpdateQueueItem H K)
    (plan : Plan H) (msgs : List (BlobRes H G)) (s : Shared H K G) (header : Header H G)
    (hcheck : check P t₀ db item = .ok plan) (hstored : storedIn (apply P t item plan msgs s).1 = some header) :
    WithinNext P t header.name header.epochHeight ↔ NotAhead P t db item := by
  obtain ⟨hname, hepoch, hsched⟩ := apply_stored hstored
  rw [hname, hepoch]
  unfold NotAhead
  rcases check_cases hcheck with ⟨hnone, -⟩ | ⟨old, hold, he, -⟩ | ⟨old, bannedAt, hold, hlt, -, -, rfl⟩
  · rw [hnone]
  · rw [hold, ← he]
    exact ⟨fun h _ => h, fun h => h rfl⟩
  · rw [hold]
    have hnext := withinNext_of_le (hsched rfl)
    exact ⟨fun _ heq => absurd (heq ▸ hlt) (UInt16.lt_irrefl _), fun _ => hnext⟩

end

/-- A first item for epoch 7, in the sixth. -/
theorem a_first_item_for_the_next_epoch :
    ∃ plan header, check Symbolic.prims (Symbolic.weeks 6) Symbolic.names (Symbolic.item 7 1) = .ok plan ∧
      storedIn (apply Symbolic.prims (Symbolic.weeks 6) (Symbolic.item 7 1) plan [Symbolic.res 7 [] [Symbolic.fill 0]]
        Symbolic.fresh).1 = some header ∧
      WithinNext Symbolic.prims (Symbolic.weeks 6) header.name header.epochHeight := by
  have hcheck : check Symbolic.prims (Symbolic.weeks 6) Symbolic.names (Symbolic.item 7 1) = .ok ⟨0, 0, 0, true⟩ := rfl
  have hsome : (storedIn (apply Symbolic.prims (Symbolic.weeks 6) (Symbolic.item 7 1) ⟨0, 0, 0, true⟩
      [Symbolic.res 7 [] [Symbolic.fill 0]] Symbolic.fresh).1).isSome = true := by decide +kernel
  obtain ⟨header, hstored⟩ := Option.isSome_iff_exists.mp hsome
  have hnext : WithinNext Symbolic.prims (Symbolic.weeks 6) Symbolic.site 7 := by decide +kernel
  exact ⟨_, header, hcheck, hstored, (stored_epoch_not_ahead_iff _ _ _ _ _ _ _ _ _ hcheck hstored).mpr hnext⟩

/-- A peer announces the name, seen for the first time, at epoch 60000 and answers with what
    the publisher signed at epoch 5. It is stored at epoch 60000, in the sixth epoch, and
    the publisher's next epoch is turned away as backdated. -/
theorem a_first_item_pins_the_epoch :
    let pinned := updateBlob Symbolic.prims (Symbolic.weeks 6) (Symbolic.item 60000 1)
      [Symbolic.res 5 [] [Symbolic.fill 0]] Symbolic.fresh
    (storedIn pinned.1).map (·.epochHeight) = some 60000 ∧
    currentEpoch Symbolic.prims (Symbolic.weeks 6) Symbolic.site = 6 ∧
    (updateBlob Symbolic.prims (Symbolic.weeks 7) (Symbolic.item 7 1) [Symbolic.res 7 [] [Symbolic.fill 0]] pinned.2).1
      matches .error (.err .epochBackdated) := by
  decide +kernel

/-! ## Recovery from a ban -/

namespace UpdateQueue

/-- The checks of `Enqueue` before the header ban pass. -/
structure ReachesBan (q : UpdateQueue H K) (db : DB H K G) (update : Update) : Prop where
  room : q.queueLen < q.maxLen
  imported : db.initialImportComplete = true
  name : validateName update.name = .ok ()
  nameBan : db.nameBans update.name = false

theorem insert_ne_headerBanned [DecidableEq H] (q : UpdateQueue H K) (peerID : H) (update : Update) (info : NameInfo K) :
    (q.insert peerID update info).1 ≠ .error (.err .headerBanned) := by
  unfold insert
  split
  · nofun
  split
  · nofun
  split
  · nofun
  split <;> nofun

theorem compareHeader_ne_headerBanned (header : Option (Header H G)) (update : Update) :
    compareHeader header update ≠ .error (.err .headerBanned) := by
  intro h
  cases header <;> simp only [compareHeader] at h
  all_goals
    split at h
    · cases h
    split at h
    · cases h
    split at h <;> cases h

theorem validateUpdate_headerBanned_iff {db : DB H K G} {name : Name} :
    validateUpdate db name = .error (.err .headerBanned) ↔
      validateName name = .ok () ∧ db.nameBans name = false ∧
        ∃ bannedAt, db.getHeaderBan (ε := QueueErr) name = .ok bannedAt ∧ bannedAt ≠ zeroTime := by
  constructor
  · intro h
    unfold validateUpdate at h
    split at h
    · cases h
    · cases h
    rename_i hname
    split at h
    · cases h
    rename_i hban
    cases hg : db.getHeaderBan (ε := QueueErr) name with
    | error f =>
      rw [hg] at h
      cases h
      cases DB.getHeaderBan_error hg
    | ok bannedAt =>
      rw [hg] at h
      simp only at h
      split at h
      · exact ⟨hname, by simpa using hban, bannedAt, rfl, ‹_›⟩
      · cases h
  · rintro ⟨hname, hban, bannedAt, hg, hne⟩
    simp only [validateUpdate, hname, hban, hg, Bool.false_eq_true, if_false, ne_eq, hne, not_false_eq_true, if_true]

theorem precheck_headerBanned_iff {q : UpdateQueue H K} {db : DB H K G} {update : Update} (hs : update.sectorSize ≠ 0) :
    q.precheck db update = .error (.err .headerBanned) ↔
      q.ReachesBan db update ∧ ∃ bannedAt, db.getHeaderBan (ε := QueueErr) update.name = .ok bannedAt ∧ bannedAt ≠ zeroTime := by
  constructor
  · intro h
    unfold precheck at h
    split at h
    · cases h
    rename_i hroom
    split at h
    · cases h
    rename_i himport
    split at h
    · rename_i hv
      cases h
      obtain ⟨hname, hban, hg⟩ := validateUpdate_headerBanned_iff.mp hv
      exact ⟨⟨Int.not_le.mp hroom, by simpa using himport, hname, hban⟩, hg⟩
    split at h
    · cases h
    split at h
    · rename_i hc
      cases h
      exact absurd hc (compareHeader_ne_headerBanned _ _)
    · cases h
  · rintro ⟨hr, hg⟩
    have hv := validateUpdate_headerBanned_iff.mpr ⟨hr.name, hr.nameBan, hg⟩
    simp only [precheck, if_neg (Int.not_le.mpr hr.room), hr.imported, Bool.not_true, Bool.false_eq_true, if_false,
      if_neg hs, hv]

/-- `Enqueue` refuses for the header ban when it gets there and a ban is recorded. -/
theorem enqueue_headerBanned_iff [DecidableEq H] {q : UpdateQueue H K} {db : DB H K G} {peerID : H} {update : Update}
    (hs : update.sectorSize ≠ 0) :
    (q.enqueue db peerID update).1 = .error (.err .headerBanned) ↔
      q.ReachesBan db update ∧ ∃ bannedAt, db.getHeaderBan (ε := QueueErr) update.name = .ok bannedAt ∧ bannedAt ≠ zeroTime := by
  rw [← precheck_headerBanned_iff hs]
  unfold enqueue
  split
  · rename_i f hf
    rw [hf]
    exact ⟨fun h => by cases h; rfl, fun h => by cases h; rfl⟩
  · rename_i req hreq
    rw [hreq]
    exact ⟨nofun, nofun⟩
  · rename_i info hinfo
    rw [hinfo]
    refine ⟨fun h => ?_, nofun⟩
    split at h
    · rename_i f q' hi
      cases h
      exact absurd (congrArg Prod.fst hi) (insert_ne_headerBanned q peerID update info)
    · cases h

end UpdateQueue

/-- Of an update that `UpdateBlob`'s checks would admit now, `Enqueue` says the name is
    banned unless no ban is recorded, however long ago, or an earlier check ends the call. -/
theorem recovery_passes_enqueue_iff [Zero H] [DecidableEq H] (P : Prims H K G) (now : Time) (db : DB H K G)
    (q : UpdateQueue H K) (peerID : H) (update : Update) (info : NameInfo K) (plan : Plan H) (hsize : update.sectorSize ≠ 0)
    (hcheck : check P now db (UpdateQueue.newItem peerID update info) = .ok plan) :
    (q.enqueue db peerID update).1 ≠ .error (.err .headerBanned) ↔
      db.headerBans update.name = none ∨ ¬ q.ReachesBan db update := by
  rw [Ne, UpdateQueue.enqueue_headerBanned_iff hsize]
  obtain ⟨bannedAt, hread⟩ := check_ban hcheck
  rcases DB.getHeaderBan_ok_iff.mp hread with ⟨hnone, -⟩ | ⟨n, hn, hle, -⟩
  · have hzero : ∀ bannedAt, db.getHeaderBan (ε := QueueErr) update.name = .ok bannedAt → bannedAt = zeroTime := fun _ h => by
      rcases DB.getHeaderBan_ok_iff.mp h with ⟨-, ht⟩ | ⟨n, hn, -⟩
      · exact ht
      · cases hnone.symm.trans hn
    exact ⟨fun _ => .inl hnone, fun _ h => h.2.elim fun t ht => ht.2 (hzero t ht.1)⟩
  · -- the same record, read by both
    have hsame : db.getHeaderBan (ε := QueueErr) update.name = .ok (n * second) :=
      DB.getHeaderBan_ok_iff.mpr (.inr ⟨n, hn, hle, rfl⟩)
    refine ⟨fun h => .inr fun hr => h ⟨hr, _, hsame, DB.record_ne_zeroTime n⟩, fun h hc => ?_⟩
    rcases h with hnone | hr
    · cases hnone.symm.trans hn
    · exact hr hc.1

/-- A name that was never banned: an update two epochs above the stored header. -/
theorem an_update_of_a_clean_name :
    (UpdateQueue.new.enqueue holding [1] ⟨Symbolic.site, 7, 1⟩).1 ≠ .error (.err .headerBanned) :=
  (recovery_passes_enqueue_iff Symbolic.prims (Symbolic.weeks 8) holding UpdateQueue.new [1] ⟨Symbolic.site, 7, 1⟩
    ⟨Symbolic.site, 1, 0⟩ ⟨7, 0, 0, true⟩ (by decide) rfl).mpr (.inl rfl)

/-- Banned in the sixth epoch at epoch 5. In the eighth the checks of `UpdateBlob` admit an
    update to epoch 7, and `Enqueue` refuses it. -/
theorem a_recovery_is_refused :
    let db := holding.setHeaderBan (Symbolic.weeks 6) Symbolic.site zeroTime
    let update : Update := ⟨Symbolic.site, 7, 1⟩
    (check Symbolic.prims (Symbolic.weeks 8) db (UpdateQueue.newItem [1] update ⟨Symbolic.site, 1, 0⟩) matches
      .ok ⟨7, 0, _, true⟩) ∧
    (UpdateQueue.new.enqueue db [1] update).1 matches .error (.err .headerBanned) := by
  decide +kernel

end Fnd.Protocol

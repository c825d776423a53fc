/-
  Fnd.Bans — whether a header ban keeps updates out for its week.

  A ban is recorded as the second it is made in. `Enqueue` refuses a banned name, but items
  queued before go on; `UpdateBlob` reads the ban for every item, and looks at it only for
  an item above the stored epoch. So a worker whose checks read a ban stores nothing within
  the week in every run in which the items it checks on a banned name are for a stored
  header and no append to its epoch (`bans_are_enforced`). An append queued before the ban
  is stored after it (`a_banned_name_is_appended_to`).
-/

import Fnd.Equivocation
import Fnd.Node

namespace Fnd.Node

open Blob (File)
open Store (DB Header)
open Wire (BlobRes)
open Protocol

variable {H K G : Type}

/-- Seven days after the recorded second. -/
def bannedUntil (record : Nat) : Time := record * second + week

/-- The item of a worker that is about to run its checks. -/
def Worker.checking : Worker H K → Option (UpdateQueueItem H K)
  | .dequeued item => some item
  | _ => none

/-- While the name is banned: a header is stored, and the item does not append to its epoch. -/
def NoAppend (n : State H K G) : Event H G → Prop
  | .check w =>
    ∀ item ∈ (n.workers w).checking, ∀ record ∈ n.shared.db.headerBans item.name, n.clock < bannedUntil record →
      ∃ header ∈ n.shared.db.headers item.name,
        header.epochHeight ≠ item.epochHeight ∨ item.sectorSize ≤ header.sectorSize
  | _ => True

instance (n : State H K G) : DecidablePred (NoAppend n)
  | .check w => inferInstanceAs (Decidable (∀ item ∈ (n.workers w).checking, _))
  | .tick _ | .update .. | .dequeue _ | .lock _ | .finish .. | .blobReq _ | .equivocationProof _ | .checkout _
  | .writeSector .. | .commit _ => .isTrue trivial

/-- The bans that workers past their checks have read are over. -/
def BansOver (n : State H K G) : Prop :=
  ∀ w item plan, n.workers w = .admitted item plan ∨ n.workers w = .locked item plan →
    ∀ record ∈ n.banRead w, bannedUntil record ≤ n.clock

theorem getHeaderBan_record {ε : Type} {db : DB H K G} {name : Name} {record : Nat} {bannedAt : Time}
    (h : db.headerBans name = some record) (hg : db.getHeaderBan (ε := ε) name = .ok bannedAt) :
    bannedAt = record * second ∧ bannedAt ≠ zeroTime := by
  rcases DB.getHeaderBan_ok_iff.mp hg with ⟨hnone, -⟩ | ⟨n, hn, -, rfl⟩
  · rw [h] at hnone; cases hnone
  · obtain rfl := Option.some.inj (h.symm.trans hn)
    exact ⟨rfl, DB.record_ne_zeroTime record⟩

variable [Zero H] [DecidableEq H] {P : Prims H K G}

omit [DecidableEq H] in
/-- The checks let an item of a banned name through after its week, or as a first sight or
    an append. -/
theorem check_banned {now : Time} {db : DB H K G} {item : UpdateQueueItem H K} {plan : Plan H} {record : Nat}
    (hr : db.headerBans item.name = some record) (ha : check P now db item = .ok plan) :
    bannedUntil record ≤ now ∨ db.headers item.name = none ∨
      ∃ header, db.headers item.name = some header ∧ header.epochHeight = item.epochHeight ∧
        header.sectorSize < item.sectorSize := by
  rcases check_cases ha with ⟨hnone, -⟩ | ⟨header, hh, he, hs, -⟩ | ⟨header, bannedAt, -, -, hban, hroll, -⟩
  · exact .inr (.inl hnone)
  · exact .inr (.inr ⟨header, hh, he, hs⟩)
  · obtain ⟨rfl, hne⟩ := getHeaderBan_record hr hban
    exact .inl ((checkRollover_ok hroll).1 hne).1

theorem step_bansOver {n : State H K G} {e : Event H G} (h : BansOver n) (hok : NoAppend n e) : BansOver (step P n e) := by
  have hclock := step_clock P n e
  rintro w item plan (hw | hw) record hr
  · rcases step_admitted hw with ⟨hbefore, hread⟩ | ⟨rfl, hd, ha, hread⟩
    · rw [hread] at hr
      exact Int.le_trans (h w item plan (.inl hbefore) record hr) hclock
    · rw [hread] at hr
      by_cases hlt : n.clock < bannedUntil record
      · obtain ⟨header, hh, hne⟩ := hok item (by rw [hd]; rfl) record hr hlt
        rcases check_banned hr ha with hover | hnone | ⟨header', hh', he, hs⟩
        · exact absurd hover (Int.not_le.mpr hlt)
        · rw [hnone] at hh; cases hh
        · obtain rfl := Option.some.inj (hh'.symm.trans hh)
          exact (hne.elim (fun h => h he) fun hle => UInt16.not_lt.mpr hle hs).elim
      · exact Int.le_trans (Int.not_lt.mp hlt) hclock
  · obtain ⟨hread, hbefore⟩ := step_locked hw
    rw [hread] at hr
    refine Int.le_trans (h w item plan ?_ record hr) hclock
    rcases hbefore with hl | ⟨-, ha, -⟩
    · exact .inr hl
    · exact .inl ha

theorem step_records {n : State H K G} (hi : Inv n) (e : Event H G) (name : Name) :
    (step P n e).shared.db.headerBans name = n.shared.db.headerBans name ∨
      (step P n e).shared.db.headerBans name = some (DB.mustEncodeInt (unix n.clock)) := by
  rcases step_cases hi e with hk | ⟨item, plan, msg, hw⟩ | ⟨req, tx, hw⟩
  · obtain ⟨_, hb⟩ := hk.db
    exact hb.headerBans name
  · rw [hw.db]; exact .inl rfl
  · rw [hw.db]; exact .inl rfl

/-- A worker that stores a header has read no ban of the last seven days. -/
def Enforced (P : Prims H K G) (n : State H K G) (e : Event H G) : Prop :=
  ∀ w msgs, e = .finish w msgs → (stored P n e).isSome = true → ∀ record ∈ n.banRead w, bannedUntil record ≤ n.clock

/-- In every run of such steps, whatever its order: a ban is recorded as the second it is
    made in and never removed, and no worker whose checks read it stores a header until
    seven days later. -/
theorem bans_are_enforced (P : Prims H K G) (clock : Time) (db : DB H K G) (blobs : Name → File) (es : List (Event H G))
    (hes : Machine.Along (step P) NoAppend (start clock db blobs) es) :
    Machine.Along (step P) (fun n e => Enforced P n e ∧ ∀ name,
        (step P n e).shared.db.headerBans name = n.shared.db.headerBans name ∨
        (step P n e).shared.db.headerBans name = some (DB.mustEncodeInt (unix n.clock)))
      (start clock db blobs) es := by
  refine Machine.along_of_inv (fun n : State H K G => Inv n ∧ BansOver n) (fun n e h hok => ?_) es _
    ⟨inv_start _ _ _, by rintro w item plan (h | h) <;> cases h⟩ hes
  refine ⟨⟨step_inv h.1 e, step_bansOver h.2 hok⟩, ?_, step_records h.1 e⟩
  rintro w msgs rfl hs
  cases hw : n.workers w with
  | locked item plan => exact h.2 w item plan (.inr hw)
  | _ => simp [stored, writes, hw] at hs

/-- A node that holds one sector of the name at epoch 5. -/
def holder : State Symbolic.Sym Nat Symbolic.Sig := start (Symbolic.weeks 6) holding fun _ => File.zero

/-- The update is queued; then a proof arrives that the publisher signed a second chain. -/
def queuedThenBanned (epochHeight sectorSize : UInt16) : List (Event Symbolic.Sym Symbolic.Sig) :=
  [.update [] ⟨Symbolic.site, epochHeight, sectorSize⟩,
    .equivocationProof (proof (Symbolic.tipOf [Symbolic.fill 1]) [Symbolic.fill 2]
      (Symbolic.tipOf [Symbolic.fill 1, Symbolic.fill 2]))]

/-- The item is taken up two weeks later, and stored. -/
theorem a_ban_is_over_after_two_weeks :
    let es := queuedThenBanned 7 1 ++ [.tick (Symbolic.weeks 8), .dequeue 0, .check 0, .lock 0]
    let e : Event Symbolic.Sym Symbolic.Sig := .finish 0 [Symbolic.res 7 [] [Symbolic.fill 4]]
    (stored Symbolic.prims (Machine.run (step Symbolic.prims) holder es) e).isSome = true ∧
    Machine.Along (step Symbolic.prims) (fun n e => Enforced Symbolic.prims n e ∧ ∀ name,
        (step Symbolic.prims n e).shared.db.headerBans name = n.shared.db.headerBans name ∨
        (step Symbolic.prims n e).shared.db.headerBans name = some (DB.mustEncodeInt (unix n.clock)))
      holder (es ++ [e]) :=
  ⟨by decide +kernel, bans_are_enforced Symbolic.prims _ _ _ _ (by decide +kernel)⟩

/-- A worker takes up an append at once. -/
def banned : State Symbolic.Sym Nat Symbolic.Sig :=
  Machine.run (step Symbolic.prims) holder (queuedThenBanned 5 2 ++ [.dequeue 0, .check 0, .lock 0])

/-- Its checks have read the ban of that second, and it stores the append. -/
theorem a_banned_name_is_appended_to :
    ¬ Enforced Symbolic.prims banned (.finish 0 [Symbolic.res 5 [Symbolic.fill 0] [Symbolic.fill 1]]) := by
  have hrun : (stored Symbolic.prims banned (.finish 0 [Symbolic.res 5 [Symbolic.fill 0] [Symbolic.fill 1]])).isSome = true ∧
      banned.banRead 0 = some 1581465600 ∧ banned.clock = Symbolic.weeks 6 := by
    decide +kernel
  intro h
  obtain ⟨hs, hread, hclock⟩ := hrun
  have hover := h 0 _ rfl hs _ hread
  rw [hclock] at hover
  exact absurd hover (by decide)

end Fnd.Node

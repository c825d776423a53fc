/-
  Fnd.Versions — whether the stored version of a name, epoch and size, ever goes back.

  A worker reads the header, decides, and only then takes the name's lock; what it decided
  on may be old by then. Versions only advance in every run in which each worker that gets
  the lock has an item not below the header stored at that moment
  (`versions_never_go_back`). `UpdateBlob` does not look again: two workers on one name,
  the slower one with the older item, and the newer update is lost
  (`a_slow_worker_loses_an_update`).
-/

import Mathlib.Data.Prod.Lex
import Fnd.Node

namespace Fnd.Node

open Blob (File)
open Store (DB Header)
open Protocol

variable {H K G : Type}

/-- Epoch and size, the epoch first. -/
def version (epochHeight sectorSize : UInt16) : Nat ×ₗ Nat := toLex (epochHeight.toNat, sectorSize.toNat)

/-- A stored header stays, or is replaced by one of the same or a later version. -/
def Advances (before after : Option (Header H G)) : Prop :=
  ∀ h ∈ before, ∃ h' ∈ after, version h.epochHeight h.sectorSize ≤ version h'.epochHeight h'.sectorSize

instance (before after : Option (Header H G)) : Decidable (Advances before after) :=
  inferInstanceAs (Decidable (∀ h ∈ before, ∃ h' ∈ after, _))

/-- The item is not below the header stored for its name. -/
def Fresh (db : DB H K G) (item : UpdateQueueItem H K) : Prop :=
  ∀ h ∈ db.headers item.name, version h.epochHeight h.sectorSize ≤ version item.epochHeight item.sectorSize

instance (db : DB H K G) (item : UpdateQueueItem H K) : Decidable (Fresh db item) :=
  inferInstanceAs (Decidable (∀ h ∈ db.headers item.name, _))

/-- The item of a worker that is about to lock its name. -/
def Worker.locking : Worker H K → Option (UpdateQueueItem H K)
  | .admitted item _ => some item
  | _ => none

/-- Workers only: no commit; and a worker that gets the lock has a fresh item. -/
def LocksFresh (n : State H K G) : Event H G → Prop
  | .lock w =>
    ∀ item ∈ (n.workers w).locking, (n.shared.locks.tryLock item.name).isSome = true → Fresh n.shared.db item
  | .commit _ => False
  | _ => True

instance (n : State H K G) : DecidablePred (LocksFresh n)
  | .lock w => inferInstanceAs (Decidable (∀ item ∈ (n.workers w).locking, _))
  | .commit _ => .isFalse id
  | .tick _ | .update .. | .dequeue _ | .check _ | .finish .. | .blobReq _ | .equivocationProof _ | .checkout _
  | .writeSector .. => .isTrue trivial

/-- Workers past `TryLock` have fresh items. -/
def HoldFresh (n : State H K G) : Prop :=
  ∀ w item plan, n.workers w = .locked item plan → Fresh n.shared.db item

variable [Zero H] [DecidableEq H] {P : Prims H K G}

omit [Zero H] [DecidableEq H] in
theorem Advances.rfl {o : Option (Header H G)} : Advances o o := fun h hh => ⟨h, hh, le_refl _⟩

/-- One step: versions advance, and the workers with the lock stay fresh. -/
theorem step_advances {n : State H K G} {e : Event H G} (hi : Inv n) (hf : HoldFresh n) (hok : LocksFresh n e) :
    HoldFresh (step P n e) ∧ ∀ name, Advances (n.shared.db.headers name) ((step P n e).shared.db.headers name) := by
  rcases step_cases hi e with hk | ⟨item, plan, msg, hw⟩ | ⟨req, tx, hw⟩
  · constructor
    · intro w item plan h
      unfold Fresh
      rw [hk.same.headers]
      rcases (step_locked h).2 with h | ⟨rfl, ha, hl⟩
      · exact hf w item plan h
      · exact hok item (by rw [ha]; rfl) hl
    · intro name
      rw [hk.same.headers]
      exact .rfl
  · obtain ⟨w, msgs, rfl, hlock, hidle, -⟩ := hw.event
    constructor
    · intro v item' plan' hv
      have hne : v ≠ w := by rintro rfl; rw [hidle] at hv; cases hv
      have hbefore : n.workers v = .locked item' plan' := by
        rcases (step_locked hv).2 with h | ⟨he, -⟩
        · exact h
        · cases he
      -- the name that was written is the finishing worker's alone
      have hname : item'.name ≠ item.name := fun he => hne (hi.held.alone v w item' plan' item plan hbefore hlock he)
      unfold Fresh
      rw [hw.headers, Function.update_of_ne hname]
      exact hf v item' plan' hbefore
    · intro name
      rw [hw.headers]
      by_cases he : name = item.name
      · subst he
        rw [Function.update_self]
        exact fun h hh => ⟨_, Option.mem_some_self _, hf w item plan hlock h hh⟩
      · rw [Function.update_of_ne he]
        exact .rfl
  · rw [hw.event] at hok
    exact hok.elim

/-- In every run of workers that get locks with fresh items only, every step advances
    every name's version, whatever the interleaving. -/
theorem versions_never_go_back (P : Prims H K G) (clock : Time) (db : DB H K G) (blobs : Name → File)
    (es : List (Event H G)) (hes : Machine.Along (step P) LocksFresh (start clock db blobs) es) :
    Machine.Along (step P) (fun n e => ∀ name, Advances (n.shared.db.headers name) ((step P n e).shared.db.headers name))
      (start clock db blobs) es := by
  refine Machine.along_of_inv (fun n : State H K G => Inv n ∧ HoldFresh n) (fun n e h hok => ?_) es _
    ⟨inv_start _ _ _, nofun⟩ hes
  obtain ⟨hf, ha⟩ := step_advances (P := P) h.1 h.2 hok
  exact ⟨⟨step_inv h.1 e, hf⟩, ha⟩

/-- A worker takes up the announced size and stores what the publisher signed. -/
def works (w : Nat) (sectors : List Blob.Sector) : List (Event Symbolic.Sym Symbolic.Sig) :=
  [.check w, .lock w, .finish w [Symbolic.res 5 [] sectors]]

/-- The size is announced and a worker takes the item. -/
def announced (w : Nat) (size : UInt16) : List (Event Symbolic.Sym Symbolic.Sig) :=
  [.update [] ⟨Symbolic.site, 5, size⟩, .dequeue w]

theorem two_updates_in_turn_advance :
    Machine.Along (step Symbolic.prims)
      (fun n e => ∀ name, Advances (n.shared.db.headers name) ((step Symbolic.prims n e).shared.db.headers name)) node
      (announced 0 1 ++ works 0 [Symbolic.fill 0] ++ announced 1 2 ++ works 1 [Symbolic.fill 0, Symbolic.fill 1]) :=
  versions_never_go_back Symbolic.prims _ _ _ _ (by decide +kernel)

/-- Worker 0 passes its checks with size 1 and stalls; worker 1 stores size 2; worker 0
    then locks the name and stores size 1, truncating the blob. -/
theorem a_slow_worker_loses_an_update :
    let before := Machine.run (step Symbolic.prims) node
      (announced 0 1 ++ [.check 0] ++ announced 1 2 ++ works 1 [Symbolic.fill 0, Symbolic.fill 1])
    let after := Machine.run (step Symbolic.prims) before [.lock 0, .finish 0 [Symbolic.res 5 [] [Symbolic.fill 0]]]
    ((before.shared.db.headers Symbolic.site).map fun h => (h.epochHeight, h.sectorSize)) = some (5, 2) ∧
    ((after.shared.db.headers Symbolic.site).map fun h => (h.epochHeight, h.sectorSize)) = some (5, 1) ∧
    ¬ Advances (before.shared.db.headers Symbolic.site) (after.shared.db.headers Symbolic.site) := by
  decide +kernel

end Fnd.Node

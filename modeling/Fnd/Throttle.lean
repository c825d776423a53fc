/-
  Fnd.Throttle — whether two raises of a name's epoch within seven days are throttled.

  A raise stores the clock as the header's `EpochStartAt`, and the next raise within seven
  days of it must go to the epoch after the current one. That is so over whole runs of
  `UpdateBlob` calls as long as no item in between is for the stored epoch
  (`raises_are_throttled`): an append stores the zero time, and the throttle is off
  (`an_append_lifts_the_throttle`).
-/

import Fnd.Equivocation
import Fnd.Lib.Machine

namespace Fnd.Protocol

open Store (DB Header)
open Wire (BlobRes)

variable {H K G : Type}

/-- One call of `UpdateBlob`: when, for what, and what its peers answer. -/
structure Call (H K G : Type) where
  now : Time
  item : UpdateQueueItem H K
  msgs : List (BlobRes H G)

/-- The stored epoch is higher than before, or there was none. -/
def Raises (name : Name) (before after : Shared H K G) : Prop :=
  ∃ header ∈ after.db.headers name, ∀ old ∈ before.db.headers name, old.epochHeight < header.epochHeight

instance (name : Name) (before after : Shared H K G) : Decidable (Raises name before after) :=
  inferInstanceAs (Decidable (∃ header ∈ after.db.headers name, _))

/-- The call is not for the epoch stored for the name. -/
def OtherEpoch (name : Name) (s : Shared H K G) (c : Call H K G) : Prop :=
  c.item.name = name → ∀ header ∈ s.db.headers name, header.epochHeight ≠ c.item.epochHeight

instance (name : Name) (s : Shared H K G) (c : Call H K G) : Decidable (OtherEpoch name s c) :=
  inferInstanceAs (Decidable (_ → ∀ header ∈ s.db.headers name, _))

/-- The stored epoch was raised at `t` or later. -/
def RaisedSince (t : Time) (name : Name) (s : Shared H K G) : Prop :=
  ∃ header, s.db.headers name = some header ∧ t ≤ header.epochStartAt

variable [Zero H] [DecidableEq H] (P : Prims H K G)

def call (s : Shared H K G) (c : Call H K G) : Shared H K G := (updateBlob P c.now c.item c.msgs s).2

variable {P} {s : Shared H K G} {c : Call H K G} {name : Name}

/-- A call leaves a name's header, or replaces it after passing its checks. -/
theorem call_header (P : Prims H K G) (s : Shared H K G) (c : Call H K G) (name : Name) :
    (call P s c).db.headers name = s.db.headers name ∨
    ∃ plan msg, c.item.name = name ∧ check P c.now s.db c.item = .ok plan ∧
      (call P s c).db.headers name = some (storedHeader P c.now c.item plan s msg) := by
  unfold call
  rcases updateBlob_cases P c.now c.item c.msgs s with ⟨plan, msg, -, ha, -, -, gossip, heq⟩ | ⟨r, db, heq, -, hban⟩
  · rw [heq]
    by_cases hn : c.item.name = name
    · subst hn
      exact .inr ⟨plan, msg, rfl, ha, Function.update_self _ _ _⟩
    · exact .inl (Function.update_of_ne (Ne.symm hn) _ _)
  · rw [heq]
    exact .inl (by rw [hban.sameHeaders.headers])

/-- A call that raises the epoch starts it at its own time. Over a stored header, it passed
    the checks of a rollover. -/
theorem raises_cases (h : Raises name s (call P s c)) :
    RaisedSince c.now name (call P s c) ∧
    ∀ old, s.db.headers name = some old → ∃ header bannedAt, (call P s c).db.headers name = some header ∧
      header.epochHeight = c.item.epochHeight ∧ c.item.name = name ∧ checkRollover P c.now old bannedAt c.item = .ok () := by
  obtain ⟨header, hh, hlt⟩ := h
  rcases call_header P s c name with hsame | ⟨plan, msg, rfl, ha, heq⟩
  · exact absurd (hlt header (hsame ▸ hh)) (UInt16.lt_irrefl _)
  · obtain rfl := Option.some.inj (heq.symm.trans hh)
    rcases check_cases ha with ⟨hnone, rfl⟩ | ⟨old, hold, he, -⟩ | ⟨old, bannedAt, hold, -, -, hroll, rfl⟩
    · exact ⟨⟨_, heq, Int.le_refl _⟩, fun old hold => by rw [hnone] at hold; cases hold⟩
    · exact absurd (hlt old hold) (he ▸ UInt16.lt_irrefl _)
    · refine ⟨⟨_, heq, Int.le_refl _⟩, fun old' hold' => ?_⟩
      obtain rfl := Option.some.inj (hold.symm.trans hold')
      exact ⟨_, bannedAt, heq, rfl, rfl, hroll⟩

/-- A call for another epoch keeps or renews the start of the stored one. -/
theorem call_raisedSince {t : Time} (h : RaisedSince t name s) (hc : OtherEpoch name s c) (ht : t ≤ c.now) :
    RaisedSince t name (call P s c) := by
  obtain ⟨header, hh, hle⟩ := h
  rcases call_header P s c name with hsame | ⟨plan, msg, rfl, ha, heq⟩
  · exact ⟨header, hsame.trans hh, hle⟩
  · refine ⟨_, heq, ?_⟩
    rcases check_cases ha with ⟨-, rfl⟩ | ⟨old, hold, he, -⟩ | ⟨old, bannedAt, -, -, -, -, rfl⟩
    · exact ht
    · exact absurd he (hc rfl old hold)
    · exact ht

/-- A call raises the epoch, calls for other epochs than the stored one follow, and a last
    call raises it again within seven days of the first: to the epoch after the current. -/
theorem raises_are_throttled (P : Prims H K G) (name : Name) (s : Shared H K G) (first last : Call H K G)
    (between : List (Call H K G)) (htimes : (first :: between ++ [last]).Pairwise (·.now ≤ ·.now))
    (hfirst : Raises name s (call P s first))
    (hbetween : Machine.Along (call P) (OtherEpoch name) (call P s first) between)
    (hlast : Raises name (Machine.run (call P) (call P s first) between)
      (call P (Machine.run (call P) (call P s first) between) last))
    (hweek : last.now < first.now + week) :
    ∀ header, (call P (Machine.run (call P) (call P s first) between) last).db.headers name = some header →
      header.epochHeight = currentEpoch P last.now name + 1 := by
  have hle : ∀ c ∈ between, first.now ≤ c.now := fun c hc =>
    (List.pairwise_cons.mp htimes).1 c (List.mem_append_left _ hc)
  -- the start of the stored epoch is not before the first call, through the whole run
  obtain ⟨old, hold, hstart⟩ := Machine.run_inv (RaisedSince first.now name)
    (fun _ _ h hc => call_raisedSince h hc.1 hc.2) between _ (raises_cases hfirst).1 (hbetween.and_mem hle)
  obtain ⟨header, bannedAt, hh, he, rfl, hroll⟩ := (raises_cases hlast).2 old hold
  obtain ⟨-, hthrottle, hfuture⟩ := checkRollover_ok hroll
  intro header' hh'
  obtain rfl := Option.some.inj (hh.symm.trans hh')
  rw [he]
  exact UInt16.le_antisymm hfuture (hthrottle (Int.lt_of_lt_of_le hweek (Int.add_le_add_right hstart week)))

/-- The publisher's answer to a call for the sectors after those held. -/
def calls (now : Time) (epochHeight : UInt16) (held sectors : List Blob.Sector) :
    Call Symbolic.Sym Nat Symbolic.Sig :=
  ⟨now, Symbolic.item epochHeight (UInt16.ofNat (held ++ sectors).length), [Symbolic.res epochHeight held sectors]⟩

/-- One sector at epoch 5. -/
def heldAtFive : Shared Symbolic.Sym Nat Symbolic.Sig := { Symbolic.fresh with db := holding }

def raise : Call Symbolic.Sym Nat Symbolic.Sig := calls (Symbolic.weeks 8) 6 [] [Symbolic.fill 0]

def again (epochHeight : UInt16) : Call Symbolic.Sym Nat Symbolic.Sig :=
  calls (Symbolic.weeks 8 + 3600 * second) epochHeight [] [Symbolic.fill 0]

/-- Within the hour epochs 7 and 8 are refused. -/
def refused : List (Call Symbolic.Sym Nat Symbolic.Sig) :=
  [calls (Symbolic.weeks 8 + second) 7 [] [Symbolic.fill 0], calls (Symbolic.weeks 8 + 2 * second) 8 [] [Symbolic.fill 0]]

/-- Then the next raise is to epoch 9. -/
theorem an_hour_later_the_next_epoch :
    ((Machine.run (call Symbolic.prims) (call Symbolic.prims heldAtFive raise) refused).db.headers Symbolic.site).map
      (·.epochHeight) = some 6 ∧
    ((call Symbolic.prims (Machine.run (call Symbolic.prims) (call Symbolic.prims heldAtFive raise) refused)
      (again 9)).db.headers Symbolic.site).map (·.epochHeight) =
      some (currentEpoch Symbolic.prims (again 9).now Symbolic.site + 1) := by
  have hfirst : Raises Symbolic.site heldAtFive (call Symbolic.prims heldAtFive raise) := by decide +kernel
  have hlast : Raises Symbolic.site (Machine.run (call Symbolic.prims) (call Symbolic.prims heldAtFive raise) refused)
      (call Symbolic.prims (Machine.run (call Symbolic.prims) (call Symbolic.prims heldAtFive raise) refused) (again 9)) := by
    decide +kernel
  have hthrottled := raises_are_throttled Symbolic.prims Symbolic.site heldAtFive raise (again 9) refused (by decide +kernel)
    hfirst (by decide +kernel) hlast (by decide +kernel)
  obtain ⟨header, hh, -⟩ := hlast
  have hh := Option.mem_def.mp hh
  refine ⟨by decide +kernel, ?_⟩
  rw [hh, Option.map_some, hthrottled header hh]

/-- A sector appended, then a raise to epoch 7: within the hour, in the eighth epoch. -/
theorem an_append_lifts_the_throttle :
    let appended := call Symbolic.prims (call Symbolic.prims heldAtFive raise)
      (calls (Symbolic.weeks 8 + second) 6 [Symbolic.fill 0] [Symbolic.fill 1])
    let after := call Symbolic.prims appended (again 7)
    Raises Symbolic.site heldAtFive (call Symbolic.prims heldAtFive raise) ∧ Raises Symbolic.site appended after ∧
    (after.db.headers Symbolic.site).map (·.epochHeight) = some 7 ∧
    currentEpoch Symbolic.prims (again 7).now Symbolic.site + 1 = 9 := by
  decide +kernel

end Fnd.Protocol

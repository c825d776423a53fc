/-
  Fnd.Punishment — whether every equivocation of a publisher is punished, over whole runs of
  a node.

  A ban record and a stored proof carry no epoch, and no step removes either. A handler that
  finds one takes the equivocation before it for the one already handled:
  `onEquivocationProof` for a proof at the stored epoch when there is a ban record,
  `SyncSectors` when there is a stored proof. So along every run a genuine equivocation at
  the stored epoch is recorded exactly if it is the name's first
  (`equivocation_recorded_iff`). A publisher who waits out the week and rolls over to a new
  epoch may then equivocate freely (`a_second_equivocation_is_ignored`).
-/

import Fnd.Bans

namespace Fnd.Node

open Blob (File)
open Store (DB Header)
open Wire (BlobRes EquivocationProof)
open Protocol

variable {H K G : Type}

/-- The ban record is of the second of `t`, and this is the stored proof. -/
def Punished (t : Time) (db : DB H K G) (name : Name) (proof : EquivocationProof H G) : Prop :=
  db.headerBans name = some (DB.mustEncodeInt (unix t)) ∧ db.equivocationProofs name = some proof

instance [DecidableEq H] [DecidableEq G] (t : Time) (db : DB H K G) (name : Name) (proof : EquivocationProof H G) :
    Decidable (Punished t db name proof) := inferInstanceAs (Decidable (_ ∧ _))

/-- The handler has no record of the name yet: of a ban, for a proof that is delivered; of a
    proof, for a response in a sync. -/
def Unrecorded (db : DB H K G) (name : Name) : Event H G → Prop
  | .equivocationProof _ => db.headerBans name = none
  | _ => db.equivocationProofs name = none

variable [Zero H] [DecidableEq H]

/-- The event shows the node a genuine equivocation at the stored epoch of a name, of which
    `proof` is the evidence: as a valid proof whose halves conflict, or as the response that
    decides a sync, signed but after other sectors than the sync's. -/
inductive Shows (P : Prims H K G) (n : State H K G) (name : Name) (proof : EquivocationProof H G) : Event H G → Prop
  | delivered (header : Header H G) : n.shared.db.headers name = some header → header.epochHeight = proof.remoteEpochHeight →
      proof.name = name → Accepted P n.shared.db proof → Differs proof → Shows P n name proof (.equivocationProof proof)
  | synced (header : Header H G) (w : Nat) (item : UpdateQueueItem H K) (plan : Plan H) (msgs : List (BlobRes H G))
      (msg : BlobRes H G) : n.shared.db.headers name = some header → header.epochHeight = msg.epochHeight →
      item.name = name → n.workers w = .locked item plan → openTx P n.clock item plan = .ok (startTx item plan) →
      decidingRes P n.clock item plan n.shared msgs = some msg → Equivocates P n.shared.db (plan.opts item.name) msg →
      proof = proofOf msg header → Shows P n name proof (.finish w msgs)

structure Remembers (before after : DB H K G) : Prop where
  bans : ∀ name, before.headerBans name ≠ none → after.headerBans name ≠ none
  proofs : ∀ name, before.equivocationProofs name ≠ none → after.equivocationProofs name ≠ none

variable {P : Prims H K G} {n : State H K G}

omit [Zero H] [DecidableEq H] in
theorem banStep_remembers {now : Time} {name : Name} {db db' : DB H K G} (h : BanStep now name db db') :
    Remembers db db' := by
  rcases h with rfl | ⟨proof, rfl⟩
  · exact ⟨fun _ h => h, fun _ h => h⟩
  · constructor <;> intro name' h
    · by_cases he : name' = name
      · subst he; simp [DB.setHeaderBan]
      · simpa [DB.setHeaderBan, he] using h
    · by_cases he : name' = name
      · subst he; simp [DB.setEquivocationProof]
      · simpa [DB.setEquivocationProof, DB.setHeaderBan, he] using h

theorem step_remembers (hi : Inv n) (e : Event H G) : Remembers n.shared.db (step P n e).shared.db := by
  rcases step_cases hi e with hk | ⟨item, plan, msg, hw⟩ | ⟨req, tx, hw⟩
  · obtain ⟨name, hb⟩ := hk.db
    exact banStep_remembers hb
  · rw [hw.db]; exact ⟨fun _ h => h, fun _ h => h⟩
  · rw [hw.db]; exact ⟨fun _ h => h, fun _ h => h⟩

omit [Zero H] [DecidableEq H] in
theorem punished_banWith (t : Time) (db : DB H K G) (msg : BlobRes H G) (header : Header H G) :
    Punished t (banWith t db msg header) msg.name (proofOf msg header) :=
  ⟨by simp [banWith, DB.setHeaderBan], banWith_equivocationProofs t db msg header⟩

/-- A delivered proof at the stored epoch is recorded if the name has no ban record. -/
theorem delivered_recorded_iff (hd : n.down = false) {name : Name} {proof : EquivocationProof H G} {header : Header H G}
    (hh : n.shared.db.headers name = some header) (he : header.epochHeight = proof.remoteEpochHeight)
    (hname : proof.name = name) (ha : Accepted P n.shared.db proof) :
    Punished n.clock (step P n (.equivocationProof proof)).shared.db name proof ↔
      n.shared.db.headerBans name = none ∨ Punished n.clock n.shared.db name proof := by
  subst hname
  cases hr : n.shared.db.headerBans proof.name with
  | none =>
    have hok := onEquivocationProof_unbanned n.clock hh (UInt16.le_of_eq he) hr ha
    have hstep : (step P n (.equivocationProof proof)).shared.db =
        (n.shared.db.setEquivocationProof proof.name proof).setHeaderBan n.clock proof.name zeroTime := by
      simp only [step, hd, act, hok]; rfl
    rw [hstep]
    exact ⟨fun _ => .inl rfl, fun _ => by simp [Punished, DB.setHeaderBan, DB.setEquivocationProof]⟩
  | some record =>
    obtain ⟨f, herr⟩ : ∃ f, onEquivocationProof P n.clock n.shared.db proof = .error f :=
      onEquivocationProof_banned hh he hr
    have hstep : (step P n (.equivocationProof proof)).shared.db = n.shared.db := by
      simp only [step, hd, act, herr]; rfl
    rw [hstep]
    exact ⟨.inr, fun h => h.resolve_left (Option.some_ne_none _)⟩

/-- A response that equivocates in a sync is recorded if the name has no stored proof. -/
theorem synced_recorded_iff (hi : Inv n) (hd : n.down = false) {w : Nat} {item : UpdateQueueItem H K} {plan : Plan H}
    {msgs : List (BlobRes H G)} {msg : BlobRes H G} {header : Header H G}
    (hh : n.shared.db.headers item.name = some header) (hw : n.workers w = .locked item plan)
    (hopen : openTx P n.clock item plan = .ok (startTx item plan))
    (hdec : decidingRes P n.clock item plan n.shared msgs = some msg)
    (he : Equivocates P n.shared.db (plan.opts item.name) msg) :
    Punished n.clock (step P n (.finish w msgs)).shared.db item.name (proofOf msg header) ↔
      n.shared.db.equivocationProofs item.name = none ∨ Punished n.clock n.shared.db item.name (proofOf msg header) := by
  have hname : msg.name = item.name := he.name
  have hf := finish_eq P n.clock item plan msgs (s := n.shared) (by rw [hi.held.lock w item plan hw])
  rw [apply_equivocates hopen hdec he hh] at hf
  have hstep : (step P n (.finish w msgs)).shared.db =
      if (n.shared.db.equivocationProofs item.name).isSome then n.shared.db else banWith n.clock n.shared.db msg header := by
    simp only [step, hd, act, hw, hf]; rfl
  rw [hstep]
  cases hp : n.shared.db.equivocationProofs item.name with
  | none => exact ⟨fun _ => .inl rfl, fun _ => hname ▸ punished_banWith n.clock n.shared.db msg header⟩
  | some proof => exact ⟨.inr, fun h => h.resolve_left (Option.some_ne_none _)⟩

/-- Along every run, whatever its order: records are never removed, and a genuine
    equivocation at the stored epoch is recorded, with a ban of this second and its own
    proof, exactly if the handler has no record of the name (or it was recorded already,
    within this second). -/
theorem equivocation_recorded_iff (P : Prims H K G) (clock : Time) (db : DB H K G) (blobs : Name → File)
    (es : List (Event H G)) :
    Machine.Along (step P) (fun n e => Remembers n.shared.db (step P n e).shared.db ∧
        ∀ name proof, n.down = false → Shows P n name proof e →
          (Punished n.clock (step P n e).shared.db name proof ↔
            Unrecorded n.shared.db name e ∨ Punished n.clock n.shared.db name proof))
      (start clock db blobs) es := by
  refine Machine.along_keeps Inv (fun n e hi => ⟨step_inv hi e, step_remembers hi e, ?_⟩) es _ (inv_start _ _ _)
  intro name proof hd hshows
  cases hshows with
  | delivered header hh he hname ha _ => exact delivered_recorded_iff hd hh he hname ha
  | synced header w item plan msgs msg hh _ hname hw hopen hdec he hproof =>
    subst hname hproof
    exact synced_recorded_iff hi hd hh hw hopen hdec he

/-- The proof at epoch 5 that the holder of the first sector is sent. -/
def firstProof : EquivocationProof Symbolic.Sym Symbolic.Sig :=
  proof (Symbolic.tipOf [Symbolic.fill 1]) [Symbolic.fill 2] (Symbolic.tipOf [Symbolic.fill 1, Symbolic.fill 2])

/-- The first equivocation of a name is recorded. -/
theorem a_first_equivocation_is_recorded :
    Punished holder.clock (step Symbolic.prims holder (.equivocationProof firstProof)).shared.db Symbolic.site firstProof := by
  have haccepted : Accepted Symbolic.prims holder.shared.db firstProof :=
    ⟨rfl, rfl, validateBlobUpdate_ok.mpr ⟨rfl, rfl, _, rfl, by decide +kernel⟩, by decide,
      validateBlobUpdate_ok.mpr ⟨rfl, rfl, _, rfl, by decide +kernel⟩⟩
  have hdiffers : Differs firstProof := ⟨by decide +kernel, by decide⟩
  have hshows : Shows Symbolic.prims holder Symbolic.site firstProof (.equivocationProof firstProof) :=
    .delivered _ rfl rfl rfl haccepted hdiffers
  have hfirst : Unrecorded holder.shared.db Symbolic.site (.equivocationProof firstProof) := rfl
  have hrun := equivocation_recorded_iff Symbolic.prims (Symbolic.weeks 6) holding (fun _ => File.zero)
    [.equivocationProof firstProof]
  rw [show start (Symbolic.weeks 6) holding (fun _ => File.zero) = holder from rfl] at hrun
  exact (hrun.1.2 _ _ rfl hshows).mpr (.inl hfirst)

/-- Epoch 7 is announced and taken up, then a second sector of it; the name is banned for its
    equivocation at epoch 5. Two weeks later the worker stores epoch 7. -/
def movedOn : State Symbolic.Sym Nat Symbolic.Sig :=
  Machine.run (step Symbolic.prims) holder ([.update [] ⟨Symbolic.site, 7, 1⟩, .dequeue 0] ++ queuedThenBanned 7 2 ++
    [.tick (Symbolic.weeks 8), .check 0, .lock 0, .finish 0 [Symbolic.res 7 [] [Symbolic.fill 4]]])

/-- Another worker takes up the second sector. -/
def syncing : State Symbolic.Sym Nat Symbolic.Sig :=
  Machine.run (step Symbolic.prims) movedOn [.dequeue 1, .check 1, .lock 1]

def headerAtSeven : Header Symbolic.Sym Symbolic.Sig :=
  ⟨Symbolic.site, 7, 1, Symbolic.tipOf [Symbolic.fill 4], Symbolic.sign 7 1 (Symbolic.tipOf [Symbolic.fill 4]), 0,
    Symbolic.weeks 8⟩

/-- The publisher also signed another first sector at epoch 7. -/
def secondRes : BlobRes Symbolic.Sym Symbolic.Sig := Symbolic.res 7 [Symbolic.fill 5] [Symbolic.fill 6]

def secondProof : EquivocationProof Symbolic.Sym Symbolic.Sig := proofOf secondRes headerAtSeven

theorem secondProof_accepted {db : DB Symbolic.Sym Nat Symbolic.Sig} (hban : db.nameBans Symbolic.site = false)
    (hinfo : db.nameInfo Symbolic.site = some ⟨Symbolic.site, 1, 0⟩) : Accepted Symbolic.prims db secondProof where
  epoch := rfl
  position := rfl
  localValid := validateBlobUpdate_ok.mpr ⟨rfl, hban, _, hinfo, by decide +kernel⟩
  size := by decide +kernel
  remoteValid := validateBlobUpdate_ok.mpr ⟨rfl, hban, _, hinfo, by decide +kernel⟩

/-- The append, and its plan. -/
def secondItem : UpdateQueueItem Symbolic.Sym Nat := UpdateQueue.newItem [] ⟨Symbolic.site, 7, 2⟩ ⟨Symbolic.site, 1, 0⟩

def planAtSeven : Plan Symbolic.Sym := ⟨7, 1, Symbolic.tipOf [Symbolic.fill 4], false⟩

/-- The header has moved on; the ban record and the proof, also after the second one is
    delivered, are those of epoch 5. -/
theorem movedOn_state :
    movedOn.shared.db.headers Symbolic.site = some headerAtSeven ∧ movedOn.shared.db.nameBans Symbolic.site = false ∧
    movedOn.shared.db.nameInfo Symbolic.site = some ⟨Symbolic.site, 1, 0⟩ ∧
    movedOn.shared.db.headerBans Symbolic.site = some 1581465600 ∧ movedOn.clock = Symbolic.weeks 8 ∧
    ¬ Punished movedOn.clock (step Symbolic.prims movedOn (.equivocationProof secondProof)).shared.db Symbolic.site
      secondProof := by
  decide +kernel

theorem syncing_state :
    syncing.shared.db.headers Symbolic.site = some headerAtSeven ∧ syncing.shared.db.nameBans Symbolic.site = false ∧
    syncing.shared.db.nameInfo Symbolic.site = some ⟨Symbolic.site, 1, 0⟩ ∧
    syncing.workers 1 = .locked secondItem planAtSeven ∧
    decidingRes Symbolic.prims syncing.clock secondItem planAtSeven syncing.shared [secondRes] = some secondRes ∧
    ¬ Punished syncing.clock (step Symbolic.prims syncing (.finish 1 [secondRes])).shared.db Symbolic.site secondProof := by
  decide +kernel

theorem movedOn_shows : Shows Symbolic.prims movedOn Symbolic.site secondProof (.equivocationProof secondProof) := by
  obtain ⟨hheader, hban, hinfo, -⟩ := movedOn_state
  exact .delivered headerAtSeven hheader rfl rfl (secondProof_accepted hban hinfo) ⟨by decide +kernel, by decide +kernel⟩

theorem syncing_shows : Shows Symbolic.prims syncing Symbolic.site secondProof (.finish 1 [secondRes]) := by
  obtain ⟨hheader, hban, hinfo, hworker, hdeciding, -⟩ := syncing_state
  have hopen : openTx Symbolic.prims syncing.clock secondItem planAtSeven = .ok (startTx secondItem planAtSeven) := rfl
  have hequivocates : Equivocates Symbolic.prims syncing.shared.db (planAtSeven.opts secondItem.name) secondRes :=
    ⟨rfl, rfl, rfl, by decide +kernel, (secondProof_accepted hban hinfo).remoteValid, by decide +kernel⟩
  exact .synced headerAtSeven 1 secondItem planAtSeven [secondRes] secondRes hheader rfl rfl hworker hopen hdeciding
    hequivocates rfl

/-- Both handlers are shown the equivocation at epoch 7, in the second week after the ban,
    and record nothing. -/
theorem a_second_equivocation_is_ignored :
    Shows Symbolic.prims movedOn Symbolic.site secondProof (.equivocationProof secondProof) ∧
    ¬ Punished movedOn.clock (step Symbolic.prims movedOn (.equivocationProof secondProof)).shared.db Symbolic.site secondProof ∧
    Shows Symbolic.prims syncing Symbolic.site secondProof (.finish 1 [secondRes]) ∧
    ¬ Punished syncing.clock (step Symbolic.prims syncing (.finish 1 [secondRes])).shared.db Symbolic.site secondProof ∧
    movedOn.shared.db.headerBans Symbolic.site = some 1581465600 ∧ movedOn.clock = Symbolic.weeks 8 := by
  obtain ⟨-, -, -, hrecord, hclock, hignored⟩ := movedOn_state
  obtain ⟨-, -, -, -, -, hignored'⟩ := syncing_state
  exact ⟨movedOn_shows, hignored, syncing_shows, hignored', hrecord, hclock⟩

end Fnd.Node

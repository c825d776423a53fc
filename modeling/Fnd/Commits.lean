/-
  Fnd.Commits — whether overlapping RPC transactions lose committed sectors.

  A transaction starts at the size stored at its checkout and clones the blob at its first
  access; a commit copies the clone back and stores the request's size, and compares
  neither with what is stored by then. So a commit keeps the stored sectors in every run in
  which no header was stored for the name since the transaction's checkout, the request is
  not shorter than the transaction, and no transaction is written past its last 16-bit
  position (`commits_keep_stored_sectors`). Two transactions on one name, and the second
  commit drops the first one's sectors (`an_overlapping_commit_loses_sectors`).
-/

import Fnd.Node

namespace Fnd.Node

open Blob (File Tx)
open Store (DB Header)
open Protocol

variable {H K G : Type}

/-- The transaction goes on from what is stored: it stands past the stored size, and reads
    the stored sectors. -/
def Extends (s : Shared H K G) (tx : Tx) : Prop :=
  ∀ header, s.db.headers tx.name = some header → header.sectorSize ≤ tx.sectorSize ∧
    (tx.view (s.blobs tx.name)).sectors header.sectorSize.toNat = (s.blobs tx.name).sectors header.sectorSize.toNat

/-- A transaction checked out when `seen` headers had been stored for its name: as long as
    there are no more, it extends what is stored. -/
def Tracks (s : Shared H K G) (stores : Name → Nat) (seen : Nat) (tx : Tx) : Prop :=
  seen ≤ stores tx.name ∧ (seen = stores tx.name → Extends s tx)

def Tracked (n : State H K G) : Prop :=
  ∀ id entry, n.rpc.txStore id = some entry → Tracks n.shared n.stores (n.seen id) entry.val

/-- What is asked of a step: no epoch is reset; no transaction is written past its last
    position; a commit finds no header stored since its checkout, and is not shorter than
    its transaction unless it is for another epoch. -/
def CommitsCurrent (n : State H K G) : Event H G → Prop
  | .checkout req => req.resetEpoch = false
  | .writeSector txID _ => ∀ entry ∈ n.rpc.txStore txID, entry.val.sectorSize ≠ 65535
  | .commit req =>
    ∀ entry ∈ n.rpc.txStore req.txID, n.seen req.txID = n.stores entry.val.name ∧
      ∀ header ∈ n.shared.db.headers entry.val.name, header.epochHeight = req.epochHeight.toUInt16 →
        entry.val.sectorSize ≤ req.sectorSize.toUInt16
  | _ => True

instance (n : State H K G) : DecidablePred (CommitsCurrent n)
  | .checkout req => inferInstanceAs (Decidable (req.resetEpoch = false))
  | .writeSector txID _ => inferInstanceAs (Decidable (∀ entry ∈ n.rpc.txStore txID, _))
  | .commit req => inferInstanceAs (Decidable (∀ entry ∈ n.rpc.txStore req.txID, _))
  | .tick _ | .update .. | .dequeue _ | .check _ | .lock _ | .finish .. | .blobReq _ | .equivocationProof _ => .isTrue trivial

/-! ## The transactions -/

section

variable {s : Shared H K G} {stores : Name → Nat} {seen : Nat} {tx : Tx}

theorem Tracks.lazyInitialize (h : Tracks s stores seen tx) :
    Tracks s stores seen (tx.lazyInitialize (s.blobs tx.name)) := by
  unfold Tracks Extends
  simp only [Tx.lazyInitialize_name, Tx.lazyInitialize_sectorSize, Tx.view_lazyInitialize]
  exact h

theorem Tracks.written (h : Tracks s stores seen tx) (hl : tx.Live) (hwrap : tx.sectorSize ≠ 65535) (data : Bytes) :
    Tracks s stores seen (Rpc.written s data tx) := by
  obtain ⟨tx', hw, -, hsize, hview⟩ := hl.writeSector (s.blobs tx.name) (Blob.zeroSector.copy data)
  have hname : tx'.name = tx.name := by
    simp only [Tx.writeSector, hl.1, hl.2, Bool.false_eq_true, if_false, Except.ok.injEq] at hw
    rw [← hw]
    exact Tx.lazyInitialize_name tx _
  simp only [Rpc.written, hw]
  refine ⟨hname ▸ h.1, fun hc header hh => ?_⟩
  rw [hname] at hc hh ⊢
  obtain ⟨hle, hsec⟩ := h.2 hc header hh
  have hpos : tx'.sectorSize.toNat = tx.sectorSize.toNat + 1 := by
    have hne : tx.sectorSize.toNat ≠ 65535 := fun e => hwrap (UInt16.toNat_inj.mp e)
    have hlt := tx.sectorSize.toNat_lt
    rw [hsize, UInt16.toNat_add, UInt16.toNat_one]
    omega
  have hle' := UInt16.le_iff_toNat_le.mp hle
  constructor
  · rw [UInt16.le_iff_toNat_le]; omega
  · rw [hview, ← hsec]
    exact File.sectors_congr fun i hi => File.sectorAt_writeSector_ne _ _ (by omega)

end

variable [Zero H] [DecidableEq H] {P : Prims H K G}

omit [DecidableEq H] in
/-- The next transaction of a checkout without a reset, before it is used. -/
theorem tracks_checkout (now : Time) (s : Shared H K G) (stores : Name → Nat) (name : Name) :
    Tracks s stores (stores name) ⟨name, File.zero, (Rpc.base P now s.db name).2.1, false, false, false⟩ := by
  refine ⟨Nat.le_refl _, fun _ header hh => ?_⟩
  simp only [Rpc.base, hh]
  exact ⟨UInt16.le_refl _, rfl⟩

/-- A step stores no header for the transaction's name and leaves its blob, or stores one. -/
theorem Tracks.step {n : State H K G} (hi : Inv n) (e : Event H G) {seen : Nat} {tx : Tx}
    (h : Tracks n.shared n.stores seen tx) : Tracks (step P n e).shared (step P n e).stores seen tx := by
  unfold Tracks Extends
  rcases step_name (P := P) hi e tx.name with hs | ⟨hs, hh, hb⟩
  · -- a stored header for the name leaves the transaction behind
    have := h.1
    exact ⟨by omega, by omega⟩
  · rw [hs, hh, hb]
    exact h

theorem step_txs {n : State H K G} {e : Event H G} (hi : Inv n) (ht : Tracked n) (hok : CommitsCurrent n e) :
    ∀ id entry, (step P n e).rpc.txStore id = some entry →
      Tracks n.shared n.stores ((step P n e).seen id) entry.val := by
  rcases (step_frame P n e).2 with ⟨hr, hs⟩ | hrpc
  · rw [hr, hs]
    exact ht
  unfold step
  split
  · exact ht
  cases e with
  | checkout req =>
    intro id entry
    simp only [act]
    rcases Rpc.checkout_cases P n.clock n.shared n.rpc req with ⟨f, hc⟩ | ⟨size, res, hsize, hc⟩ <;> rw [hc]
    · exact ht id entry
    · intro he
      by_cases hid : id = n.rpc.lastTxID + 1
      · subst hid
        simp only [Util.Cache.set, Function.update_self] at he ⊢
        cases he
        rw [show req.resetEpoch = false from hok] at hsize ⊢
        rw [hsize]
        exact tracks_checkout n.clock n.shared n.stores req.name
      · simp only [Util.Cache.set, Function.update_of_ne hid] at he ⊢
        exact ht id entry he
  | writeSector txID data =>
    intro id entry he
    obtain ⟨tx, hold, hv⟩ := (Rpc.writeSector_follows n.clock n.shared n.rpc txID data).2 id entry he
    rcases hv with hv | ⟨rfl, hv⟩ <;> rw [hv]
    · exact ht id _ hold
    · exact (ht id _ hold).written (hi.live id _ hold) (hok _ hold) data
  | commit req =>
    intro id entry he
    obtain ⟨tx, hold, hv⟩ := (Rpc.commit_follows P n.clock n.shared req hi.live).2 id entry he
    rcases hv with hv | ⟨-, hv⟩ <;> rw [hv]
    · exact ht id _ hold
    · exact (ht id _ hold).lazyInitialize
  | _ => cases hrpc

/-! ## The commits -/

/-- A commit that succeeds shortens no header of its epoch and changes no stored sector. -/
def KeepsSectors (P : Prims H K G) (n : State H K G) (e : Event H G) : Prop :=
  ∀ req, e = .commit req → n.down = false → (∃ u, (Rpc.commit P n.clock n.shared n.rpc req).res = .ok u) →
    ∀ name before after, n.shared.db.headers name = some before → (step P n e).shared.db.headers name = some after →
      (before.epochHeight = after.epochHeight → before.sectorSize ≤ after.sectorSize) ∧
      ((step P n e).shared.blobs name).sectors before.sectorSize.toNat =
        (n.shared.blobs name).sectors before.sectorSize.toNat

theorem step_keepsSectors {n : State H K G} {e : Event H G} (hi : Inv n) (ht : Tracked n) (hok : CommitsCurrent n e) :
    KeepsSectors P n e := by
  rintro req rfl - - name before after hb ha
  have hsame (hh : (step P n (.commit req)).shared.db.headers name = n.shared.db.headers name)
      (hf : (step P n (.commit req)).shared.blobs name = n.shared.blobs name) :
      (before.epochHeight = after.epochHeight → before.sectorSize ≤ after.sectorSize) ∧
      ((step P n (.commit req)).shared.blobs name).sectors before.sectorSize.toNat =
        (n.shared.blobs name).sectors before.sectorSize.toNat := by
    obtain rfl := Option.some.inj ((hb.symm.trans hh.symm).trans ha)
    exact ⟨fun _ => UInt16.le_refl _, by rw [hf]⟩
  rcases step_cases hi (.commit req) with hk | ⟨item, plan, msg, hw⟩ | ⟨req', tx, hw⟩
  · exact hsame (by rw [hk.same.headers]) (by rw [hk.blobs])
  · obtain ⟨w, msgs, he, -⟩ := hw.event
    cases he
  · obtain rfl : req = req' := Event.commit.inj hw.event
    obtain ⟨expiry, hopen⟩ := hw.open_
    by_cases hname : name = tx.name
    · subst hname
      rw [hw.db] at ha
      rw [hw.blobs]
      simp only [DB.setHeader_headers, Rpc.committedHeader, Function.update_self, Option.some.injEq] at ha ⊢
      subst ha
      obtain ⟨hcur, hlen⟩ := hok _ hopen
      obtain ⟨hle, hsec⟩ := (ht _ _ hopen).2 hcur before hb
      exact ⟨fun he => UInt16.le_trans hle (hlen before hb he), hsec⟩
    · exact hsame (by rw [hw.db]; exact Function.update_of_ne hname _ _)
        (by rw [hw.blobs]; exact Function.update_of_ne hname _ _)

/-- In every run of such steps, workers and clients interleaved in any order, every commit
    keeps the stored sectors. -/
theorem commits_keep_stored_sectors (P : Prims H K G) (clock : Time) (db : DB H K G) (blobs : Name → File)
    (es : List (Event H G)) (hes : Machine.Along (step P) CommitsCurrent (start clock db blobs) es) :
    Machine.Along (step P) (KeepsSectors P) (start clock db blobs) es := by
  refine Machine.along_of_inv (fun n : State H K G => Inv n ∧ Tracked n) (fun n e h hok => ?_) es _
    ⟨inv_start _ _ _, nofun⟩ hes
  have ht : Tracked (step P n e) := fun id entry he => (step_txs h.1 h.2 hok id entry he).step h.1 e
  exact ⟨⟨step_inv h.1 e, ht⟩, step_keepsSectors h.1 h.2 hok⟩

def opens : Event Symbolic.Sym Symbolic.Sig := .checkout ⟨Symbolic.site, false⟩

/-- Epoch 6 with these sectors, signed by the publisher. -/
def commits (txID : UInt32) (sectors : List Blob.Sector) : Rpc.CommitReq Symbolic.Sym Symbolic.Sig :=
  ⟨txID, 6, UInt32.ofNat sectors.length, some (Symbolic.tipOf sectors),
    Symbolic.sign 6 (UInt16.ofNat sectors.length) (Symbolic.tipOf sectors), false⟩

/-- One transaction after the other. -/
theorem commits_in_turn_keep_sectors :
    Machine.Along (step Symbolic.prims) (KeepsSectors Symbolic.prims) node
      [opens, .writeSector 1 (Symbolic.fill 1).1, .commit (commits 1 [Symbolic.fill 1]),
        opens, .writeSector 2 (Symbolic.fill 2).1, .commit (commits 2 [Symbolic.fill 1, Symbolic.fill 2])] :=
  commits_keep_stored_sectors Symbolic.prims _ _ _ _ (by decide +kernel)

/-- The node after two transactions were opened, each wrote, and the first committed two
    sectors. -/
def overlapped : State Symbolic.Sym Nat Symbolic.Sig :=
  Machine.run (step Symbolic.prims) node
    [opens, opens, .writeSector 2 (Symbolic.fill 3).1, .writeSector 1 (Symbolic.fill 1).1,
      .writeSector 1 (Symbolic.fill 2).1, .commit (commits 1 [Symbolic.fill 1, Symbolic.fill 2])]

/-- The second commit succeeds: its one sector replaces the two. -/
theorem an_overlapping_commit_loses_sectors :
    ¬ KeepsSectors Symbolic.prims overlapped (.commit (commits 2 [Symbolic.fill 3])) := by
  have hrun : overlapped.down = false ∧
      (Rpc.commit Symbolic.prims overlapped.clock overlapped.shared overlapped.rpc
        (commits 2 [Symbolic.fill 3])).res.isOk = true ∧
      (overlapped.shared.db.headers Symbolic.site).map (fun h => (h.epochHeight, h.sectorSize)) = some (6, 2) ∧
      ((step Symbolic.prims overlapped (.commit (commits 2 [Symbolic.fill 3]))).shared.db.headers Symbolic.site).map
        (fun h => (h.epochHeight, h.sectorSize)) = some (6, 1) := by
    decide +kernel
  obtain ⟨hd, hok, hb, ha⟩ := hrun
  obtain ⟨before, hb, heb⟩ := Option.map_eq_some_iff.mp hb
  obtain ⟨after, ha, hea⟩ := Option.map_eq_some_iff.mp ha
  intro h
  obtain ⟨u, hu⟩ : ∃ u, (Rpc.commit Symbolic.prims overlapped.clock overlapped.shared overlapped.rpc
      (commits 2 [Symbolic.fill 3])).res = .ok u := by
    generalize (Rpc.commit Symbolic.prims overlapped.clock overlapped.shared overlapped.rpc
      (commits 2 [Symbolic.fill 3])).res = r at hok
    cases r with
    | ok u => exact ⟨u, rfl⟩
    | error f => cases hok
  obtain ⟨he1, hs1⟩ := Prod.mk.inj heb
  obtain ⟨he2, hs2⟩ := Prod.mk.inj hea
  have hle := (h _ rfl hd ⟨u, hu⟩ _ _ _ hb ha).1 (he1.trans he2.symm)
  rw [hs1, hs2] at hle
  exact absurd hle (by decide)

end Fnd.Node

/-
  Fnd.P2p.Broadcast — a message to some of the connected peers (`BroadcastRandom` of
  `p2p/peer_muxer.go`).

  The peers are picked by index from the IDs of the muxer's map, which are distinct in every run
  (`peerIDs_nodup`). So a broadcast addresses as many peers as it should, each once, exactly when
  the indices are drawn in time (`random_sampling_iff`); otherwise the sender panics.
-/

import Fnd.P2p.PeerMuxer
import Fnd.Util.Sampler

namespace Fnd.P2p

open Util (sampleIndices Samples NewInTime samples_cases samples_iff)

variable {D : Type}

/-- The recipients; `none` is a panic. Whether a message can be sent to one changes nothing. -/
def broadcastRandom (r : Nat → Nat) (mux : PeerMuxer D) (size : Nat) : Option (List D) :=
  match sampleIndices r mux.peerIDs.length size with
  | none => none
  | some indices => indices.mapM fun i => mux.peerIDs[i]?

/-- As many peers as asked for, or all, each once. -/
def Addresses (r : Nat → Nat) (mux : PeerMuxer D) (size : Nat) : Prop :=
  ∃ recips, broadcastRandom r mux size = some recips ∧ recips.length = min size mux.peerIDs.length ∧ recips.Nodup ∧
    ∀ id ∈ recips, id ∈ mux.peerIDs

theorem mapM_getElem? {ids : List D} (hids : ids.Nodup) {indices : List Nat} (hnodup : indices.Nodup)
    (hlt : ∀ i ∈ indices, i < ids.length) :
    ∃ xs, (indices.mapM fun i => ids[i]?) = some xs ∧ xs.length = indices.length ∧ xs.Nodup ∧
      ∀ x ∈ xs, ∃ i ∈ indices, ids[i]? = some x := by
  induction indices with
  | nil => exact ⟨[], rfl, rfl, List.nodup_nil, fun x hx => absurd hx List.not_mem_nil⟩
  | cons i indices ih =>
    obtain ⟨hi, hrest⟩ := List.forall_mem_cons.mp hlt
    obtain ⟨hfresh, hnodup⟩ := List.nodup_cons.mp hnodup
    obtain ⟨xs, hxs, hlen, hdistinct, hfrom⟩ := ih hnodup hrest
    have hget : ids[i]? = some ids[i] := List.getElem?_eq_getElem hi
    refine ⟨ids[i] :: xs, ?_, congrArg (· + 1) hlen, List.nodup_cons.mpr ⟨fun hmem => ?_, hdistinct⟩, fun x hx => ?_⟩
    · rw [List.mapM_cons, hget, hxs]
      rfl
    · -- the same ID at another index
      obtain ⟨j, hj, hjx⟩ := hfrom _ hmem
      have hij : i = j := (List.getElem?_inj hi hids).mp (hget.trans hjx.symm)
      exact hfresh (hij ▸ hj)
    · rcases List.mem_cons.mp hx with rfl | hx
      · exact ⟨i, List.mem_cons_self, hget⟩
      · obtain ⟨j, hj, hjx⟩ := hfrom x hx
        exact ⟨j, List.mem_cons_of_mem _ hj, hjx⟩

theorem addresses_iff {r : Nat → Nat} {mux : PeerMuxer D} (hids : mux.peerIDs.Nodup)
    (hr : 0 < mux.peerIDs.length → ∀ i, r i < mux.peerIDs.length) (size : Nat) :
    Addresses r mux size ↔ NewInTime r mux.peerIDs.length size := by
  rcases samples_cases hr size with ⟨⟨indices, hsome, hlen, hnodup, hlt⟩, hnew⟩ | ⟨hnone, hlate⟩
  · refine iff_of_true ?_ hnew
    obtain ⟨recips, hrecips, hlen', hdistinct, hfrom⟩ := mapM_getElem? hids hnodup hlt
    refine ⟨recips, ?_, hlen'.trans hlen, hdistinct, fun id hid => ?_⟩
    · simp only [broadcastRandom, hsome]
      exact hrecips
    · obtain ⟨i, -, hi⟩ := hfrom id hid
      exact List.mem_of_getElem? hi
  · refine iff_of_false (fun ⟨_, hrecips, _⟩ => ?_) hlate
    simp only [broadcastRandom, hnone] at hrecips
    cases hrecips

/-! ## The IDs of the muxer -/

namespace PeerMuxer

theorem removeInboundPeerByIP_peers {p p' : PeerMuxer D} {peer : Conn} (h : p.removeInboundPeerByIP peer = some p') :
    p'.peers = p.peers := by
  unfold removeInboundPeerByIP at h
  dsimp only at h
  split at h
  · cases h
  · cases h
    rfl

variable [DecidableEq D]

theorem closed_peers (p : PeerMuxer D) (id : D) : (p.step (.closed id)).peers.Sublist p.peers := by
  cases hid : p.peerByID id with
  | none =>
    simp only [step, handlePeerClose, hid]
    exact List.Sublist.refl _
  | some peer =>
    cases hd : peer.direction with
    | outbound =>
      simp only [step, handlePeerClose, hid, hd]
      exact List.filter_sublist
    | inbound =>
      simp only [step, handlePeerClose, hid, hd]
      cases hremoved : removeInboundPeerByIP { p with inboundCount := p.inboundCount - 1 } peer with
      | none => exact List.Sublist.refl _
      | some p' =>
        have hpeers := removeInboundPeerByIP_peers hremoved
        show (p'.peers.filter (·.1 ≠ id)).Sublist p.peers
        rw [hpeers]
        exact List.filter_sublist

theorem step_peerIDs (p : PeerMuxer D) (e : Event D) (h : p.peerIDs.Nodup) : (p.step e).peerIDs.Nodup := by
  cases e with
  | opened id peer =>
    cases hid : p.peerByID id with
    | some conn =>
      have hsame : p.step (.opened id peer) = p := by
        simp only [step, handlePeerOpen, hid]
        rfl
      rw [hsame]
      exact h
    | none =>
      have hids : (p.step (.opened id peer)).peerIDs = id :: p.peerIDs := by
        simp only [step, handlePeerOpen, hid]
        cases peer.direction <;> rfl
      rw [hids]
      exact List.nodup_cons.mpr ⟨not_mem_ids hid, h⟩
  | closed id => exact h.sublist ((p.closed_peers id).map _)

theorem peerIDs_nodup (events : List (Event D)) : (Machine.run step new events).peerIDs.Nodup :=
  Machine.run_keeps (fun p : PeerMuxer D => p.peerIDs.Nodup) (fun p e h => step_peerIDs p e h) events _ List.nodup_nil

end PeerMuxer

/-- For every slice length and count, and every sequence of draws below the length; and for every
    muxer with as many peers. -/
theorem random_sampling_iff [DecidableEq D] {r : Nat → Nat} {n : Nat} (hr : 0 < n → ∀ i, r i < n) (count : Nat) :
    (Samples r n count ↔ NewInTime r n count) ∧
    ∀ events : List (PeerMuxer.Event D), (Machine.run PeerMuxer.step .new events).peerIDs.length = n →
      (Addresses r (Machine.run PeerMuxer.step .new events) count ↔ NewInTime r n count) := by
  refine ⟨samples_iff hr count, fun events hn => ?_⟩
  subst hn
  exact addresses_iff (PeerMuxer.peerIDs_nodup events) hr count

def twice (i : Nat) : Nat := i / 2 % 3

def threePeers : List (PeerMuxer.Event Nat) :=
  [.opened 7 ⟨0, .inbound, []⟩, .opened 8 ⟨1, .outbound, [10]⟩, .opened 9 ⟨2, .inbound, [11]⟩]

theorem two_of_three_peers_are_addressed :
    (0 < 3 → ∀ i, twice i < 3) ∧ sampleIndices twice 3 2 = some [0, 1] ∧ Samples twice 3 2 ∧
    Addresses twice (Machine.run PeerMuxer.step .new threePeers) 2 := by
  have hr : 0 < 3 → ∀ i, twice i < 3 := fun _ i => Nat.mod_lt _ (by decide)
  have hnew : NewInTime twice 3 2 := by
    refine .inr (.inr fun k hk => ?_)
    -- after three draws two indices have been drawn
    have hle : k ≤ 2 := by
      by_contra hlt
      have htwo : ({0, 1} : Finset Nat) ⊆ Rejection.seen twice k := by
        intro i hi
        rcases Finset.mem_insert.mp hi with rfl | hi
        · exact Finset.mem_image.mpr ⟨0, Finset.mem_range.mpr (by omega), rfl⟩
        · rw [Finset.mem_singleton.mp hi]
          exact Finset.mem_image.mpr ⟨2, Finset.mem_range.mpr (by omega), rfl⟩
      have hcard := Finset.card_le_card htwo
      rw [Finset.card_pair (by decide)] at hcard
      omega
    obtain rfl | rfl | rfl : k = 0 ∨ k = 1 ∨ k = 2 := by omega
    · exact ⟨0, by decide, by decide, by decide⟩
    · exact ⟨2, by decide, by decide, by decide⟩
    · exact ⟨2, by decide, by decide, by decide⟩
  have h := random_sampling_iff (D := Nat) hr 2
  exact ⟨hr, by decide, h.1.mpr hnew, (h.2 threePeers rfl).mpr hnew⟩

/-- Two of two, and a source that repeats itself: it panics. -/
theorem a_repeating_source_panics :
    (0 < 2 → ∀ i, (fun _ : Nat => 0) i < 2) ∧ sampleIndices (fun _ => 0) 2 2 = none ∧ ¬ Samples (fun _ => 0) 2 2 := by
  have hnone : sampleIndices (fun _ => 0) 2 2 = none := by decide
  refine ⟨fun _ _ => Nat.two_pos, hnone, fun ⟨_, hsome, _⟩ => ?_⟩
  rw [hnone] at hsome
  cases hsome

end Fnd.P2p

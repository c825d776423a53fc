/-
  Fnd.P2p.Connections — connections over time (`AddPeer`, `ClosePeer` and the receive loops of
  `p2p/peer_muxer.go`).

  Each registered connection has a receive loop. A loop that ends calls `handlePeerClose` with
  its peer's ID: whatever is registered under the ID by then is removed, and closed once the
  mutex is given back. So a loop that ends late takes down the connection that replaced its
  own (`a_late_exit_closes_the_successor`). Runs are safe exactly when every loop that ends
  finds its own connection under its ID, or none (`successor_survives_iff`); adding a
  connection only once the loops of the earlier ones have ended is enough
  (`sequential_exits`).
-/

import Fnd.P2p.PeerMuxer

namespace Fnd.P2p

/-- The muxer, the receive loops under way, the peers taken out of the map whose `Close` is
    still to be called, those closed, and the number of connections made. -/
structure Connections (D : Type) where
  mux : PeerMuxer D
  loops : List (D × Conn)
  closing : List Conn
  closed : List Conn
  made : Nat

namespace Connections

variable {D : Type} [DecidableEq D]

omit [DecidableEq D] in
def new : Connections D := ⟨PeerMuxer.new, [], [], [], 0⟩

inductive Event (D : Type) where
  /-- `AddPeer` with a new connection -/
  | addPeer (id : D) (direction : PeerDirection) (remoteIP : Bytes)
  | closePeer (id : D)
  /-- `Receive` of the connection's loop fails, or its envelope does not validate -/
  | loopEnds (id : D) (peer : Conn)
  /-- the `peer.Close()` after the mutex -/
  | closes (peer : Conn)
  deriving DecidableEq

/-- `handlePeerClose` up to the mutex; a panic changes nothing. -/
def handlePeerClose (s : Connections D) (id : D) : Connections D :=
  match s.mux.handlePeerClose id with
  | none => s
  | some (peer, mux) => { s with mux := mux, closing := peer.toList ++ s.closing }

def step (s : Connections D) : Event D → Connections D
  | .addPeer id direction remoteIP =>
    let peer : Conn := ⟨s.made, direction, remoteIP⟩
    match s.mux.handlePeerOpen id peer with
    | none => { s with made := s.made + 1 }
    | some mux => { s with mux := mux, loops := (id, peer) :: s.loops, made := s.made + 1 }
  | .closePeer id => s.handlePeerClose id
  | .loopEnds id peer =>
    if (id, peer) ∈ s.loops then { s with loops := s.loops.erase (id, peer) }.handlePeerClose id else s
  | .closes peer =>
    if peer ∈ s.closing then { s with closing := s.closing.erase peer, closed := peer :: s.closed } else s

/-- `peer` stays registered under `id`, and open if it was. -/
def Stays (s s' : Connections D) (id : D) (peer : Conn) : Prop :=
  s'.mux.peerByID id = some peer ∧
    (peer ∉ s.closing ∧ peer ∉ s.closed → peer ∉ s'.closing ∧ peer ∉ s'.closed)

instance (s s' : Connections D) (id : D) (peer : Conn) : Decidable (Stays s s' id peer) :=
  inferInstanceAs (Decidable (_ ∧ (_ → _)))

/-- The end of a loop, or of a close, leaves another connection alone that is registered
    under the ID by then. -/
def Survives (s : Connections D) : Event D → Prop
  | .loopEnds id peer =>
    (id, peer) ∈ s.loops → ∀ peer' ∈ s.mux.peerByID id, peer' ≠ peer → Stays s (s.step (.loopEnds id peer)) id peer'
  | .closes peer =>
    peer ∈ s.closing → ∀ id ∈ s.mux.peerIDs, ∀ peer' ∈ s.mux.peerByID id, peer' ≠ peer →
      Stays s (s.step (.closes peer)) id peer'
  | _ => True

/-- A loop that ends finds its own connection under its ID, or none. -/
def OwnExit (s : Connections D) : Event D → Prop
  | .loopEnds id peer => (id, peer) ∈ s.loops → ∀ peer' ∈ s.mux.peerByID id, peer' = peer
  | _ => True

/-- A connection is added once no loop of its ID is under way. -/
def Sequential (s : Connections D) : Event D → Prop
  | .addPeer id _ _ => id ∉ s.loops.map (·.1)
  | _ => True

instance (s : Connections D) : (e : Event D) → Decidable (Survives s e)
  | .loopEnds id peer => inferInstanceAs (Decidable ((id, peer) ∈ s.loops → ∀ peer' ∈ s.mux.peerByID id, _))
  | .closes peer => inferInstanceAs (Decidable (peer ∈ s.closing → ∀ id ∈ s.mux.peerIDs, _))
  | .addPeer _ _ _ => .isTrue trivial
  | .closePeer _ => .isTrue trivial

instance (s : Connections D) : (e : Event D) → Decidable (OwnExit s e)
  | .loopEnds id peer => inferInstanceAs (Decidable ((id, peer) ∈ s.loops → ∀ peer' ∈ s.mux.peerByID id, _))
  | .closes _ => .isTrue trivial
  | .addPeer _ _ _ => .isTrue trivial
  | .closePeer _ => .isTrue trivial

/-! ## One step -/

/-- The muxer's books are right, and connections are numbered as they come. -/
structure Inv (s : Connections D) : Prop where
  mux : s.mux.Inv
  numbered : ∀ peer ∈ s.mux.peers.map (·.2), peer.id < s.made

variable {s : Connections D}

/-- A close of the muxer: what was registered under the ID is no longer, everything else stays. -/
theorem handlePeerClose_eq (hi : Inv s) (id : D) : ∃ mux, mux.Inv ∧ mux.peers = s.mux.peers.filter (·.1 ≠ id) ∧
    s.handlePeerClose id = { s with mux := mux, closing := (s.mux.peerByID id).toList ++ s.closing } := by
  obtain ⟨mux, hclose, hpeers⟩ := PeerMuxer.handlePeerClose_peers hi.mux id
  have hinv := (PeerMuxer.closed_lawful hi.mux id).1
  rw [PeerMuxer.step, hclose] at hinv
  exact ⟨mux, hinv, hpeers, by simp only [handlePeerClose, hclose]⟩

theorem peerByID_filter (p : PeerMuxer D) {mux : PeerMuxer D} {id : D} (h : mux.peers = p.peers.filter (·.1 ≠ id)) (id' : D) :
    mux.peerByID id' = if id' = id then none else p.peerByID id' := by
  unfold PeerMuxer.peerByID
  rw [h]
  generalize p.peers = l
  induction l with
  | nil => simp
  | cons q l ih =>
    by_cases hq : q.1 = id
    · rw [List.filter_cons_of_neg (by simpa using hq), ih, List.lookup_cons]
      by_cases hid : id' = id
      · simp [hid]
      · have hne : (id' == q.1) = false := by simpa [hq] using hid
        simp [hid, hne]
    · rw [List.filter_cons_of_pos (by simpa using hq), List.lookup_cons, List.lookup_cons, ih]
      by_cases hid : id' = id
      · subst hid
        have hne : (id' == q.1) = false := by simpa using fun e : id' = q.1 => hq e.symm
        simp [hne]
      · simp [hid]

theorem handlePeerClose_inv (hi : Inv s) (id : D) : Inv (s.handlePeerClose id) := by
  obtain ⟨mux, hinv, hpeers, he⟩ := handlePeerClose_eq hi id
  rw [he]
  refine ⟨hinv, fun peer hp => ?_⟩
  rw [hpeers] at hp
  exact hi.numbered peer ((List.filter_sublist.map _).subset hp)

theorem step_inv (s : Connections D) (e : Event D) (hi : Inv s) : Inv (s.step e) := by
  cases e with
  | addPeer id direction remoteIP =>
    have hfresh : (⟨s.made, direction, remoteIP⟩ : Conn) ∉ s.mux.peers.map (·.2) :=
      fun h => absurd (hi.numbered _ h) (Nat.lt_irrefl _)
    cases h : s.mux.peerByID id with
    | some c =>
      have hopen : s.mux.handlePeerOpen id ⟨s.made, direction, remoteIP⟩ = none := by
        simp only [PeerMuxer.handlePeerOpen, h]
      simp only [step, hopen]
      exact ⟨hi.mux, fun peer hp => Nat.lt_succ_of_lt (hi.numbered peer hp)⟩
    | none =>
      obtain ⟨mux, hopen, hpeers⟩ := PeerMuxer.handlePeerOpen_peers h ⟨s.made, direction, remoteIP⟩
      have hone : s.mux.Once (.opened id ⟨s.made, direction, remoteIP⟩) := fun _ => hfresh
      have hinv := (PeerMuxer.opened_lawful hi.mux hone).1
      rw [PeerMuxer.step, hopen] at hinv
      simp only [step, hopen]
      refine ⟨hinv, fun peer hp => ?_⟩
      rw [hpeers, List.map_cons, List.mem_cons] at hp
      rcases hp with rfl | hp
      · exact Nat.lt_succ_self _
      · exact Nat.lt_succ_of_lt (hi.numbered peer hp)
  | closePeer id => exact handlePeerClose_inv hi id
  | loopEnds id peer =>
    simp only [step]
    split
    · exact handlePeerClose_inv (s := { s with loops := s.loops.erase (id, peer) }) ⟨hi.mux, hi.numbered⟩ id
    · exact hi
  | closes peer =>
    simp only [step]
    split
    · exact ⟨hi.mux, hi.numbered⟩
    · exact hi

theorem survives_iff (s : Connections D) (e : Event D) (hi : Inv s) : Survives s e ↔ OwnExit s e := by
  cases e with
  | addPeer => exact Iff.rfl
  | closePeer => exact Iff.rfl
  | closes peer =>
    refine iff_of_true (fun hmem id _ peer' hreg hne => ?_) trivial
    simp only [step, if_pos hmem]
    refine ⟨hreg, fun ⟨h1, h2⟩ => ⟨fun h => h1 (List.mem_of_mem_erase h), ?_⟩⟩
    simp only [List.mem_cons, not_or]
    exact ⟨hne, h2⟩
  | loopEnds id peer =>
    refine forall_congr' fun hmem => forall_congr' fun peer' => forall_congr' fun hreg => ?_
    obtain ⟨mux, -, hpeers, he⟩ :=
      handlePeerClose_eq (s := { s with loops := s.loops.erase (id, peer) }) ⟨hi.mux, hi.numbered⟩ id
    have hgone : (s.step (.loopEnds id peer)).mux.peerByID id = none := by
      simp only [step, if_pos hmem, he]
      rw [peerByID_filter s.mux hpeers id, if_pos rfl]
    constructor
    · intro h
      by_contra hne
      have hstays := (h hne).1
      rw [hgone] at hstays
      cases hstays
    · intro h hne
      exact absurd h hne

/-- A run keeps every successor exactly when every loop that ends finds its own connection
    registered under its ID, or none. -/
theorem successor_survives_iff (es : List (Event D)) :
    Machine.Along step Survives (new : Connections D) es ↔ Machine.Along step OwnExit new es :=
  Machine.along_iff Inv survives_iff (fun s e hi _ => step_inv s e hi) es new ⟨PeerMuxer.inv_new, nofun⟩

/-- A connection is closed and replaced; then its loop notices. -/
def lateExit : List (Event Nat) :=
  [.addPeer 7 .outbound [10], .closePeer 7, .closes ⟨0, .outbound, [10]⟩, .addPeer 7 .inbound [10],
    .loopEnds 7 ⟨0, .outbound, [10]⟩]

theorem a_late_exit_closes_the_successor : ¬ Machine.Along step Survives new lateExit := by decide +kernel

/-! ## One loop at a time -/

/-- The loops under way are those of the registered connections, or of none. -/
def OneLoop (s : Connections D) : Prop :=
  Inv s ∧ ∀ q ∈ s.loops, ∀ peer ∈ s.mux.peerByID q.1, peer = q.2

theorem oneLoop_close {s : Connections D} (h : OneLoop s) (id : D) : OneLoop (s.handlePeerClose id) := by
  obtain ⟨mux, -, hpeers, he⟩ := handlePeerClose_eq h.1 id
  refine ⟨handlePeerClose_inv h.1 id, ?_⟩
  rw [he]
  intro q hq peer hreg
  simp only [peerByID_filter s.mux hpeers] at hreg
  split at hreg
  · cases hreg
  · exact h.2 q hq peer hreg

theorem oneLoop_step (s : Connections D) (e : Event D) (h : OneLoop s) (hseq : Sequential s e) :
    OneLoop (s.step e) ∧ OwnExit s e := by
  cases e with
  | addPeer id direction remoteIP =>
    refine ⟨⟨step_inv s _ h.1, ?_⟩, trivial⟩
    cases hreg : s.mux.peerByID id with
    | some c =>
      have hopen : s.mux.handlePeerOpen id ⟨s.made, direction, remoteIP⟩ = none := by
        simp only [PeerMuxer.handlePeerOpen, hreg]
      simp only [step, hopen]
      exact h.2
    | none =>
      obtain ⟨mux, hopen, hpeers⟩ := PeerMuxer.handlePeerOpen_peers hreg ⟨s.made, direction, remoteIP⟩
      simp only [step, hopen]
      intro q hq peer hp
      rw [PeerMuxer.peerByID, hpeers, List.lookup_cons] at hp
      rcases List.mem_cons.mp hq with rfl | hq
      · simpa using hp.symm
      · have hne : q.1 ≠ id := fun e => hseq (e ▸ List.mem_map_of_mem hq)
        rw [beq_eq_false_iff_ne.mpr hne] at hp
        exact h.2 q hq peer hp
  | closePeer id => exact ⟨oneLoop_close h id, trivial⟩
  | loopEnds id peer =>
    refine ⟨?_, fun hmem peer' hreg => h.2 (id, peer) hmem peer' hreg⟩
    simp only [step]
    split
    · have herase : OneLoop { s with loops := s.loops.erase (id, peer) } :=
        ⟨⟨h.1.mux, h.1.numbered⟩, fun q hq => h.2 q (List.mem_of_mem_erase hq)⟩
      exact oneLoop_close herase id
    · exact h
  | closes peer =>
    refine ⟨?_, trivial⟩
    simp only [step]
    split
    · exact ⟨⟨h.1.mux, h.1.numbered⟩, h.2⟩
    · exact h

/-- Where connections of an ID follow one another, loop after loop, every exit is its own. -/
theorem sequential_exits (es : List (Event D)) (h : Machine.Along step Sequential (new : Connections D) es) :
    Machine.Along step OwnExit new es :=
  Machine.along_of_inv OneLoop oneLoop_step es new ⟨⟨PeerMuxer.inv_new, nofun⟩, nofun⟩ h

end Connections

end Fnd.P2p

/-
  Fnd.P2p.PeerMuxer — the books of connected peers (`p2p/peer_muxer.go`): the map by peer ID,
  the two counts, and the inbound and outbound tables by IP.

  Four structures are kept by hand. An inbound peer leaves its IP's list by a deletion inside
  a range over the same list, in the same backing array (`Slice.deleteEach`). As long as no
  connection object is registered under two IDs at once, the books stay right: the counts
  count the map, and each IP's list is the inbound peers of that IP, each once
  (`muxer_books`).
-/

import Mathlib.Data.List.Nodup
import Mathlib.Logic.Function.Basic
import Fnd.Lib.Machine
import Fnd.Lib.Slice
import Fnd.Basic

namespace Fnd.P2p

inductive PeerDirection where
  | inbound
  | outbound
  deriving DecidableEq, Repr

/-- A `Peer` of the muxer: which connection object it is, and what it answers. -/
structure Conn where
  id : Nat
  direction : PeerDirection
  remoteIP : Bytes
  deriving DecidableEq, Repr

/-- `peers` is the map, in some order. -/
structure PeerMuxer (D : Type) where
  peers : List (D × Conn)
  inboundCount : Int
  outboundCount : Int
  inboundPeersByIP : Bytes → Slice Conn
  outboundPeersByIP : Bytes → Option Conn

namespace PeerMuxer

variable {D : Type}

def new : PeerMuxer D := ⟨[], 0, 0, fun _ => Slice.nil, fun _ => none⟩

def peerIDs (p : PeerMuxer D) : List D := p.peers.map (·.1)

def count (p : PeerMuxer D) (d : PeerDirection) : Nat := p.peers.countP (·.2.direction = d)

/-- `none` is a panic. -/
def removeInboundPeerByIP (p : PeerMuxer D) (peer : Conn) : Option (PeerMuxer D) :=
  let list := p.inboundPeersByIP peer.remoteIP
  match Slice.deleteEach peer list.len 0 list with
  | none => none
  | some list => some { p with inboundPeersByIP := Function.update p.inboundPeersByIP peer.remoteIP list }

variable [DecidableEq D]

/-- `p.peers[id]`. -/
def peerByID (p : PeerMuxer D) (id : D) : Option Conn := p.peers.lookup id

/-- `none` is `ErrAlreadyConnected`. -/
def handlePeerOpen (p : PeerMuxer D) (id : D) (peer : Conn) : Option (PeerMuxer D) :=
  match p.peerByID id with
  | some _ => none
  | none =>
    let p :=
      match peer.direction with
      | .inbound =>
        { p with
          inboundCount := p.inboundCount + 1
          inboundPeersByIP :=
            Function.update p.inboundPeersByIP peer.remoteIP ((p.inboundPeersByIP peer.remoteIP).append peer) }
      | .outbound =>
        { p with
          outboundCount := p.outboundCount + 1
          outboundPeersByIP := Function.update p.outboundPeersByIP peer.remoteIP (some peer) }
    some { p with peers := (id, peer) :: p.peers }

/-- `handlePeerClose` under the mutex: the peer it then closes, if any. `none` is a panic. -/
def handlePeerClose (p : PeerMuxer D) (id : D) : Option (Option Conn × PeerMuxer D) :=
  match p.peerByID id with
  | none => some (none, p)
  | some peer =>
    let removed :=
      match peer.direction with
      | .inbound => removeInboundPeerByIP { p with inboundCount := p.inboundCount - 1 } peer
      | .outbound =>
        some { p with
          outboundCount := p.outboundCount - 1
          outboundPeersByIP := Function.update p.outboundPeersByIP peer.remoteIP none }
    removed.map fun p => (some peer, { p with peers := p.peers.filter (·.1 ≠ id) })

/-! ## The books -/

inductive Event (D : Type) where
  | opened (id : D) (peer : Conn)
  | closed (id : D)

/-- A refused open and a panic change nothing. -/
def step (p : PeerMuxer D) : Event D → PeerMuxer D
  | .opened id peer => (p.handlePeerOpen id peer).getD p
  | .closed id => ((p.handlePeerClose id).map (·.2)).getD p

/-- A connection object is registered when it is not registered already. -/
def Once (p : PeerMuxer D) : Event D → Prop
  | .opened id peer => p.peerByID id = none → peer ∉ p.peers.map (·.2)
  | .closed _ => True

instance (p : PeerMuxer D) : (e : Event D) → Decidable (Once p e)
  | .opened id peer => inferInstanceAs (Decidable (p.peerByID id = none → peer ∉ p.peers.map (·.2)))
  | .closed _ => .isTrue trivial

omit [DecidableEq D] in
structure Books (p : PeerMuxer D) : Prop where
  inbound : p.inboundCount = p.count .inbound
  outbound : p.outboundCount = p.count .outbound
  once : ∀ ip, (p.inboundPeersByIP ip).toList.Nodup
  byIP : ∀ ip peer, peer ∈ (p.inboundPeersByIP ip).toList ↔
    peer ∈ p.peers.map (·.2) ∧ peer.direction = .inbound ∧ peer.remoteIP = ip

/-- A call does not panic, and an open under a registered ID is refused and changes nothing. -/
def Lawful (p : PeerMuxer D) : Event D → Prop
  | .opened id peer => p.peerByID id ≠ none → p.handlePeerOpen id peer = none ∧ p.step (.opened id peer) = p
  | .closed id => p.handlePeerClose id ≠ none

/-! ## Every call keeps them -/

/-- IDs and connection objects are each registered once. -/
structure Inv (p : PeerMuxer D) : Prop extends Books p where
  ids : p.peerIDs.Nodup
  conns : (p.peers.map (·.2)).Nodup

omit [DecidableEq D] in
theorem inv_new : Inv (new : PeerMuxer D) where
  inbound := rfl
  outbound := rfl
  once := fun _ => List.nodup_nil
  byIP := fun _ _ => by simp [new]
  ids := List.nodup_nil
  conns := List.nodup_nil

/-! ### The table by address -/

/-- A table that lists, by address, the inbound ones of some connections. -/
structure Indexes (table : Bytes → Slice Conn) (conns : List Conn) : Prop where
  once : ∀ ip, (table ip).toList.Nodup
  byIP : ∀ ip peer, peer ∈ (table ip).toList ↔ peer ∈ conns ∧ peer.direction = .inbound ∧ peer.remoteIP = ip

section

variable {table : Bytes → Slice Conn} {conns conns' : List Conn} {peer : Conn}

theorem Indexes.outbound (h : Indexes table conns) (hd : peer.direction = .outbound)
    (hsame : ∀ c, c ≠ peer → (c ∈ conns' ↔ c ∈ conns)) : Indexes table conns' := by
  have hne : ∀ c : Conn, c.direction = .inbound → c ≠ peer := by
    intro c hc e
    rw [e, hd] at hc
    cases hc
  refine ⟨h.once, fun ip c => (h.byIP ip c).trans ?_⟩
  constructor
  · intro ⟨hc, hin, hip⟩
    exact ⟨(hsame c (hne c hin)).mpr hc, hin, hip⟩
  · intro ⟨hc, hin, hip⟩
    exact ⟨(hsame c (hne c hin)).mp hc, hin, hip⟩

theorem Indexes.update (h : Indexes table conns) {ip : Bytes} {list : Slice Conn} (hnodup : list.toList.Nodup)
    (hlist : ∀ c, c ∈ list.toList ↔ c ∈ conns' ∧ c.direction = .inbound ∧ c.remoteIP = ip)
    (hsame : ∀ c, c.remoteIP ≠ ip → (c ∈ conns' ↔ c ∈ conns)) :
    Indexes (Function.update table ip list) conns' := by
  constructor
  · intro ip'
    by_cases hip : ip' = ip
    · rw [hip, Function.update_self]; exact hnodup
    · rw [Function.update_of_ne hip]; exact h.once ip'
  · intro ip' c
    by_cases hip : ip' = ip
    · rw [hip, Function.update_self]; exact hlist c
    · rw [Function.update_of_ne hip, h.byIP]
      constructor
      · intro ⟨hc, hd, hc'⟩
        exact ⟨(hsame c (hc' ▸ hip)).mpr hc, hd, hc'⟩
      · intro ⟨hc, hd, hc'⟩
        exact ⟨(hsame c (hc' ▸ hip)).mp hc, hd, hc'⟩

theorem Indexes.append (h : Indexes table conns) (hnew : peer ∉ conns) (hd : peer.direction = .inbound) :
    Indexes (Function.update table peer.remoteIP ((table peer.remoteIP).append peer)) (peer :: conns) := by
  refine h.update ?_ (fun c => ?_) (fun c hip => ?_)
  · have hnot : peer ∉ (table peer.remoteIP).toList := fun hmem => hnew ((h.byIP _ _).mp hmem).1
    rw [Slice.toList_append, ← List.concat_eq_append]
    exact (h.once _).concat hnot
  · rw [Slice.toList_append, List.mem_append, List.mem_singleton, List.mem_cons, h.byIP]
    constructor
    · intro hc
      rcases hc with ⟨hc, hrest⟩ | rfl
      · exact ⟨.inr hc, hrest⟩
      · exact ⟨.inl rfl, hd, rfl⟩
    · intro ⟨hc, hrest⟩
      exact hc.symm.imp_left fun hc => ⟨hc, hrest⟩
  · have hne : c ≠ peer := fun e => hip (e ▸ rfl)
    rw [List.mem_cons, or_iff_right hne]

theorem Indexes.erase (h : Indexes table conns) {list : Slice Conn}
    (hlist : list.toList = (table peer.remoteIP).toList.erase peer) (hmem : ∀ c, c ∈ conns' ↔ c ≠ peer ∧ c ∈ conns) :
    Indexes (Function.update table peer.remoteIP list) conns' := by
  refine h.update (hlist ▸ (h.once _).erase peer) (fun c => ?_) (fun c hip => ?_)
  · rw [hlist, (h.once _).mem_erase_iff, h.byIP, hmem, and_assoc]
  · have hne : c ≠ peer := fun e => hip (e ▸ rfl)
    rw [hmem, and_iff_right hne]

end

omit [DecidableEq D] in
theorem Books.indexes {p : PeerMuxer D} (h : Books p) : Indexes p.inboundPeersByIP (p.peers.map (·.2)) := ⟨h.once, h.byIP⟩

/-! ### Opens and closes -/

variable {p : PeerMuxer D} {id : D} {peer : Conn}

theorem opened_inbound (h : p.peerByID id = none) (hd : peer.direction = .inbound) :
    p.handlePeerOpen id peer = some { p with
      peers := (id, peer) :: p.peers
      inboundCount := p.inboundCount + 1
      inboundPeersByIP :=
        Function.update p.inboundPeersByIP peer.remoteIP ((p.inboundPeersByIP peer.remoteIP).append peer) } := by
  simp only [handlePeerOpen, h, hd]

theorem opened_outbound (h : p.peerByID id = none) (hd : peer.direction = .outbound) :
    p.handlePeerOpen id peer = some { p with
      peers := (id, peer) :: p.peers
      outboundCount := p.outboundCount + 1
      outboundPeersByIP := Function.update p.outboundPeersByIP peer.remoteIP (some peer) } := by
  simp only [handlePeerOpen, h, hd]

theorem not_mem_ids (h : p.peerByID id = none) : id ∉ p.peerIDs := by
  intro hmem
  obtain ⟨q, hq, rfl⟩ := List.mem_map.mp hmem
  have := List.lookup_eq_none_iff.mp h q hq
  simp at this

theorem split_of_lookup (hi : Inv p) (h : p.peerByID id = some peer) :
    ∃ l₁ l₂, p.peers = l₁ ++ (id, peer) :: l₂ ∧ p.peers.filter (·.1 ≠ id) = l₁ ++ l₂ := by
  obtain ⟨l₁, l₂, hl, hne⟩ := List.lookup_eq_some_iff.mp h
  refine ⟨l₁, l₂, hl, ?_⟩
  have hids := hi.ids
  rw [peerIDs, hl, List.map_append, List.map_cons] at hids
  have hnot : id ∉ l₂.map (·.1) := (List.nodup_cons.mp (List.nodup_append.mp hids).2.1).1
  have h1 : l₁.filter (fun q => decide (q.1 ≠ id)) = l₁ := by
    rw [List.filter_eq_self]
    intro q hq
    have := hne q hq
    simpa using fun e : q.1 = id => by simp [e] at this
  have h2 : l₂.filter (fun q => decide (q.1 ≠ id)) = l₂ := by
    rw [List.filter_eq_self]
    intro q hq
    simpa using fun e : q.1 = id => hnot (List.mem_map.mpr ⟨q, hq, e⟩)
  rw [hl, List.filter_append, List.filter_cons, h1, h2]
  simp

theorem opened_lawful (hi : Inv p) (hone : Once p (.opened id peer)) :
    Inv (p.step (.opened id peer)) ∧ Lawful p (.opened id peer) := by
  cases h : p.peerByID id with
  | some c =>
    have hstep : p.handlePeerOpen id peer = none := by simp only [handlePeerOpen, h]
    have hp : p.step (.opened id peer) = p := by rw [step, hstep]; rfl
    exact ⟨hp.symm ▸ hi, fun _ => ⟨hstep, hp⟩⟩
  | none =>
    refine ⟨?_, fun hne => absurd h hne⟩
    have hids := List.nodup_cons.mpr ⟨not_mem_ids h, hi.ids⟩
    have hconns := List.nodup_cons.mpr ⟨hone h, hi.conns⟩
    cases hd : peer.direction with
    | inbound =>
      have ht := hi.indexes.append (hone h) hd
      rw [step, opened_inbound h hd, Option.getD_some]
      refine ⟨⟨?_, ?_, ht.once, ht.byIP⟩, hids, hconns⟩
      · simp [count, hd, hi.inbound]
      · simp [count, hd, hi.outbound]
    | outbound =>
      have ht : Indexes p.inboundPeersByIP (peer :: p.peers.map (·.2)) :=
        hi.indexes.outbound hd fun c hne => by rw [List.mem_cons, or_iff_right hne]
      rw [step, opened_outbound h hd, Option.getD_some]
      refine ⟨⟨?_, ?_, hi.once, ht.byIP⟩, hids, hconns⟩
      · simp [count, hd, hi.inbound]
      · simp [count, hd, hi.outbound]

omit [DecidableEq D] in
theorem removeInboundPeerByIP_eq (hnodup : (p.inboundPeersByIP peer.remoteIP).toList.Nodup) :
    ∃ list, list.toList = (p.inboundPeersByIP peer.remoteIP).toList.erase peer ∧ p.removeInboundPeerByIP peer =
      some { p with inboundPeersByIP := Function.update p.inboundPeersByIP peer.remoteIP list } := by
  obtain ⟨list, hdel, hlist⟩ := Slice.deleteEach_nodup peer hnodup
  exact ⟨list, hlist, by simp only [removeInboundPeerByIP, hdel]⟩

theorem closed_inbound (hi : Inv p) (h : p.peerByID id = some peer) (hd : peer.direction = .inbound) :
    ∃ list, list.toList = (p.inboundPeersByIP peer.remoteIP).toList.erase peer ∧
      p.handlePeerClose id = some (some peer, { p with
        peers := p.peers.filter (·.1 ≠ id)
        inboundCount := p.inboundCount - 1
        inboundPeersByIP := Function.update p.inboundPeersByIP peer.remoteIP list }) := by
  obtain ⟨list, hlist, hrem⟩ :=
    removeInboundPeerByIP_eq (p := { p with inboundCount := p.inboundCount - 1 }) (hi.once peer.remoteIP)
  exact ⟨list, hlist, by simp only [handlePeerClose, h, hd, hrem, Option.map_some]⟩

theorem closed_outbound (h : p.peerByID id = some peer) (hd : peer.direction = .outbound) :
    p.handlePeerClose id = some (some peer, { p with
      peers := p.peers.filter (·.1 ≠ id)
      outboundCount := p.outboundCount - 1
      outboundPeersByIP := Function.update p.outboundPeersByIP peer.remoteIP none }) := by
  simp only [handlePeerClose, h, hd, Option.map_some]

/-- A close takes the peer registered under the ID, if there is one, out of the map. -/
theorem handlePeerClose_peers (hi : Inv p) (id : D) :
    ∃ p', p.handlePeerClose id = some (p.peerByID id, p') ∧ p'.peers = p.peers.filter (·.1 ≠ id) := by
  cases h : p.peerByID id with
  | none =>
    refine ⟨p, by simp only [handlePeerClose, h], ?_⟩
    have hids := not_mem_ids h
    refine (List.filter_eq_self.mpr fun q hq => ?_).symm
    simpa using fun e : q.1 = id => hids (List.mem_map.mpr ⟨q, hq, e⟩)
  | some peer =>
    cases hd : peer.direction with
    | inbound =>
      obtain ⟨list, -, hclose⟩ := closed_inbound hi h hd
      exact ⟨_, hclose, rfl⟩
    | outbound => exact ⟨_, closed_outbound h hd, rfl⟩

theorem handlePeerOpen_peers (h : p.peerByID id = none) (peer : Conn) :
    ∃ p', p.handlePeerOpen id peer = some p' ∧ p'.peers = (id, peer) :: p.peers := by
  cases hd : peer.direction with
  | inbound => exact ⟨_, opened_inbound h hd, rfl⟩
  | outbound => exact ⟨_, opened_outbound h hd, rfl⟩

theorem step_opened_peers (h : p.peerByID id = none) (peer : Conn) :
    (p.step (.opened id peer)).peers = (id, peer) :: p.peers := by
  obtain ⟨p', hopen, hpeers⟩ := handlePeerOpen_peers h peer
  rw [step, hopen, Option.getD_some, hpeers]

theorem step_closed_peers (hi : Inv p) (id : D) : (p.step (.closed id)).peers = p.peers.filter (·.1 ≠ id) := by
  obtain ⟨p', hclose, hpeers⟩ := handlePeerClose_peers hi id
  rw [step, hclose, Option.map_some, Option.getD_some, hpeers]

theorem mem_step_closed (hi : Inv p) (id : D) (q : D × Conn) :
    q ∈ (p.step (.closed id)).peers ↔ q ∈ p.peers ∧ q.1 ≠ id := by
  rw [step_closed_peers hi id, List.mem_filter, decide_eq_true_eq]

theorem mem_of_peerByID (h : p.peerByID id = some peer) : (id, peer) ∈ p.peers := by
  obtain ⟨l₁, l₂, hl, -⟩ := List.lookup_eq_some_iff.mp h
  rw [hl]
  exact List.mem_append_right _ List.mem_cons_self

theorem fst_ne_iff (hi : Inv p) (h : p.peerByID id = some peer) {q : D × Conn} (hq : q ∈ p.peers) :
    q.1 ≠ id ↔ q ≠ (id, peer) :=
  not_congr ⟨fun hid => List.inj_on_of_nodup_map hi.ids hq (mem_of_peerByID h) hid, fun he => congrArg Prod.fst he⟩

/-- Removing one peer from the map takes its connection from those registered, and no other. -/
theorem mem_conns_filter (hi : Inv p) (h : p.peerByID id = some peer) (c : Conn) :
    c ∈ (p.peers.filter (·.1 ≠ id)).map (·.2) ↔ c ≠ peer ∧ c ∈ p.peers.map (·.2) := by
  obtain ⟨l₁, l₂, hl, hrest⟩ := split_of_lookup hi h
  have hconns := hi.conns
  rw [hl, List.map_append, List.map_cons, List.nodup_middle] at hconns
  have hgone := (List.nodup_cons.mp hconns).1
  rw [hrest, hl, List.map_append, List.map_append, List.map_cons, List.mem_append, List.mem_append, List.mem_cons]
  rw [List.mem_append] at hgone
  constructor
  · intro hc
    exact ⟨fun e => hgone (e ▸ hc), hc.imp_right .inr⟩
  · intro ⟨hne, hc⟩
    rcases hc with hc | hc | hc
    · exact .inl hc
    · exact absurd hc hne
    · exact .inr hc

theorem nodup_filter (hi : Inv p) (id : D) :
    ((p.peers.filter (·.1 ≠ id)).map (·.1)).Nodup ∧ ((p.peers.filter (·.1 ≠ id)).map (·.2)).Nodup :=
  ⟨hi.ids.sublist (List.filter_sublist.map _), hi.conns.sublist (List.filter_sublist.map _)⟩

theorem count_filter (hi : Inv p) (h : p.peerByID id = some peer) (d : PeerDirection) :
    (p.count d : Int) = (p.peers.filter (·.1 ≠ id)).countP (·.2.direction = d) + if peer.direction = d then 1 else 0 := by
  obtain ⟨l₁, l₂, hl, hrest⟩ := split_of_lookup hi h
  rw [hrest, count, hl]
  simp only [List.countP_append, List.countP_cons, decide_eq_true_eq]
  split <;> omega

theorem closed_lawful (hi : Inv p) (id : D) : Inv (p.step (.closed id)) ∧ Lawful p (.closed id) := by
  cases h : p.peerByID id with
  | none =>
    have hc : p.handlePeerClose id = some (none, p) := by simp only [handlePeerClose, h]
    have hp : p.step (.closed id) = p := by rw [step, hc]; rfl
    exact ⟨hp.symm ▸ hi, by rw [Lawful, hc]; exact Option.some_ne_none _⟩
  | some peer =>
    obtain ⟨hids, hconns⟩ := nodup_filter hi id
    have hmem := mem_conns_filter hi h
    have hin := count_filter hi h .inbound
    have hout := count_filter hi h .outbound
    cases hd : peer.direction with
    | inbound =>
      obtain ⟨list, hlist, hclose⟩ := closed_inbound hi h hd
      have ht := hi.indexes.erase hlist hmem
      refine ⟨?_, by rw [Lawful, hclose]; exact Option.some_ne_none _⟩
      rw [step, hclose, Option.map_some, Option.getD_some]
      refine ⟨⟨?_, ?_, ht.once, ht.byIP⟩, hids, hconns⟩
      · have := hi.inbound
        simp only [hd, if_true] at hin
        simp only [count]; omega
      · have := hi.outbound
        simp only [hd, reduceCtorEq, if_false] at hout
        simp only [count]; omega
    | outbound =>
      have hclose := closed_outbound h hd
      have ht : Indexes p.inboundPeersByIP ((p.peers.filter (·.1 ≠ id)).map (·.2)) :=
        hi.indexes.outbound hd fun c hne => by rw [hmem, and_iff_right hne]
      refine ⟨?_, by rw [Lawful, hclose]; exact Option.some_ne_none _⟩
      rw [step, hclose, Option.map_some, Option.getD_some]
      refine ⟨⟨?_, ?_, hi.once, ht.byIP⟩, hids, hconns⟩
      · have := hi.inbound
        simp only [hd, reduceCtorEq, if_false] at hin
        simp only [count]; omega
      · have := hi.outbound
        simp only [hd, if_true] at hout
        simp only [count]; omega

theorem step_lawful (hi : Inv p) {e : Event D} (hone : Once p e) : Inv (p.step e) ∧ Lawful p e := by
  cases e with
  | opened id peer => exact opened_lawful hi hone
  | closed id => exact closed_lawful hi id

/-- Over every run of opens and closes in which no connection is registered twice at a time. -/
theorem muxer_books (es : List (Event D)) (h : Machine.Along step Once new es) :
    Books (Machine.run step new es) ∧ Machine.Along step Lawful new es := by
  have hrun : Inv (Machine.run step new es) :=
    Machine.run_inv Inv (fun p e hi hone => (step_lawful hi hone).1) es new inv_new h
  exact ⟨hrun.toBooks, Machine.along_of_inv Inv (fun p e hi hone => step_lawful hi hone) es new inv_new h⟩

/-- Three peers behind one address, the first of them closed, and an open under its neighbour's ID. -/
def threeBehindOne : List (Event Nat) :=
  [.opened 0 ⟨0, .inbound, [10]⟩, .opened 1 ⟨1, .inbound, [10]⟩, .opened 2 ⟨2, .inbound, [10]⟩,
    .opened 3 ⟨3, .outbound, [10]⟩, .closed 0, .opened 1 ⟨4, .inbound, [10]⟩, .closed 2]

theorem threeBehindOne_books : Machine.Along step Once new threeBehindOne ∧
    Books (Machine.run step new threeBehindOne) ∧ Machine.Along step Lawful new threeBehindOne :=
  have h : Machine.Along step Once new threeBehindOne := by decide +kernel
  ⟨h, muxer_books threeBehindOne h⟩

end PeerMuxer

end Fnd.P2p

/-
  Fnd.P2p.PeerManager — `AcceptPeer` and `DialPeer` (`p2p/peer_manager.go`), any number of
  calls at once over one muxer.

  A call takes a weight of its direction's semaphore, passes the gate under its direction's
  mutex, which enters its address among the pending ones, dials and shakes hands without any
  lock, and ends in `completeConnection`: the entry is deleted under the direction's mutex,
  the peer is registered under the muxer's. Between any two of these steps any other call
  may take any of its own, and any peer may be closed. What the network and the store answer
  is part of the event: the address a dial reaches, the ID a node presents, whether it is
  banned.

  `step_effect` says all that a step can do. The muxer's books stay right (`step_inv`): a
  connection object is registered by its own call, once.
-/

import Fnd.P2p.PeerMuxer

namespace Fnd.P2p

namespace PeerMuxer

variable {D : Type}

/-- `PeerCount`: inbound, outbound. -/
def peerCount (p : PeerMuxer D) : Int × Int := (p.inboundCount, p.outboundCount)

def hasOutboundPeerIP (p : PeerMuxer D) (ip : Bytes) : Bool := (p.outboundPeersByIP ip).isSome

variable [DecidableEq D]

def hasPeerID (p : PeerMuxer D) (id : D) : Bool := (p.peerByID id).isSome

end PeerMuxer

inductive PeerErr where
  | maxOutbound
  | maxInbound
  | alreadyConnecting
  | peerIDMismatch
  | selfDial
  | alreadyConnected
  | peerBanned
  /-- a dial or a handshake that failed -/
  | failed
  deriving DecidableEq, Repr

def maxPendingInbound : Nat := 12

def maxPendingOutbound : Nat := 5

def maxPending : PeerDirection → Nat
  | .inbound => maxPendingInbound
  | .outbound => maxPendingOutbound

def hour : Int := 3600 * second

def yearBan : Int := 365 * (24 * hour)

/-- A `net.TCPAddr` as it is read: `IP.String()` and `String()`. -/
structure TCPAddr where
  ip : Bytes
  string : Bytes
  deriving DecidableEq, Repr

inductive Attempt (D : Type) where
  /-- `AcceptPeer`, of a connection from this address -/
  | accept (addr : TCPAddr)
  /-- `DialPeer` -/
  | dial (peerID : D) (ip : Bytes) (verifyPeerID : Bool)
  deriving DecidableEq, Repr

namespace Attempt

variable {D : Type}

def direction : Attempt D → PeerDirection
  | .accept _ => .inbound
  | .dial .. => .outbound

/-- The string the gate enters among the pending ones. -/
def address : Attempt D → Bytes
  | .accept addr => addr.string
  | .dial _ ip _ => ip

/-- The string `completeConnection` deletes: `RemoteAddr` of an accepted connection, which is
    the string of its address, and `RemoteIP` of a dialed one, the IP that it reached. -/
def remote (remoteIP : Bytes) : Attempt D → Bytes
  | .accept addr => addr.string
  | .dial .. => remoteIP

/-- `Verify` of the stored peer. -/
def verify : Attempt D → Bool
  | .accept _ => false
  | .dial _ _ verifyPeerID => verifyPeerID

end Attempt

inductive CallStage (D : Type) where
  /-- past `TryAcquire` -/
  | acquired
  /-- past the gate -/
  | gated
  /-- past the handshake, with the ID the node presented and the connection's `RemoteIP` -/
  | shaken (theirPeerID : D) (remoteIP : Bytes)
  /-- in `completeConnection`, past its deletion -/
  | cleaned (theirPeerID : D) (remoteIP : Bytes)
  /-- before the deferred `Release` -/
  | returning (err : Option PeerErr)
  deriving DecidableEq, Repr

structure Call (D : Type) where
  attempt : Attempt D
  stage : CallStage D
  deriving DecidableEq, Repr

structure PeerManagerOpts (D : Type) where
  /-- the hash of the signer's key -/
  peerID : D
  listenHost : Bytes
  maxInbound : Int
  maxOutbound : Int

inductive Write (D : Type) where
  | banOutboundPeer (ip : Bytes) (duration : Int)
  | setPeer (id : D) (ip : Bytes) (verify : Bool)
  deriving DecidableEq, Repr

/-- `pending` and `sem` are the two maps and the two semaphores, by direction; `made` numbers
    the connection objects as they are registered. -/
structure PeerManager (D : Type) where
  opts : PeerManagerOpts D
  mux : PeerMuxer D
  pending : PeerDirection → Bytes → Bool
  sem : PeerDirection → Nat
  calls : List (Call D)
  made : Nat
  writes : List (Write D)

namespace PeerManager

variable {D : Type}

def new (opts : PeerManagerOpts D) : PeerManager D :=
  ⟨opts, PeerMuxer.new, fun _ _ => false, fun _ => 0, [], 0, []⟩

/-- `maxInbound`, `maxOutbound`. -/
def limit (s : PeerManager D) : PeerDirection → Int
  | .inbound => s.opts.maxInbound
  | .outbound => s.opts.maxOutbound

/-- The count the gate compares with it. -/
def registered (s : PeerManager D) : PeerDirection → Int
  | .inbound => s.mux.peerCount.1
  | .outbound => s.mux.peerCount.2

def setPending (s : PeerManager D) (d : PeerDirection) (address : Bytes) (b : Bool) : PeerManager D :=
  { s with pending := Function.update s.pending d (Function.update (s.pending d) address b) }

/-- `isBanned` is what `IsBanned` said of the address, `none` if it failed, which is logged. -/
def gateInboundPeer (s : PeerManager D) (addr : TCPAddr) (isBanned : Option Bool) : Except PeerErr (PeerManager D) :=
  if addr.ip = s.opts.listenHost then .error .selfDial
  else if s.pending .inbound addr.string then .error .alreadyConnecting
  else if s.mux.peerCount.1 ≥ s.opts.maxInbound then .error .maxInbound
  else if isBanned = some true then .error .peerBanned
  else .ok (s.setPending .inbound addr.string true)

def cleanupInboundPeer (s : PeerManager D) (addr : Bytes) : PeerManager D := s.setPending .inbound addr false

def cleanupOutboundPeer (s : PeerManager D) (ip : Bytes) : PeerManager D := s.setPending .outbound ip false

def banOutboundPeer (s : PeerManager D) (ip : Bytes) : PeerManager D :=
  { s with writes := .banOutboundPeer ip hour :: s.writes }

/-- What a call does when its dial, its handshake or its check of the ID fails. -/
def giveUp (s : PeerManager D) : Attempt D → PeerManager D
  | .accept addr => s.cleanupInboundPeer addr.string
  | .dial _ ip _ => (s.banOutboundPeer ip).cleanupOutboundPeer ip

/-- The first lines of `completeConnection`. -/
def cleanup (s : PeerManager D) (remoteIP : Bytes) (a : Attempt D) : PeerManager D :=
  match a.direction with
  | .inbound => s.cleanupInboundPeer (a.remote remoteIP)
  | .outbound => s.cleanupOutboundPeer (a.remote remoteIP)

variable [DecidableEq D]

def gateOutboundPeer (s : PeerManager D) (peerID : D) (ip : Bytes) (isBanned : Option Bool) :
    Except PeerErr (PeerManager D) :=
  if ip = s.opts.listenHost then .error .selfDial
  else if s.pending .outbound ip then .error .alreadyConnecting
  else if s.mux.peerCount.2 ≥ s.opts.maxOutbound then .error .maxOutbound
  else if s.mux.hasPeerID peerID then .error .alreadyConnected
  else if s.mux.hasOutboundPeerIP ip then .error .alreadyConnected
  else if isBanned = some true then .error .peerBanned
  else .ok (s.setPending .outbound ip true)

def gate (s : PeerManager D) (a : Attempt D) (isBanned : Option Bool) : Except PeerErr (PeerManager D) :=
  match a with
  | .accept addr => s.gateInboundPeer addr isBanned
  | .dial peerID ip _ => s.gateOutboundPeer peerID ip isBanned

/-- `verifyPeerID && peerID != theirPeerID`. -/
def mismatch (theirPeerID : D) : Attempt D → Bool
  | .accept _ => false
  | .dial peerID _ verifyPeerID => verifyPeerID && decide (peerID ≠ theirPeerID)

/-- The rest of `completeConnection`: the manager, and the error it returns. -/
def complete (s : PeerManager D) (a : Attempt D) (theirPeerID : D) (remoteIP : Bytes) : PeerManager D × Option PeerErr :=
  if theirPeerID = s.opts.peerID then
    let writes :=
      match a.direction with
      | .inbound => s.writes
      | .outbound => .banOutboundPeer remoteIP yearBan :: s.writes
    ({ s with writes := writes }, some .selfDial)
  else
    match s.mux.handlePeerOpen theirPeerID ⟨s.made, a.direction, remoteIP⟩ with
    | none => (s, some .alreadyConnected)
    | some mux =>
      ({ s with mux := mux, made := s.made + 1, writes := .setPeer theirPeerID remoteIP a.verify :: s.writes }, none)

def advance (s : PeerManager D) (a : Attempt D) (before after : CallStage D) : PeerManager D :=
  { s with calls := ⟨a, after⟩ :: s.calls.erase ⟨a, before⟩ }

inductive Event (D : Type) where
  /-- the call, up to `TryAcquire`, which refuses it (`ErrInboundBusy`, `ErrOutboundBusy`) or lets it in -/
  | starts (a : Attempt D)
  | gates (a : Attempt D) (isBanned : Option Bool)
  /-- the dial or the handshake fails -/
  | fails (a : Attempt D)
  /-- the handshake succeeds, over a connection to this IP if the call dialed -/
  | shakes (a : Attempt D) (theirPeerID : D) (reached : Bytes)
  | cleans (a : Attempt D) (theirPeerID : D) (remoteIP : Bytes)
  | completes (a : Attempt D) (theirPeerID : D) (remoteIP : Bytes)
  | returns (a : Attempt D) (err : Option PeerErr)
  /-- `handlePeerClose`, by `ClosePeer` or at the end of a receive loop -/
  | closes (id : D)
  deriving DecidableEq

def remoteIP (reached : Bytes) : Attempt D → Bytes
  | .accept addr => addr.ip
  | .dial .. => reached

/-- An event of a call that is not at that stage changes nothing. -/
def step (s : PeerManager D) : Event D → PeerManager D
  | .starts a =>
    if s.sem a.direction < maxPending a.direction then
      { s with
        sem := Function.update s.sem a.direction (s.sem a.direction + 1)
        calls := ⟨a, .acquired⟩ :: s.calls }
    else s
  | .gates a isBanned =>
    if ⟨a, .acquired⟩ ∈ s.calls then
      match s.gate a isBanned with
      | .error err => s.advance a .acquired (.returning (some err))
      | .ok s => s.advance a .acquired .gated
    else s
  | .fails a => if ⟨a, .gated⟩ ∈ s.calls then (s.giveUp a).advance a .gated (.returning (some .failed)) else s
  | .shakes a theirPeerID reached =>
    if ⟨a, .gated⟩ ∈ s.calls then
      if mismatch theirPeerID a then (s.giveUp a).advance a .gated (.returning (some .peerIDMismatch))
      else s.advance a .gated (.shaken theirPeerID (remoteIP reached a))
    else s
  | .cleans a theirPeerID remoteIP =>
    if ⟨a, .shaken theirPeerID remoteIP⟩ ∈ s.calls then
      (s.cleanup remoteIP a).advance a (.shaken theirPeerID remoteIP) (.cleaned theirPeerID remoteIP)
    else s
  | .completes a theirPeerID remoteIP =>
    if ⟨a, .cleaned theirPeerID remoteIP⟩ ∈ s.calls then
      let (s, err) := s.complete a theirPeerID remoteIP
      s.advance a (.cleaned theirPeerID remoteIP) (.returning err)
    else s
  | .returns a err =>
    if ⟨a, .returning err⟩ ∈ s.calls then
      { s with
        sem := Function.update s.sem a.direction (s.sem a.direction - 1)
        calls := s.calls.erase ⟨a, .returning err⟩ }
    else s
  | .closes id => { s with mux := s.mux.step (.closed id) }

/-! ## What a step can do -/

def Event.call : Event D → Option (Call D)
  | .starts _ => none
  | .gates a _ => some ⟨a, .acquired⟩
  | .fails a => some ⟨a, .gated⟩
  | .shakes a _ _ => some ⟨a, .gated⟩
  | .cleans a theirPeerID remoteIP => some ⟨a, .shaken theirPeerID remoteIP⟩
  | .completes a theirPeerID remoteIP => some ⟨a, .cleaned theirPeerID remoteIP⟩
  | .returns a err => some ⟨a, .returning err⟩
  | .closes _ => none

/-- A call about to register its peer: the ID is not the manager's own and is free. -/
structure Registers (s : PeerManager D) (a : Attempt D) (theirPeerID : D) (remoteIP : Bytes) : Prop where
  mem : ⟨a, .cleaned theirPeerID remoteIP⟩ ∈ s.calls
  other : theirPeerID ≠ s.opts.peerID
  free : s.mux.peerByID theirPeerID = none

/-- `journal s w` differs from `s` in what it wrote to the store. -/
def journal (s : PeerManager D) (writes : List (Write D)) : PeerManager D := { s with writes := writes }

inductive Effect (s : PeerManager D) : Event D → PeerManager D → Prop
  | skips {e : Event D} (idle : ∀ c ∈ e.call, c ∉ s.calls) : Effect s e s
  | starts {a : Attempt D} (room : s.sem a.direction < maxPending a.direction) :
      Effect s (.starts a) { s with
        sem := Function.update s.sem a.direction (s.sem a.direction + 1)
        calls := ⟨a, .acquired⟩ :: s.calls }
  | refused {a : Attempt D} {isBanned : Option Bool} {err : PeerErr} (mem : ⟨a, .acquired⟩ ∈ s.calls) :
      Effect s (.gates a isBanned) (s.advance a .acquired (.returning (some err)))
  | passed {a : Attempt D} {isBanned : Option Bool} (mem : ⟨a, .acquired⟩ ∈ s.calls)
      (free : s.pending a.direction a.address = false) (room : s.registered a.direction < s.limit a.direction)
      (unconnected : a.direction = .outbound → s.mux.hasOutboundPeerIP a.address = false) :
      Effect s (.gates a isBanned) ((s.setPending a.direction a.address true).advance a .acquired .gated)
  | gaveUp {e : Event D} {a : Attempt D} {err : PeerErr} {writes : List (Write D)} (mem : ⟨a, .gated⟩ ∈ s.calls)
      (call : e.call = some ⟨a, .gated⟩) :
      Effect s e (((s.setPending a.direction a.address false).journal writes).advance a .gated (.returning (some err)))
  | shook {a : Attempt D} {theirPeerID : D} {reached : Bytes} (mem : ⟨a, .gated⟩ ∈ s.calls) :
      Effect s (.shakes a theirPeerID reached) (s.advance a .gated (.shaken theirPeerID (remoteIP reached a)))
  | cleaned {a : Attempt D} {theirPeerID : D} {remoteIP : Bytes} (mem : ⟨a, .shaken theirPeerID remoteIP⟩ ∈ s.calls) :
      Effect s (.cleans a theirPeerID remoteIP)
        ((s.setPending a.direction (a.remote remoteIP) false).advance a (.shaken theirPeerID remoteIP)
          (.cleaned theirPeerID remoteIP))
  | turnedAway {a : Attempt D} {theirPeerID : D} {remoteIP : Bytes} {err : PeerErr} {writes : List (Write D)}
      (mem : ⟨a, .cleaned theirPeerID remoteIP⟩ ∈ s.calls) (not : ¬ Registers s a theirPeerID remoteIP) :
      Effect s (.completes a theirPeerID remoteIP)
        ((s.journal writes).advance a (.cleaned theirPeerID remoteIP) (.returning (some err)))
  | registered {a : Attempt D} {theirPeerID : D} {remoteIP : Bytes} {writes : List (Write D)}
      (registers : Registers s a theirPeerID remoteIP) :
      Effect s (.completes a theirPeerID remoteIP)
        (({ s with
            mux := s.mux.step (.opened theirPeerID ⟨s.made, a.direction, remoteIP⟩)
            made := s.made + 1 }.journal writes).advance a (.cleaned theirPeerID remoteIP) (.returning none))
  | returned {a : Attempt D} {err : Option PeerErr} (mem : ⟨a, .returning err⟩ ∈ s.calls) :
      Effect s (.returns a err) { s with
        sem := Function.update s.sem a.direction (s.sem a.direction - 1)
        calls := s.calls.erase ⟨a, .returning err⟩ }
  | closed {id : D} : Effect s (.closes id) { s with mux := s.mux.step (.closed id) }

theorem gate_ok {s s' : PeerManager D} {a : Attempt D} {isBanned : Option Bool} (h : s.gate a isBanned = .ok s') :
    s' = s.setPending a.direction a.address true ∧ s.pending a.direction a.address = false ∧
      s.registered a.direction < s.limit a.direction ∧
      (a.direction = .outbound → s.mux.hasOutboundPeerIP a.address = false) := by
  cases a with
  | accept addr =>
    have h : s.gateInboundPeer addr isBanned = .ok s' := h
    unfold gateInboundPeer at h
    split_ifs at h with _ hpending hlimit
    exact ⟨(Except.ok.inj h).symm, Bool.eq_false_iff.mpr hpending, Int.not_le.mp hlimit, nofun⟩
  | dial peerID ip verifyPeerID =>
    have h : s.gateOutboundPeer peerID ip isBanned = .ok s' := h
    unfold gateOutboundPeer at h
    split_ifs at h with _ hpending hlimit _ hconnected
    exact ⟨(Except.ok.inj h).symm, Bool.eq_false_iff.mpr hpending, Int.not_le.mp hlimit,
      fun _ => Bool.eq_false_iff.mpr hconnected⟩

omit [DecidableEq D] in
theorem giveUp_eq (s : PeerManager D) (a : Attempt D) :
    ∃ writes, s.giveUp a = (s.setPending a.direction a.address false).journal writes := by
  cases a with
  | accept addr => exact ⟨s.writes, rfl⟩
  | dial peerID ip verifyPeerID => exact ⟨_, rfl⟩

omit [DecidableEq D] in
theorem cleanup_eq (s : PeerManager D) (remoteIP : Bytes) (a : Attempt D) :
    s.cleanup remoteIP a = s.setPending a.direction (a.remote remoteIP) false := by
  cases a <;> rfl

theorem complete_cases (s : PeerManager D) {a : Attempt D} {theirPeerID : D} {remoteIP : Bytes}
    (mem : ⟨a, .cleaned theirPeerID remoteIP⟩ ∈ s.calls) :
    (¬ Registers s a theirPeerID remoteIP ∧
      ∃ writes err, s.complete a theirPeerID remoteIP = (s.journal writes, some err)) ∨
    (Registers s a theirPeerID remoteIP ∧ ∃ writes, s.complete a theirPeerID remoteIP =
      ({ s with
          mux := s.mux.step (.opened theirPeerID ⟨s.made, a.direction, remoteIP⟩)
          made := s.made + 1 }.journal writes, none)) := by
  by_cases hself : theirPeerID = s.opts.peerID
  · exact .inl ⟨fun h => h.other hself, _, _, by simp only [complete, if_pos hself]; rfl⟩
  cases hfree : s.mux.peerByID theirPeerID with
  | some c =>
    have hopen : s.mux.handlePeerOpen theirPeerID ⟨s.made, a.direction, remoteIP⟩ = none := by
      simp only [PeerMuxer.handlePeerOpen, hfree]
    refine .inl ⟨fun h => ?_, s.writes, .alreadyConnected, by simp only [complete, if_neg hself, hopen]; rfl⟩
    have := h.free
    rw [hfree] at this
    cases this
  | none =>
    obtain ⟨mux, hopen, -⟩ := PeerMuxer.handlePeerOpen_peers hfree ⟨s.made, a.direction, remoteIP⟩
    refine .inr ⟨⟨mem, hself, hfree⟩, .setPeer theirPeerID remoteIP a.verify :: s.writes, ?_⟩
    simp only [complete, if_neg hself, hopen, PeerMuxer.step, Option.getD_some]
    rfl

theorem step_effect (s : PeerManager D) (e : Event D) : Effect s e (s.step e) := by
  cases e with
  | starts a =>
    simp only [step]
    split
    · exact .starts ‹_›
    · exact .skips (by simp [Event.call])
  | gates a isBanned =>
    simp only [step]
    split
    · rename_i mem
      cases h : s.gate a isBanned with
      | error err => exact .refused mem
      | ok s' =>
        obtain ⟨rfl, free, room, unconnected⟩ := gate_ok h
        exact .passed mem free room unconnected
    · exact .skips (by simpa [Event.call])
  | fails a =>
    simp only [step]
    split
    · obtain ⟨writes, h⟩ := s.giveUp_eq a
      rw [h]
      exact .gaveUp ‹_› rfl
    · exact .skips (by simpa [Event.call])
  | shakes a theirPeerID reached =>
    simp only [step]
    split
    · split
      · obtain ⟨writes, h⟩ := s.giveUp_eq a
        rw [h]
        exact .gaveUp ‹_› rfl
      · exact .shook ‹_›
    · exact .skips (by simpa [Event.call])
  | cleans a theirPeerID remoteIP =>
    simp only [step]
    split
    · rw [cleanup_eq]
      exact .cleaned ‹_›
    · exact .skips (by simpa [Event.call])
  | completes a theirPeerID remoteIP =>
    simp only [step]
    split
    · rename_i mem
      rcases s.complete_cases mem with ⟨not, writes, err, h⟩ | ⟨registers, writes, h⟩
      · rw [h]; exact .turnedAway mem not
      · rw [h]; exact .registered registers
    · exact .skips (by simpa [Event.call])
  | returns a err =>
    simp only [step]
    split
    · exact .returned ‹_›
    · exact .skips (by simpa [Event.call])
  | closes id => exact .closed

/-! ### Counting calls -/

theorem countP_calls {s : PeerManager D} {c : Call D} (mem : c ∈ s.calls) (P : Call D → Bool) :
    s.calls.countP P = (s.calls.erase c).countP P + if P c then 1 else 0 := by
  rw [(List.perm_cons_erase mem).countP_eq P, List.countP_cons]

theorem countP_advance {s : PeerManager D} {a : Attempt D} {before : CallStage D} (mem : ⟨a, before⟩ ∈ s.calls)
    (after : CallStage D) (P : Call D → Bool) :
    (s.advance a before after).calls.countP P + (if P ⟨a, before⟩ then 1 else 0) =
      s.calls.countP P + if P ⟨a, after⟩ then 1 else 0 := by
  rw [advance, List.countP_cons, countP_calls mem P]
  omega

/-! ## The books -/

/-- The muxer's books are right, and connections are numbered as they are registered. -/
structure Inv (s : PeerManager D) : Prop where
  mux : s.mux.Inv
  numbered : ∀ peer ∈ s.mux.peers.map (·.2), peer.id < s.made

omit [DecidableEq D] in
theorem inv_new (opts : PeerManagerOpts D) : Inv (new opts) := ⟨PeerMuxer.inv_new, by simp [new, PeerMuxer.new]⟩

theorem step_inv (s : PeerManager D) (e : Event D) (hi : Inv s) : Inv (s.step e) := by
  have he := step_effect s e
  generalize s.step e = s' at he
  cases he with
  | @registered a theirPeerID remoteIP writes registers =>
    have hone : s.mux.Once (.opened theirPeerID ⟨s.made, a.direction, remoteIP⟩) :=
      fun _ h => absurd (hi.numbered _ h) (Nat.lt_irrefl _)
    refine ⟨(PeerMuxer.opened_lawful hi.mux hone).1, fun peer hp => ?_⟩
    show peer.id < s.made + 1
    have hp : peer ∈ (s.mux.step (.opened theirPeerID ⟨s.made, a.direction, remoteIP⟩)).peers.map (·.2) := hp
    rw [PeerMuxer.step_opened_peers registers.free, List.map_cons, List.mem_cons] at hp
    rcases hp with rfl | hp
    · exact Nat.lt_succ_self _
    · exact Nat.lt_succ_of_lt (hi.numbered peer hp)
  | @closed id =>
    refine ⟨(PeerMuxer.closed_lawful hi.mux id).1, fun peer hp => ?_⟩
    have hp : peer ∈ (s.mux.step (.closed id)).peers.map (·.2) := hp
    rw [PeerMuxer.step_closed_peers hi.mux] at hp
    exact hi.numbered peer ((List.filter_sublist.map _).subset hp)
  | _ => exact ⟨hi.mux, hi.numbered⟩

end PeerManager

end Fnd.P2p

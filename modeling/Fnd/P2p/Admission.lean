/-
  Fnd.P2p.Admission — what the gates of `AcceptPeer` and `DialPeer` promise about the peers
  that are registered, over every interleaving of calls and closes.

  The gate looks at the registered peers and at the pending addresses, once; the peer is
  registered later, by its ID alone.
  - One outbound peer per IP, and the table by IP in step with the peers, in the runs in which
    no dial of an IP comes to its gate between another's deletion of the pending entry and its
    registration, and a dial reaches the IP it was given (`one_per_ip`). Else a second dial
    passes the gate in between (`two_dials_reach_one_ip`), and when one of the two peers
    closes, the table forgets the IP of the other.
  - Counts stay within the limits in the runs in which a call comes to its gate when no other
    of its direction is between its gate and its registration, or the peers and these calls
    are together below the limit (`limits_hold`). The gate counts the peers only
    (`two_dials_pass_a_limit_of_one`); the semaphores bound by how much a limit is overrun
    (`overrun_bounded`).
-/

import Fnd.P2p.PeerManager

namespace Fnd.P2p

/-! ## One outbound peer per IP -/

namespace PeerMuxer

variable {D : Type}

/-- Registered outbound peers differ in their IPs, and the table has the IPs they have. -/
structure OnePerIP (p : PeerMuxer D) : Prop where
  one : ∀ q ∈ p.peers, ∀ r ∈ p.peers, q.2.direction = .outbound → r.2.direction = .outbound →
    q.2.remoteIP = r.2.remoteIP → q = r
  table : ∀ ip, p.hasOutboundPeerIP ip = true ↔ ∃ q ∈ p.peers, q.2.direction = .outbound ∧ q.2.remoteIP = ip

theorem onePerIP_new : OnePerIP (new : PeerMuxer D) := ⟨by simp [new], by simp [new, hasOutboundPeerIP]⟩

variable [DecidableEq D] {p : PeerMuxer D} {id : D} {peer : Conn}

theorem OnePerIP.opened_inbound (h : OnePerIP p) (hfree : p.peerByID id = none) (hd : peer.direction = .inbound) :
    OnePerIP (p.step (.opened id peer)) := by
  have hstep := PeerMuxer.opened_inbound hfree hd
  rw [step, hstep, Option.getD_some]
  have hnew : peer.direction ≠ .outbound := by rw [hd]; decide
  constructor
  · intro q hq r hr hqd hrd
    rcases List.mem_cons.mp hq with rfl | hq
    · exact absurd hqd hnew
    rcases List.mem_cons.mp hr with rfl | hr
    · exact absurd hrd hnew
    exact h.one q hq r hr hqd hrd
  · intro ip
    rw [List.exists_mem_cons_iff]
    show p.hasOutboundPeerIP ip = true ↔ _
    rw [h.table ip, or_iff_right fun hq => hnew hq.1]

/-- An outbound peer may come exactly when no outbound peer of its IP is there. -/
theorem onePerIP_opened_outbound_iff (h : OnePerIP p) (hfree : p.peerByID id = none) (hd : peer.direction = .outbound) :
    OnePerIP (p.step (.opened id peer)) ↔ p.hasOutboundPeerIP peer.remoteIP = false := by
  have hstep := PeerMuxer.opened_outbound hfree hd
  rw [step, hstep, Option.getD_some]
  constructor
  · intro h'
    by_contra hhas
    obtain ⟨q, hq, hqd, hip⟩ := (h.table peer.remoteIP).mp ((Bool.not_eq_false _).mp hhas)
    have hsame := h'.one q (List.mem_cons_of_mem _ hq) (id, peer) List.mem_cons_self hqd hd hip
    exact not_mem_ids hfree (List.mem_map.mpr ⟨q, hq, by rw [hsame]⟩)
  · intro hhas
    have hnone : ∀ q ∈ p.peers, q.2.direction = .outbound → q.2.remoteIP ≠ peer.remoteIP := by
      intro q hq hqd hip
      have := (h.table peer.remoteIP).mpr ⟨q, hq, hqd, hip⟩
      rw [hhas] at this
      cases this
    constructor
    · intro q hq r hr hqd hrd hip
      rcases List.mem_cons.mp hq with rfl | hq <;> rcases List.mem_cons.mp hr with rfl | hr
      · rfl
      · exact absurd hip.symm (hnone r hr hrd)
      · exact absurd hip (hnone q hq hqd)
      · exact h.one q hq r hr hqd hrd hip
    · intro ip
      rw [List.exists_mem_cons_iff]
      show (Function.update p.outboundPeersByIP peer.remoteIP (some peer) ip).isSome = true ↔ _
      by_cases hip : ip = peer.remoteIP
      · subst hip
        simp [hd]
      · rw [Function.update_of_ne hip, or_iff_right fun hq => hip hq.2.symm]
        exact h.table ip

def outboundAt (p : PeerMuxer D) (ip : Bytes) : Nat := p.peers.countP fun q => q.2.direction = .outbound ∧ q.2.remoteIP = ip

theorem outboundAt_opened (hfree : p.peerByID id = none) (peer : Conn) (ip : Bytes) :
    (p.step (.opened id peer)).outboundAt ip =
      p.outboundAt ip + if peer.direction = .outbound ∧ peer.remoteIP = ip then 1 else 0 := by
  rw [outboundAt, step_opened_peers hfree, List.countP_cons]
  simp only [outboundAt, decide_eq_true_eq]

theorem outboundAt_closed_le (hi : Inv p) (id : D) (ip : Bytes) : (p.step (.closed id)).outboundAt ip ≤ p.outboundAt ip := by
  rw [outboundAt, step_closed_peers hi]
  exact List.filter_sublist.countP_le

omit [DecidableEq D] in
theorem OnePerIP.not_hasOutboundPeerIP (h : OnePerIP p) {ip : Bytes} (hzero : p.outboundAt ip = 0) :
    p.hasOutboundPeerIP ip = false := by
  refine Bool.eq_false_iff.mpr fun hhas => ?_
  obtain ⟨q, hq, hout⟩ := (h.table ip).mp hhas
  exact absurd (decide_eq_true hout) (List.countP_eq_zero.mp hzero q hq)

omit [DecidableEq D] in
theorem OnePerIP.outboundAt_eq_zero (h : OnePerIP p) {ip : Bytes} (hhas : p.hasOutboundPeerIP ip = false) :
    p.outboundAt ip = 0 := by
  refine List.countP_eq_zero.mpr fun q hq hout => ?_
  rw [(h.table ip).mpr ⟨q, hq, of_decide_eq_true hout⟩] at hhas
  cases hhas

theorem exists_outbound_closed (hi : Inv p) (hreg : p.peerByID id = some peer) (ip : Bytes) :
    (∃ q ∈ (p.step (.closed id)).peers, q.2.direction = .outbound ∧ q.2.remoteIP = ip) ↔
      ∃ q ∈ p.peers, q ≠ (id, peer) ∧ q.2.direction = .outbound ∧ q.2.remoteIP = ip := by
  refine exists_congr fun q => ?_
  rw [mem_step_closed hi, and_assoc]
  exact and_congr_right fun hq => and_congr_left' (fst_ne_iff hi hreg hq)

theorem OnePerIP.closed (h : OnePerIP p) (hi : Inv p) (id : D) : OnePerIP (p.step (.closed id)) := by
  have hmem := mem_step_closed hi id
  refine ⟨fun q hq r hr => h.one q ((hmem q).mp hq).1 r ((hmem r).mp hr).1, fun ip => ?_⟩
  cases hreg : p.peerByID id with
  | none =>
    have hsame : p.step (.closed id) = p := by simp only [step, handlePeerClose, hreg, Option.map_some, Option.getD_some]
    rw [hsame]
    exact h.table ip
  | some peer =>
    rw [exists_outbound_closed hi hreg]
    -- where the closed peer is not an outbound one of this IP, neither side has changed
    have hsame (hnot : ¬ (peer.direction = .outbound ∧ peer.remoteIP = ip)) : p.hasOutboundPeerIP ip = true ↔
        ∃ q ∈ p.peers, q ≠ (id, peer) ∧ q.2.direction = .outbound ∧ q.2.remoteIP = ip := by
      rw [h.table ip]
      refine exists_congr fun q => and_congr_right fun _ => (and_iff_right_of_imp ?_).symm
      rintro hout rfl
      exact hnot hout
    cases hd : peer.direction with
    | inbound =>
      obtain ⟨list, -, hclose⟩ := closed_inbound hi hreg hd
      have htable : (p.step (.closed id)).hasOutboundPeerIP ip = p.hasOutboundPeerIP ip := by rw [step, hclose]; rfl
      rw [htable]
      exact hsame (by simp [hd])
    | outbound =>
      have htable : (p.step (.closed id)).hasOutboundPeerIP ip =
          (Function.update p.outboundPeersByIP peer.remoteIP none ip).isSome := by
        rw [step, closed_outbound hreg hd]; rfl
      rw [htable]
      by_cases hip : ip = peer.remoteIP
      · subst hip
        rw [Function.update_self]
        refine iff_of_false (by decide) ?_
        rintro ⟨q, hq, hne, hqd, hip⟩
        exact hne (h.one q hq (id, peer) (mem_of_peerByID hreg) hqd hd hip)
      · rw [Function.update_of_ne hip]
        exact hsame fun hout => hip hout.2.symm

end PeerMuxer

section

variable {D : Type}

/-- Past the gate, and not yet registered or refused. -/
def Call.pastGate (c : Call D) : Bool :=
  match c.stage with
  | .acquired | .returning _ => false
  | .gated | .shaken .. | .cleaned .. => true

/-- Past the gate, and its pending entry not yet deleted. -/
def Call.isPending (c : Call D) : Bool :=
  match c.stage with
  | .gated | .shaken .. => true
  | .acquired | .cleaned .. | .returning _ => false

/-- Between the deletion and the registration. -/
def Call.isCleaned (c : Call D) : Bool :=
  match c.stage with
  | .cleaned .. => true
  | _ => false

/-- The IP of the call's connection, once there is one. -/
def CallStage.remoteIP : CallStage D → Option Bytes
  | .shaken _ ip | .cleaned _ ip => some ip
  | _ => none

def Call.claims (ip : Bytes) (c : Call D) : Bool :=
  decide (c.attempt.direction = .outbound ∧ c.attempt.address = ip) && c.pastGate

theorem Call.claims_iff {ip : Bytes} {c : Call D} : Call.claims ip c = true ↔
    (c.attempt.direction = .outbound ∧ c.attempt.address = ip) ∧ c.pastGate = true := by
  rw [Call.claims, Bool.and_eq_true, decide_eq_true_eq]

theorem Call.pastGate_of_isPending {c : Call D} (h : c.isPending = true) : c.pastGate = true := by
  obtain ⟨a, stage⟩ := c
  cases stage <;> first | rfl | cases h

theorem Call.isPending_or_isCleaned {c : Call D} (h : c.pastGate = true) :
    c.isPending = true ∨ c.isCleaned = true := by
  obtain ⟨a, stage⟩ := c
  cases stage <;> first | exact .inl rfl | exact .inr rfl | cases h

end

namespace PeerManager

variable {D : Type} [DecidableEq D]

/-- A dial comes to its gate while none of its IP is between deletion and registration, and it
    reaches the IP it was given. -/
def Orderly (s : PeerManager D) : Event D → Prop
  | .gates (.dial _ ip _) _ => ∀ c ∈ s.calls, c.isCleaned = true → c.attempt.direction = .outbound → c.attempt.address ≠ ip
  | .shakes (.dial _ ip _) _ reached => reached = ip
  | _ => True

instance (s : PeerManager D) : DecidablePred (Orderly s)
  | .gates (.dial ..) _ => inferInstanceAs (Decidable (∀ c ∈ s.calls, _))
  | .shakes (.dial _ ip _) _ reached => inferInstanceAs (Decidable (reached = ip))
  | .gates (.accept _) _ | .shakes (.accept _) .. => .isTrue trivial
  | .starts _ | .fails _ | .cleans .. | .completes .. | .returns .. | .closes _ => .isTrue trivial

def claims (s : PeerManager D) (ip : Bytes) : Nat := s.calls.countP (Call.claims ip)

/-- The dials past the gate and the peers they lead to are one at most for an IP. -/
structure Exclusive (s : PeerManager D) : Prop where
  mux : s.mux.OnePerIP
  one : ∀ ip, s.claims ip + s.mux.outboundAt ip ≤ 1
  pending : ∀ c ∈ s.calls, c.attempt.direction = .outbound → c.isPending = true →
    s.pending .outbound c.attempt.address = true
  dialed : ∀ c ∈ s.calls, c.attempt.direction = .outbound → ∀ ip ∈ c.stage.remoteIP, ip = c.attempt.address

omit [DecidableEq D] in
theorem exclusive_new (opts : PeerManagerOpts D) : Exclusive (new opts) :=
  ⟨PeerMuxer.onePerIP_new, fun _ => Nat.zero_le _, nofun, nofun⟩

section

variable {s s' : PeerManager D} {a : Attempt D} {before after : CallStage D}

theorem Exclusive.other (h : Exclusive s) (mem : ⟨a, before⟩ ∈ s.calls) (hpast : Call.pastGate ⟨a, before⟩ = true)
    (hdir : a.direction = .outbound) {c : Call D} (hc : c ∈ s.calls.erase ⟨a, before⟩) (hcpast : c.pastGate = true)
    (hcdir : c.attempt.direction = .outbound) : c.attempt.address ≠ a.address := by
  intro haddr
  have hone := h.one a.address
  rw [claims, countP_calls mem, if_pos (Call.claims_iff.mpr ⟨⟨hdir, rfl⟩, hpast⟩)] at hone
  have hpos : 0 < (s.calls.erase ⟨a, before⟩).countP (Call.claims a.address) :=
    List.countP_pos_iff.mpr ⟨c, hc, Call.claims_iff.mpr ⟨⟨hcdir, haddr⟩, hcpast⟩⟩
  omega

theorem Exclusive.advance (h : Exclusive s) (mem : ⟨a, before⟩ ∈ s.calls) (hcalls : s'.calls = s.calls)
    (hmux : s'.mux.OnePerIP)
    (hone : ∀ ip, s.claims ip + s'.mux.outboundAt ip + (if Call.claims ip ⟨a, after⟩ then 1 else 0) ≤
      1 + if Call.claims ip ⟨a, before⟩ then 1 else 0)
    (hothers : ∀ c ∈ s.calls.erase ⟨a, before⟩, c.attempt.direction = .outbound → c.isPending = true →
      s'.pending .outbound c.attempt.address = s.pending .outbound c.attempt.address)
    (hpending : a.direction = .outbound → Call.isPending ⟨a, after⟩ = true → s'.pending .outbound a.address = true)
    (hdialed : a.direction = .outbound → ∀ ip ∈ after.remoteIP, ip = a.address) : Exclusive (s'.advance a before after) := by
  have mem' : ⟨a, before⟩ ∈ s'.calls := hcalls ▸ mem
  have hmem : ∀ c ∈ (s'.advance a before after).calls, c = ⟨a, after⟩ ∨ c ∈ s.calls.erase ⟨a, before⟩ := by
    intro c hc
    rw [← hcalls]
    exact List.mem_cons.mp hc
  refine ⟨hmux, fun ip => ?_, fun c hc hdir hp => ?_, fun c hc hdir ip hip => ?_⟩
  · have hcount := countP_advance mem' after (Call.claims ip)
    have hip := hone ip
    rw [claims, ← hcalls] at hip
    show (s'.advance a before after).calls.countP (Call.claims ip) + s'.mux.outboundAt ip ≤ 1
    omega
  · rcases hmem c hc with rfl | hc
    · exact hpending hdir hp
    · exact (hothers c hc hdir hp).trans (h.pending c (List.mem_of_mem_erase hc) hdir hp)
  · rcases hmem c hc with rfl | hc
    · exact hdialed hdir ip hip
    · exact h.dialed c (List.mem_of_mem_erase hc) hdir ip hip

omit [DecidableEq D] in
theorem setPending_outbound {d : PeerDirection} {address ip : Bytes} {b : Bool} (h : d = .outbound → ip ≠ address) :
    (s.setPending d address b).pending .outbound ip = s.pending .outbound ip := by
  cases d with
  | inbound => rfl
  | outbound =>
    show Function.update (s.pending .outbound) address b ip = _
    exact Function.update_of_ne (h rfl) _ _

theorem Exclusive.deletes (h : Exclusive s) (mem : ⟨a, before⟩ ∈ s.calls) (hpast : Call.pastGate ⟨a, before⟩ = true)
    {address : Bytes} (haddr : a.direction = .outbound → address = a.address) (c : Call D)
    (hc : c ∈ s.calls.erase ⟨a, before⟩) (hdir : c.attempt.direction = .outbound) (hp : c.isPending = true) :
    (s.setPending a.direction address false).pending .outbound c.attempt.address = s.pending .outbound c.attempt.address := by
  refine setPending_outbound fun hout => ?_
  rw [haddr hout]
  exact h.other mem hpast hout hc (Call.pastGate_of_isPending hp) hdir

theorem Exclusive.passed (h : Exclusive s) {isBanned : Option Bool} (hok : Orderly s (.gates a isBanned))
    (mem : ⟨a, .acquired⟩ ∈ s.calls) (free : s.pending a.direction a.address = false)
    (unconnected : a.direction = .outbound → s.mux.hasOutboundPeerIP a.address = false) :
    Exclusive ((s.setPending a.direction a.address true).advance a .acquired .gated) := by
  refine h.advance mem rfl h.mux (fun ip => ?_) (fun c hc hdir hp => ?_) (fun hdir _ => ?_) fun _ _ hip => by cases hip
  · have hone := h.one ip
    show s.claims ip + s.mux.outboundAt ip + _ ≤ _
    by_cases hclaims : Call.claims ip ⟨a, .gated⟩ = true
    · -- neither a dial past its gate nor a peer has the IP
      obtain ⟨⟨hdir, haddr⟩, -⟩ := Call.claims_iff.mp hclaims
      have hdir : a.direction = .outbound := hdir
      have haddr : a.address = ip := haddr
      subst haddr
      have hnone : s.claims a.address = 0 := by
        refine List.countP_eq_zero.mpr fun c hc hclaims => ?_
        obtain ⟨⟨hcdir, hcaddr⟩, hpast⟩ := Call.claims_iff.mp hclaims
        rcases Call.isPending_or_isCleaned hpast with hp | hcleaned
        · have hset := h.pending c hc hcdir hp
          rw [hcaddr, ← hdir, free] at hset
          cases hset
        · cases a with
          | accept addr => cases hdir
          | dial peerID ip verifyPeerID => exact hok c hc hcleaned hcdir hcaddr
      have hzero := h.mux.outboundAt_eq_zero (unconnected hdir)
      rw [hnone, hzero, if_pos hclaims]
      omega
    · rw [if_neg hclaims]
      omega
  · by_cases hsame : a.direction = .outbound ∧ c.attempt.address = a.address
    · rw [h.pending c (List.mem_of_mem_erase hc) hdir hp, hsame.1, hsame.2]
      simp [setPending]
    · exact setPending_outbound fun hout haddr => hsame ⟨hout, haddr⟩
  · rw [hdir]
    simp [setPending]

theorem Exclusive.registered (h : Exclusive s) {theirPeerID : D} {remoteIP : Bytes} {writes : List (Write D)}
    (registers : Registers s a theirPeerID remoteIP) :
    Exclusive (({ s with
      mux := s.mux.step (.opened theirPeerID ⟨s.made, a.direction, remoteIP⟩)
      made := s.made + 1 }.journal writes).advance a (.cleaned theirPeerID remoteIP) (.returning none)) := by
  have hone := h.one
  have hip (hdir : a.direction = .outbound) : remoteIP = a.address := h.dialed _ registers.mem hdir remoteIP rfl
  -- the dial itself is the one that has the IP
  have hzero (hdir : a.direction = .outbound) : s.mux.outboundAt a.address = 0 := by
    have hpos : 0 < s.claims a.address :=
      List.countP_pos_iff.mpr ⟨_, registers.mem, Call.claims_iff.mpr ⟨⟨hdir, rfl⟩, rfl⟩⟩
    have := hone a.address
    omega
  refine h.advance registers.mem rfl ?_ (fun ip => ?_) (fun _ _ _ _ => rfl) (fun _ hp => by cases hp) fun _ _ hip => by cases hip
  · show (s.mux.step (.opened theirPeerID ⟨s.made, a.direction, remoteIP⟩)).OnePerIP
    cases hdir : a.direction with
    | inbound => exact h.mux.opened_inbound registers.free rfl
    | outbound =>
      refine (PeerMuxer.onePerIP_opened_outbound_iff h.mux registers.free rfl).mpr ?_
      show s.mux.hasOutboundPeerIP remoteIP = false
      rw [hip hdir]
      exact h.mux.not_hasOutboundPeerIP (hzero hdir)
  · have := hone ip
    have hdone : ¬ Call.claims ip (⟨a, .returning none⟩ : Call D) = true := by simp [Call.claims, Call.pastGate]
    show s.claims ip + (s.mux.step (.opened theirPeerID ⟨s.made, a.direction, remoteIP⟩)).outboundAt ip + _ ≤ _
    rw [PeerMuxer.outboundAt_opened registers.free, if_neg hdone]
    by_cases hout : a.direction = .outbound ∧ remoteIP = ip
    · have hclaims : Call.claims ip ⟨a, .cleaned theirPeerID remoteIP⟩ = true :=
        Call.claims_iff.mpr ⟨⟨hout.1, (hip hout.1).symm.trans hout.2⟩, rfl⟩
      rw [if_pos hout, if_pos hclaims]
      omega
    · rw [if_neg hout]
      omega

theorem Exclusive.step (hi : Inv s) (h : Exclusive s) (e : Event D) (hok : Orderly s e) : Exclusive (s.step e) := by
  have he := step_effect s e
  generalize s.step e = s' at he
  -- a call that stays past the gate, or leaves it without a peer
  have hkeep {a : Attempt D} {before after : CallStage D}
      (hle : Call.pastGate ⟨a, after⟩ = true → Call.pastGate ⟨a, before⟩ = true) (ip : Bytes) :
      s.claims ip + s.mux.outboundAt ip + (if Call.claims ip ⟨a, after⟩ then 1 else 0) ≤
        1 + if Call.claims ip ⟨a, before⟩ then 1 else 0 := by
    have hone := h.one ip
    by_cases hclaims : Call.claims ip ⟨a, after⟩ = true
    · obtain ⟨haddr, hpast⟩ := Call.claims_iff.mp hclaims
      have hclaimed : Call.claims ip ⟨a, before⟩ = true := Call.claims_iff.mpr ⟨haddr, hle hpast⟩
      rw [if_pos hclaims, if_pos hclaimed]
      omega
    · rw [if_neg hclaims]
      omega
  cases he with
  | skips => exact h
  | starts room =>
    refine ⟨h.mux, fun ip => ?_, ?_, ?_⟩
    · rw [claims, List.countP_cons_of_neg (by simp [Call.claims, Call.pastGate])]
      exact h.one ip
    · exact List.forall_mem_cons.mpr ⟨fun _ hp => (by cases hp), h.pending⟩
    · exact List.forall_mem_cons.mpr ⟨fun _ _ hip => (by cases hip), h.dialed⟩
  | refused mem =>
    exact h.advance mem rfl h.mux (hkeep nofun) (fun _ _ _ _ => rfl) (fun _ hp => by cases hp) fun _ _ hip => by cases hip
  | passed mem free _ unconnected => exact h.passed hok mem free unconnected
  | gaveUp mem =>
    exact h.advance mem rfl h.mux (hkeep nofun) (h.deletes mem rfl fun _ => rfl)
      (fun _ hp => by cases hp) fun _ _ hip => by cases hip
  | @shook a theirPeerID reached mem =>
    refine h.advance mem rfl h.mux (hkeep fun _ => rfl) (fun _ _ _ _ => rfl) (fun hdir _ => h.pending _ mem hdir rfl)
      fun hdir ip hip => ?_
    obtain rfl := Option.some.inj hip
    cases a with
    | accept addr => cases hdir
    | dial peerID ip verifyPeerID => exact hok
  | @cleaned a theirPeerID remoteIP mem =>
    have haddr (hdir : a.direction = .outbound) : a.remote remoteIP = a.address := by
      cases a with
      | accept addr => cases hdir
      | dial peerID ip verifyPeerID => exact h.dialed _ mem hdir remoteIP rfl
    exact h.advance mem rfl h.mux (hkeep fun _ => rfl) (h.deletes mem rfl haddr) (fun _ hp => by cases hp) fun hdir ip hip =>
      h.dialed _ mem hdir ip hip
  | turnedAway mem =>
    exact h.advance mem rfl h.mux (hkeep nofun) (fun _ _ _ _ => rfl) (fun _ hp => by cases hp) fun _ _ hip => by cases hip
  | registered registers => exact h.registered registers
  | @returned a err mem =>
    refine ⟨h.mux, fun ip => ?_, fun c hc => h.pending c (List.mem_of_mem_erase hc),
      fun c hc => h.dialed c (List.mem_of_mem_erase hc)⟩
    have hone := h.one ip
    rw [claims, countP_calls mem] at hone
    show (s.calls.erase ⟨a, .returning err⟩).countP (Call.claims ip) + s.mux.outboundAt ip ≤ 1
    omega
  | @closed id =>
    refine ⟨h.mux.closed hi.mux id, fun ip => ?_, h.pending, h.dialed⟩
    exact Nat.le_trans (Nat.add_le_add_left (PeerMuxer.outboundAt_closed_le hi.mux id ip) _) (h.one ip)

end

/-- In every run in which the dials of an IP come to their gates outside the gap, and reach what
    they were given. -/
theorem one_per_ip (opts : PeerManagerOpts D) (es : List (Event D)) (hes : Machine.Along step Orderly (new opts) es) :
    (Machine.run step (new opts) es).mux.OnePerIP :=
  (Machine.run_inv (fun s : PeerManager D => Inv s ∧ Exclusive s)
    (fun s e h hok => ⟨step_inv s e h.1, h.2.step h.1 e hok⟩) es (new opts) ⟨inv_new opts, exclusive_new opts⟩ hes).2.mux

/-- A node with key 0. -/
def host (maxInbound maxOutbound : Int) : PeerManager Nat := new ⟨0, utf8 "127.0.0.1", maxInbound, maxOutbound⟩

def seven : Bytes := utf8 "10.0.0.7"

/-- A dial up to its registration, of a node that presents the ID. -/
def dialing (id : Nat) (ip : Bytes) : List (Event Nat) :=
  [.starts (.dial id ip false), .gates (.dial id ip false) (some false), .shakes (.dial id ip false) id ip,
    .cleans (.dial id ip false) id ip]

/-- A second dial of the IP is refused while the first is pending and while its peer is there;
    once that is closed, it is let through. -/
def dialsInTurn : List (Event Nat) :=
  [.starts (.dial 1 seven false), .gates (.dial 1 seven false) (some false),
    .starts (.dial 2 seven false), .gates (.dial 2 seven false) (some false),
    .shakes (.dial 1 seven false) 1 seven, .cleans (.dial 1 seven false) 1 seven, .completes (.dial 1 seven false) 1 seven,
    .starts (.dial 2 seven false), .gates (.dial 2 seven false) (some false), .closes 1] ++
    dialing 2 seven ++ [.completes (.dial 2 seven false) 2 seven]

theorem dials_in_turn_reach_an_ip_once :
    let s := Machine.run step (host 117 8) dialsInTurn
    s.mux.OnePerIP ∧ s.mux.peers.map (fun q => (q.1, q.2.direction, q.2.remoteIP)) = [(2, .outbound, seven)] ∧
      s.calls.map (·.stage) = [.returning none, .returning (some .alreadyConnected), .returning none,
        .returning (some .alreadyConnecting)] :=
  ⟨one_per_ip _ dialsInTurn (by decide +kernel), by decide +kernel, by decide +kernel⟩

/-- Two dials of one IP, the second once the first has deleted its pending entry. -/
def twoDials : List (Event Nat) :=
  dialing 1 seven ++ dialing 2 seven ++
    [.completes (.dial 1 seven false) 1 seven, .completes (.dial 2 seven false) 2 seven]

/-- Both peers are registered; when one closes, the table forgets the other. -/
theorem two_dials_reach_one_ip :
    let s := Machine.run step (host 117 8) twoDials
    let s' := s.step (.closes 2)
    s.mux.peers.map (fun q => (q.1, q.2.direction, q.2.remoteIP)) = [(2, .outbound, seven), (1, .outbound, seven)] ∧
    s'.mux.peers.map (fun q => (q.1, q.2.direction, q.2.remoteIP)) = [(1, .outbound, seven)] ∧
    s'.mux.hasOutboundPeerIP seven = false ∧ ¬ s.mux.OnePerIP ∧ ¬ s'.mux.OnePerIP := by
  refine ⟨by decide +kernel, by decide +kernel, by decide +kernel, fun h => ?_, fun h => ?_⟩
  · have := h.one (2, ⟨1, .outbound, seven⟩) (by decide +kernel) (1, ⟨0, .outbound, seven⟩) (by decide +kernel) rfl rfl rfl
    exact absurd this (by decide +kernel)
  · have := (h.table seven).mpr ⟨(1, ⟨0, .outbound, seven⟩), by decide +kernel, rfl, rfl⟩
    exact absurd this (by decide +kernel)

/-! ## The limits -/

/-- No direction has more peers than its limit; a negative limit lets none in. -/
def Within (s : PeerManager D) : Prop := ∀ d, s.mux.count d ≤ (s.limit d).toNat

end PeerManager

namespace PeerMuxer

variable {D : Type} [DecidableEq D] {p : PeerMuxer D} {id : D}

theorem count_opened (h : p.peerByID id = none) (peer : Conn) (d : PeerDirection) :
    (p.step (.opened id peer)).count d = p.count d + if peer.direction = d then 1 else 0 := by
  rw [count, step_opened_peers h, List.countP_cons]
  simp only [count, decide_eq_true_eq]

theorem count_closed_le (hi : Inv p) (id : D) (d : PeerDirection) : (p.step (.closed id)).count d ≤ p.count d := by
  rw [count, step_closed_peers hi]
  exact List.filter_sublist.countP_le

end PeerMuxer

namespace PeerManager

variable {D : Type} [DecidableEq D]

theorem step_opts (s : PeerManager D) (e : Event D) : (s.step e).opts = s.opts := by
  have he := step_effect s e
  generalize s.step e = s' at he
  cases he <;> rfl

theorem step_limit (s : PeerManager D) (e : Event D) (d : PeerDirection) : (s.step e).limit d = s.limit d := by
  cases d <;> simp only [limit, step_opts]

/-! ### Semaphores -/

/-- The calls of a direction, and those of them past the gate. -/
def underWay (s : PeerManager D) (d : PeerDirection) : Nat := s.calls.countP (·.attempt.direction = d)

def admitted (s : PeerManager D) (d : PeerDirection) : Nat :=
  s.calls.countP fun c => c.attempt.direction = d ∧ c.pastGate = true

variable {s : PeerManager D}

theorem underWay_advance {a : Attempt D} {before : CallStage D} (mem : ⟨a, before⟩ ∈ s.calls) (after : CallStage D)
    (d : PeerDirection) : (s.advance a before after).underWay d = s.underWay d :=
  Nat.add_right_cancel (countP_advance mem after (·.attempt.direction = d))

theorem admitted_advance {a : Attempt D} {before : CallStage D} (mem : ⟨a, before⟩ ∈ s.calls) (after : CallStage D)
    (d : PeerDirection) :
    (s.advance a before after).admitted d + (if a.direction = d ∧ Call.pastGate ⟨a, before⟩ then 1 else 0) =
      s.admitted d + if a.direction = d ∧ Call.pastGate ⟨a, after⟩ then 1 else 0 := by
  have h := countP_advance mem after fun c => c.attempt.direction = d ∧ c.pastGate = true
  simpa only [admitted, decide_eq_true_eq] using h

omit [DecidableEq D] in
theorem admitted_le_underWay (s : PeerManager D) (d : PeerDirection) : s.admitted d ≤ s.underWay d :=
  List.countP_mono_left fun c _ h => by
    rw [decide_eq_true_eq] at h ⊢
    exact h.1

omit [DecidableEq D] in
theorem registered_eq (hi : s.mux.Books) (d : PeerDirection) : s.registered d = s.mux.count d := by
  cases d with
  | inbound => exact hi.inbound
  | outbound => exact hi.outbound

structure Semaphores (s : PeerManager D) : Prop where
  sem : ∀ d, s.sem d = s.underWay d
  room : ∀ d, s.sem d ≤ maxPending d

theorem Semaphores.advance (h : Semaphores s) {s' : PeerManager D} {a : Attempt D} {before after : CallStage D}
    (mem : ⟨a, before⟩ ∈ s.calls) (hsem : s'.sem = s.sem) (hcalls : s'.calls = s.calls) :
    Semaphores (s'.advance a before after) := by
  have mem' : ⟨a, before⟩ ∈ s'.calls := hcalls ▸ mem
  refine ⟨fun d => ?_, fun d => ?_⟩
  · rw [underWay_advance mem', underWay, hcalls]
    exact (congrFun hsem d).trans (h.sem d)
  · show s'.sem d ≤ _
    rw [hsem]
    exact h.room d

omit [DecidableEq D] in
theorem Semaphores.starts (h : Semaphores s) (a : Attempt D) (room : s.sem a.direction < maxPending a.direction) :
    Semaphores { s with
      sem := Function.update s.sem a.direction (s.sem a.direction + 1)
      calls := ⟨a, .acquired⟩ :: s.calls } := by
  have hroom := (Function.forall_update_iff s.sem fun d k => k ≤ maxPending d).mpr ⟨Nat.succ_le_of_lt room, fun d _ => h.room d⟩
  refine ⟨fun d => ?_, hroom⟩
  have hsem : s.sem d = s.calls.countP (·.attempt.direction = d) := h.sem d
  show Function.update s.sem a.direction (s.sem a.direction + 1) d = List.countP _ (_ :: _)
  rw [List.countP_cons, ← hsem, Function.update_apply]
  by_cases hd : d = a.direction
  · subst hd; simp
  · simp [hd, Ne.symm hd]

theorem Semaphores.returned (h : Semaphores s) {a : Attempt D} {err : Option PeerErr} (mem : ⟨a, .returning err⟩ ∈ s.calls) :
    Semaphores { s with
      sem := Function.update s.sem a.direction (s.sem a.direction - 1)
      calls := s.calls.erase ⟨a, .returning err⟩ } := by
  have hroom := (Function.forall_update_iff s.sem fun d k => k ≤ maxPending d).mpr
    ⟨Nat.le_trans (Nat.sub_le _ 1) (h.room a.direction), fun d _ => h.room d⟩
  refine ⟨fun d => ?_, hroom⟩
  have hsem : s.sem d = s.calls.countP (·.attempt.direction = d) := h.sem d
  show Function.update s.sem a.direction (s.sem a.direction - 1) d = (s.calls.erase _).countP _
  rw [countP_calls mem] at hsem
  rw [Function.update_apply]
  by_cases hd : d = a.direction
  · subst hd
    simp only [decide_true, if_true] at hsem ⊢
    omega
  · simpa [hd, Ne.symm hd] using hsem

theorem Semaphores.step (h : Semaphores s) (e : Event D) : Semaphores (s.step e) := by
  have he := step_effect s e
  generalize s.step e = s' at he
  cases he with
  | skips => exact h
  | starts room => exact h.starts _ room
  | refused mem => exact h.advance mem rfl rfl
  | passed mem => exact h.advance mem rfl rfl
  | gaveUp mem => exact h.advance mem rfl rfl
  | shook mem => exact h.advance mem rfl rfl
  | cleaned mem => exact h.advance mem rfl rfl
  | turnedAway mem => exact h.advance mem rfl rfl
  | registered registers => exact h.advance registers.mem rfl rfl
  | returned mem => exact h.returned mem
  | closed => exact ⟨h.sem, h.room⟩

theorem Semaphores.admitted_lt (h : Semaphores s) {a : Attempt D} (mem : ⟨a, .acquired⟩ ∈ s.calls) :
    s.admitted a.direction < maxPending a.direction := by
  have hcount := admitted_advance mem .gated a.direction
  have hle := admitted_le_underWay (s.advance a .acquired .gated) a.direction
  rw [underWay_advance mem, ← h.sem] at hle
  simp only [Call.pastGate, and_false, and_true, Bool.false_eq_true, if_false, if_true] at hcount
  have := h.room a.direction
  omega

/-! ### Peers and calls past the gate -/

/-- Together they exceed a limit by `extra` at most. -/
def Total (extra : PeerDirection → Nat) (s : PeerManager D) : Prop :=
  ∀ d, s.mux.count d + s.admitted d ≤ (s.limit d).toNat + extra d

variable {extra : PeerDirection → Nat}

/-- A call goes on without passing the gate, and no peer is added for it unless it is done. -/
theorem Total.advance (h : Total extra s) {s' : PeerManager D} {a : Attempt D} {before after : CallStage D}
    (mem : ⟨a, before⟩ ∈ s.calls) (hopts : s'.opts = s.opts) (hcalls : s'.calls = s.calls)
    (hadds : ∀ d, s'.mux.count d + (if a.direction = d ∧ Call.pastGate ⟨a, after⟩ then 1 else 0) ≤
      s.mux.count d + if a.direction = d ∧ Call.pastGate ⟨a, before⟩ then 1 else 0) :
    Total extra (s'.advance a before after) := by
  intro d
  have hcount := admitted_advance (hcalls ▸ mem : ⟨a, before⟩ ∈ s'.calls) after d
  have htotal := h d
  have hadmitted : s'.admitted d = s.admitted d := by rw [admitted, hcalls, admitted]
  have hlimit : (s'.advance a before after).limit d = s.limit d := by
    cases d <;> simp only [limit, PeerManager.advance, hopts]
  have := hadds d
  rw [hlimit]
  show s'.mux.count d + _ ≤ _
  omega

theorem Total.passed (h : Total extra s) {a : Attempt D} (mem : ⟨a, .acquired⟩ ∈ s.calls)
    (hroom : s.mux.count a.direction + s.admitted a.direction < (s.limit a.direction).toNat + extra a.direction) :
    Total extra ((s.setPending a.direction a.address true).advance a .acquired .gated) := by
  intro d
  have mem' : ⟨a, .acquired⟩ ∈ (s.setPending a.direction a.address true).calls := mem
  have hcount := admitted_advance mem' .gated d
  have htotal := h d
  have hadmitted : (s.setPending a.direction a.address true).admitted d = s.admitted d := rfl
  show s.mux.count d + _ ≤ (s.limit d).toNat + _
  by_cases hd : a.direction = d
  · subst hd
    simp only [Call.pastGate, and_false, and_true, Bool.false_eq_true, if_false, if_true] at hcount
    omega
  · simp only [hd, false_and, if_false] at hcount
    omega

theorem Total.step (hi : Inv s) (h : Total extra s) (e : Event D)
    (hpass : ∀ a isBanned, e = .gates a isBanned → ⟨a, .acquired⟩ ∈ s.calls →
      (s.mux.count a.direction : Int) < s.limit a.direction →
      s.mux.count a.direction + s.admitted a.direction < (s.limit a.direction).toNat + extra a.direction) :
    Total extra (s.step e) := by
  have he := step_effect s e
  generalize s.step e = s' at he
  cases he with
  | skips => exact h
  | starts room =>
    intro d
    rw [admitted, List.countP_cons_of_neg (by simp [Call.pastGate])]
    exact h d
  | refused mem => exact h.advance mem rfl rfl fun d => Nat.le_refl _
  | passed mem _ room =>
    rw [registered_eq hi.mux.toBooks] at room
    exact h.passed mem (hpass _ _ rfl mem room)
  | gaveUp mem =>
    refine h.advance mem rfl rfl fun d => ?_
    show s.mux.count d + _ ≤ s.mux.count d + _
    simp [Call.pastGate]
  | shook mem => exact h.advance mem rfl rfl fun d => Nat.le_refl _
  | cleaned mem => exact h.advance mem rfl rfl fun d => Nat.le_refl _
  | turnedAway mem =>
    refine h.advance mem rfl rfl fun d => ?_
    show s.mux.count d + _ ≤ s.mux.count d + _
    simp [Call.pastGate]
  | registered registers =>
    refine h.advance registers.mem rfl rfl fun d => ?_
    show (s.mux.step (.opened _ _)).count d + _ ≤ _
    rw [PeerMuxer.count_opened registers.free]
    simp [Call.pastGate]
  | @returned a err mem =>
    intro d
    have htotal : s.mux.count d + s.calls.countP _ ≤ _ := h d
    rw [countP_calls mem, if_neg (by simp [Call.pastGate])] at htotal
    exact htotal
  | closed => exact fun d => Nat.le_trans (Nat.add_le_add_right (PeerMuxer.count_closed_le hi.mux _ d) _) (h d)

omit [DecidableEq D] in
theorem semaphores_new (opts : PeerManagerOpts D) : Semaphores (new opts) := ⟨fun _ => rfl, fun _ => Nat.zero_le _⟩

omit [DecidableEq D] in
theorem total_new (opts : PeerManagerOpts D) : Total extra (new opts) := fun _ => Nat.zero_le _

/-- In every run a limit is overrun by less than the number of calls that may be under way. -/
theorem overrun_bounded (opts : PeerManagerOpts D) (es : List (Event D)) (d : PeerDirection) :
    (Machine.run step (new opts) es).mux.count d ≤ ((new opts).limit d).toNat + (maxPending d - 1) := by
  obtain ⟨-, -, ht, hlimit⟩ :=
    Machine.run_keeps (fun s : PeerManager D =>
        Inv s ∧ Semaphores s ∧ Total (fun d => maxPending d - 1) s ∧ s.limit d = (new opts).limit d)
      (fun s e ⟨hi, hs, ht, hl⟩ => ⟨step_inv s e hi, hs.step e, ht.step hi e fun a _ _ mem room => by
        have := hs.admitted_lt mem
        omega, (step_limit s e d).trans hl⟩) es (new opts)
      ⟨inv_new opts, semaphores_new opts, total_new opts, rfl⟩
  have htotal : _ ≤ _ + (maxPending d - 1) := ht d
  rw [hlimit] at htotal
  omega

/-- A call comes to its gate when no other of its direction is past it and not yet registered, or
    these and the peers are together below the limit. -/
def InTurn (s : PeerManager D) : Event D → Prop
  | .gates a _ => s.admitted a.direction = 0 ∨ (s.mux.count a.direction + s.admitted a.direction : Int) < s.limit a.direction
  | _ => True

omit [DecidableEq D] in
instance (s : PeerManager D) : DecidablePred (InTurn s)
  | .gates .. => inferInstanceAs (Decidable (_ ∨ _))
  | .starts _ | .fails _ | .shakes .. | .cleans .. | .completes .. | .returns .. | .closes _ => .isTrue trivial

theorem limits_hold (opts : PeerManagerOpts D) (es : List (Event D)) (hes : Machine.Along step InTurn (new opts) es) :
    Within (Machine.run step (new opts) es) := by
  intro d
  obtain ⟨-, ht⟩ := Machine.run_inv (fun s : PeerManager D => Inv s ∧ Total (fun _ => 0) s)
    (fun s e ⟨hi, ht⟩ hok => ⟨step_inv s e hi, ht.step hi e fun a _ he _ room => by
      subst he
      rcases hok with hnone | hroom <;> omega⟩) es (new opts) ⟨inv_new opts, total_new opts⟩ hes
  have htotal : _ ≤ _ + 0 := ht d
  omega

def eight : Bytes := utf8 "10.0.0.8"

/-- An accepted connection up to its registration. -/
def accepting (id : Nat) (addr : TCPAddr) : List (Event Nat) :=
  [.starts (.accept addr), .gates (.accept addr) (some false), .shakes (.accept addr) id [], .cleans (.accept addr) id addr.ip]

/-- Two calls of each direction past their gates before any peer is registered. -/
def atOnce : List (Event Nat) :=
  let a : TCPAddr := ⟨seven, utf8 "10.0.0.7:50001"⟩
  let b : TCPAddr := ⟨eight, utf8 "10.0.0.8:50001"⟩
  dialing 1 seven ++ dialing 2 eight ++ accepting 3 a ++ accepting 4 b ++
    [.completes (.dial 1 seven false) 1 seven, .completes (.dial 2 eight false) 2 eight,
      .completes (.accept a) 3 seven, .completes (.accept b) 4 eight]

/-- One after the other: a second dial and a second connection find the limit reached. -/
def oneByOne : List (Event Nat) :=
  let a : TCPAddr := ⟨seven, utf8 "10.0.0.7:50001"⟩
  let b : TCPAddr := ⟨eight, utf8 "10.0.0.8:50001"⟩
  dialing 1 seven ++ [.completes (.dial 1 seven false) 1 seven] ++ dialing 2 eight ++ accepting 3 a ++
    [.completes (.accept a) 3 seven] ++ accepting 4 b

theorem calls_one_by_one_keep_the_limits :
    let s := Machine.run step (host 1 1) oneByOne
    Within s ∧ s.mux.count .outbound = 1 ∧ s.mux.count .inbound = 1 :=
  ⟨limits_hold _ oneByOne (by decide +kernel), by decide +kernel, by decide +kernel⟩

theorem two_dials_pass_a_limit_of_one :
    let s := Machine.run step (host 1 1) atOnce
    s.opts.maxOutbound = 1 ∧ s.mux.count .outbound = 2 ∧ s.opts.maxInbound = 1 ∧ s.mux.count .inbound = 2 ∧
    ¬ Within s :=
  ⟨rfl, by decide +kernel, rfl, by decide +kernel, fun h => absurd (h .outbound) (by decide +kernel)⟩

end PeerManager

end Fnd.P2p

/-
  Fnd.P2p.Pending — whether the entries of `pendingInbound` and `pendingOutbound` go with the
  calls that made them.

  A call enters its address under the string it was called with and deletes it under the same
  string when its dial, its handshake or its check of the ID fails. `completeConnection` deletes
  the connection's own address. For an accepted connection that is the same string; for a
  dialed one it is the IP that was reached, which a host name or another spelling of the IP
  is not. In the runs in which every dial that gets there reached the string it dialed, and
  in no others, every entry is that of a call under way (`pending_cleared_iff`). One dial of a
  host name and the name can never be dialed again (`a_host_name_stays_pending`).
-/

import Fnd.P2p.PeerManager

namespace Fnd.P2p.PeerManager

variable {D : Type}

/-- The entry of a call that has made one and not deleted it. -/
def Call.entry (c : Call D) : Option (PeerDirection × Bytes) :=
  match c.stage with
  | .gated | .shaken .. => some (c.attempt.direction, c.attempt.address)
  | .acquired | .cleaned .. | .returning _ => none

variable [DecidableEq D]

/-- Every entry is that of a call under way, so none is left of a call that has returned, and
    `ErrAlreadyConnecting` is given on account of a call under way. -/
structure Cleared (s : PeerManager D) : Prop where
  entries : ∀ d address, s.pending d address = true → ∃ c ∈ s.calls, Call.entry c = some (d, address)
  refusals : ∀ a isBanned, s.gate a isBanned = .error .alreadyConnecting →
    ∃ c ∈ s.calls, Call.entry c = some (a.direction, a.address)

/-- The connection's own address is the string the call was made with. -/
def OwnAddress (s : PeerManager D) : Event D → Prop
  | .cleans a theirPeerID remoteIP => ⟨a, .shaken theirPeerID remoteIP⟩ ∈ s.calls → a.remote remoteIP = a.address
  | _ => True

theorem gate_connecting {s : PeerManager D} {a : Attempt D} {isBanned : Option Bool}
    (h : s.gate a isBanned = .error .alreadyConnecting) : s.pending a.direction a.address = true := by
  by_contra hnot
  cases a with
  | accept addr =>
    have hnot : ¬ s.pending .inbound addr.string = true := hnot
    simp only [gate, gateInboundPeer, if_neg hnot] at h
    split_ifs at h <;> cases h
  | dial peerID ip verifyPeerID =>
    have hnot : ¬ s.pending .outbound ip = true := hnot
    simp only [gate, gateOutboundPeer, if_neg hnot] at h
    split_ifs at h <;> cases h

theorem cleared_of_entries {s : PeerManager D}
    (h : ∀ d address, s.pending d address = true → ∃ c ∈ s.calls, Call.entry c = some (d, address)) : Cleared s :=
  ⟨h, fun _ _ hgate => h _ _ (gate_connecting hgate)⟩

/-! ## Entries and calls -/

/-- Each entry belongs to one call, and each call that has one to an entry. -/
def Counted (s : PeerManager D) : Prop :=
  ∀ d address, s.calls.countP (fun c => Call.entry c = some (d, address)) = if s.pending d address then 1 else 0

variable {s : PeerManager D}

theorem Counted.cleared (h : Counted s) : Cleared s := by
  refine cleared_of_entries fun d address hp => ?_
  have hcount := h d address
  rw [if_pos hp] at hcount
  obtain ⟨c, hc, he⟩ := List.countP_pos_iff.mp (hcount ▸ Nat.one_pos)
  exact ⟨c, hc, of_decide_eq_true he⟩

omit [DecidableEq D] in
theorem Counted.pending_of_entry (h : Counted s) {c : Call D} {d : PeerDirection} {address : Bytes} (mem : c ∈ s.calls)
    (hentry : Call.entry c = some (d, address)) : s.pending d address = true := by
  have hpos : 0 < s.calls.countP fun c => Call.entry c = some (d, address) :=
    List.countP_pos_iff.mpr ⟨c, mem, decide_eq_true hentry⟩
  by_contra hnot
  rw [h d address, if_neg hnot] at hpos
  exact absurd hpos (Nat.lt_irrefl 0)

omit [DecidableEq D] in
@[simp] theorem setPending_pending (s : PeerManager D) (d : PeerDirection) (address : Bytes) (b : Bool) (d' : PeerDirection)
    (address' : Bytes) :
    (s.setPending d address b).pending d' address' = if (d, address) = (d', address') then b else s.pending d' address' := by
  by_cases hd : d' = d
  · subst hd
    by_cases ha : address' = address
    · simp [setPending, ha]
    · simp [setPending, ha, Ne.symm ha]
  · simp [setPending, hd, Ne.symm hd]

theorem Counted.advance (h : Counted s) {s' : PeerManager D} {a : Attempt D} {before after : CallStage D}
    (mem : ⟨a, before⟩ ∈ s.calls) (hcalls : s'.calls = s.calls)
    (hpending : ∀ d address,
      (if s.pending d address then 1 else 0) + (if Call.entry ⟨a, after⟩ = some (d, address) then 1 else 0) =
      (if s'.pending d address then 1 else 0) + if Call.entry ⟨a, before⟩ = some (d, address) then 1 else 0) :
    Counted (s'.advance a before after) := by
  intro d address
  have hcount := countP_advance (s := s') (hcalls ▸ mem) after fun c => Call.entry c = some (d, address)
  simp only [decide_eq_true_eq, hcalls] at hcount
  have hbefore := h d address
  have hp := hpending d address
  show _ = if s'.pending d address then 1 else 0
  omega

theorem Counted.deletes (h : Counted s) {s' : PeerManager D} {a : Attempt D} {before after : CallStage D}
    (mem : ⟨a, before⟩ ∈ s.calls) (hcalls : s'.calls = s.calls)
    (hpending : s'.pending = (s.setPending a.direction a.address false).pending)
    (hbefore : Call.entry ⟨a, before⟩ = some (a.direction, a.address)) (hafter : Call.entry ⟨a, after⟩ = none) :
    Counted (s'.advance a before after) := by
  have hentry : s.pending a.direction a.address = true := h.pending_of_entry mem hbefore
  refine h.advance mem hcalls fun d address => ?_
  rw [hpending, setPending_pending, hbefore, hafter]
  by_cases hk : (a.direction, a.address) = (d, address)
  · obtain ⟨rfl, rfl⟩ := Prod.mk.inj hk
    simp [hentry]
  · simp [hk]

theorem step_counted (s : PeerManager D) (e : Event D) (h : Counted s) (hok : OwnAddress s e) : Counted (s.step e) := by
  have he := step_effect s e
  generalize s.step e = s' at he
  cases he with
  | skips => exact h
  | starts room =>
    intro d address
    rw [List.countP_cons_of_neg (by simp [Call.entry])]
    exact h d address
  | refused mem => exact h.advance mem rfl fun d address => rfl
  | @passed a isBanned mem free room _ =>
    refine h.advance mem rfl fun d address => ?_
    rw [setPending_pending]
    by_cases hk : (a.direction, a.address) = (d, address)
    · obtain ⟨rfl, rfl⟩ := Prod.mk.inj hk
      simp [free, Call.entry]
    · simp [hk, Call.entry]
  | gaveUp mem => exact h.deletes mem rfl rfl rfl rfl
  | shook mem => exact h.advance mem rfl fun d address => rfl
  | cleaned mem => exact h.deletes mem rfl (by rw [← hok mem]) rfl rfl
  | turnedAway mem => exact h.advance mem rfl fun d address => rfl
  | registered registers => exact h.advance registers.mem rfl fun d address => rfl
  | returned mem =>
    intro d address
    have hcount := countP_calls mem fun c => Call.entry c = some (d, address)
    rw [if_neg (by simp [Call.entry])] at hcount
    exact hcount.symm.trans (h d address)
  | closed => exact h

theorem left_behind {a : Attempt D} {theirPeerID : D} {remoteIP : Bytes} (h : Counted s)
    (mem : ⟨a, .shaken theirPeerID remoteIP⟩ ∈ s.calls) (hne : a.remote remoteIP ≠ a.address) :
    ¬ Cleared (s.step (.cleans a theirPeerID remoteIP)) := by
  intro hcleared
  have hstep : s.step (.cleans a theirPeerID remoteIP) = (s.setPending a.direction (a.remote remoteIP) false).advance a
      (.shaken theirPeerID remoteIP) (.cleaned theirPeerID remoteIP) := by
    rw [step, if_pos mem, cleanup_eq]
  have hpending : s.pending a.direction a.address = true := h.pending_of_entry mem rfl
  have hkept : (s.setPending a.direction (a.remote remoteIP) false).pending a.direction a.address = true := by
    rw [setPending_pending, if_neg fun hk => hne (Prod.mk.inj hk).2]
    exact hpending
  rw [hstep] at hcleared
  obtain ⟨c, hc, hentry⟩ := hcleared.entries a.direction a.address hkept
  -- the one call that had the entry no longer has it
  have hcount := countP_calls mem fun c => Call.entry c = some (a.direction, a.address)
  rw [h, if_pos hpending, if_pos (by simp [Call.entry])] at hcount
  have hnone := List.countP_eq_zero.mp (Nat.succ.inj hcount).symm
  rcases List.mem_cons.mp hc with rfl | hc
  · cases hentry
  · exact hnone c hc (decide_eq_true hentry)

theorem cleared_step_iff (s : PeerManager D) (e : Event D) (h : Counted s) : Cleared (s.step e) ↔ OwnAddress s e := by
  constructor
  · intro hcleared
    cases e with
    | cleans a theirPeerID remoteIP =>
      intro mem
      by_contra hne
      exact left_behind h mem hne hcleared
    | _ => trivial
  · intro hok
    exact (step_counted s e h hok).cleared

/-- Over every run, in every state reached. -/
theorem pending_cleared_iff (opts : PeerManagerOpts D) (es : List (Event D)) :
    Machine.Along step (fun s e => Cleared (s.step e)) (new opts) es ↔ Machine.Along step OwnAddress (new opts) es :=
  Machine.along_iff Counted (fun s e h => cleared_step_iff s e h)
    (fun s e h hq => step_counted s e h ((cleared_step_iff s e h).mp hq)) es (new opts) fun _ _ => rfl

/-- `DialPeer` of a host name, as `AddPeer` of the RPC server lets through, to its return. -/
def hostName : List (Event Nat) :=
  let a : Attempt Nat := .dial 1 (utf8 "localhost") false
  let ip := utf8 "127.0.0.1"
  [.starts a, .gates a (some false), .shakes a 1 ip, .cleans a 1 ip, .completes a 1 ip, .returns a none, .closes 1]

/-- The call has returned without an error and its peer has been closed since. No call is
    under way, and the name is refused. -/
theorem a_host_name_stays_pending :
    let s := Machine.run step (new ⟨0, utf8 "0.0.0.0", 117, 8⟩) hostName
    s.calls = [] ∧ s.mux.peerIDs = [] ∧ s.pending .outbound (utf8 "localhost") = true ∧
    s.gate (.dial 1 (utf8 "localhost") false) (some false) = .error .alreadyConnecting ∧ ¬ Cleared s := by
  intro s
  have hcalls : s.calls = [] := by decide +kernel
  have hpending : s.pending .outbound (utf8 "localhost") = true := by decide +kernel
  refine ⟨hcalls, by decide +kernel, hpending, ?_, fun h => ?_⟩
  · rw [gate, gateOutboundPeer, if_neg (by decide +kernel), if_pos hpending]
  · obtain ⟨c, hc, -⟩ := h.entries .outbound _ hpending
    rw [hcalls] at hc
    cases hc

end Fnd.P2p.PeerManager

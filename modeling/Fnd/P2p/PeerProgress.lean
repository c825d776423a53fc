/-
  Fnd.P2p.PeerProgress — no call on a connection hangs, and `Close` leaves nothing behind
  (`p2p/peer.go`).

  `Close` waits for both goroutines while it holds the mutex that their own `Close` waits for; a
  goroutine leaves its token before it calls `Close`, so this is no deadlock. Every step other than
  a new call lowers `State.weight`, so that after at most that many nothing is left to do. Then
  every call has returned, and either nobody has closed and both goroutines are in their loops, or
  the connection is closed and both are gone (`calls_return`).

  A read or a write is taken to end, which the deadline of a minute sees to. That a context ends is
  not assumed.
-/

import Fnd.Lib.Weight
import Fnd.P2p.Peer

namespace Fnd.P2p.PeerImpl

variable {E : Type}

def Event.isCall : Event E → Bool
  | .sendCtx _ | .receiveCtx | .close => true
  | _ => false

def Event.isCtx : Event E → Bool
  | .local_ _ .ctxDone => true
  | _ => false

def Call.returned : Call E → Bool
  | .sent _ _ | .received _ | .closing .returned => true
  | _ => false

/-! ## Every step lowers the weight -/

def Closing.weight : Closing → Nat
  | .lock => 8
  | .check => 7
  | .reason => 6
  | .conn => 5
  | .chan => 4
  | .waitRecv => 3
  | .waitSend => 2
  | .returned => 0

def Call.weight : Call E → Nat
  | .sendEntry _ => 18
  | .sendBuffer _ retries => 6 + (maxRetries + 1 - retries)
  | .sendWait _ _ => 2
  | .sendClosed _ => 1
  | .sent _ _ => 0
  | .recvEntry => 9
  | .recvPush => 8
  | .recvWait _ => 2
  | .recvClosed => 1
  | .received _ => 0
  | .closing p => p.weight

def Sender.weight : Sender E → Nat
  | .loop => 11
  | .writing _ _ => 13
  | .exiting => 10
  | .gone => 0

def Receiver.weight : Receiver → Nat
  | .loop => 11
  | .reading _ => 13
  | .exiting => 10
  | .gone => 0

/-- A request that is queued weighs three. -/
def State.weight (s : State E) : Nat :=
  (s.calls.map Call.weight).sum + 3 * s.sendCh.length + 3 * s.recvCh.length + s.sender.weight + s.receiver.weight

theorem sum_put {s : State E} {i : Nat} {c : Call E} (hi : s.calls[i]? = some c) (c' : Call E) :
    ((s.put i c').calls.map Call.weight).sum + c.weight = (s.calls.map Call.weight).sum + c'.weight :=
  Weight.sum_set Call.weight hi c'

theorem sum_start (s : State E) (c : Call E) :
    ((s.start c).calls.map Call.weight).sum = (s.calls.map Call.weight).sum + c.weight := by
  rw [State.start, List.map_append, List.sum_append]
  rfl

theorem weight_deliverErr (s : State E) (i : Nat) (err : Option Err) : (s.deliverErr i err).weight = s.weight := by
  unfold State.deliverErr
  split
  · rename_i envelope hi
    have hsum := sum_put hi (.sendWait envelope (some err))
    unfold State.weight
    simp only [Call.weight] at hsum
    have heq := Nat.add_right_cancel hsum
    rw [heq]
    rfl
  · rfl

theorem weight_deliver (s : State E) (i : Nat) (res : Except Err E) : (s.deliver i res).weight = s.weight := by
  unfold State.deliver
  split
  · rename_i hi
    have hsum := sum_put hi (.recvWait (some res))
    unfold State.weight
    simp only [Call.weight] at hsum
    have heq := Nat.add_right_cancel hsum
    rw [heq]
    rfl
  · rfl

theorem Call.weight_next {closed : Bool} {reason : Option Err} {choice : Choice} {c c' : Call E}
    (h : Call.next closed reason choice c = some c') : c'.weight < c.weight := by
  unfold Call.next at h
  split at h
  · cases h
    split
    · exact (by decide : 1 < 18)
    · exact (by decide : 17 < 18)
  · rename_i envelope retries
    cases h
    split
    · exact Nat.lt_of_lt_of_le (by decide : 0 < 6) (Nat.le_add_right _ _)
    · show 6 + (maxRetries + 1 - (retries + 1)) < 6 + (maxRetries + 1 - retries)
      omega
  · cases h; exact Nat.lt_of_lt_of_le (by decide : 0 < 6) (Nat.le_add_right _ _)
  · cases h; exact Nat.two_pos
  · cases h; exact Nat.two_pos
  · split at h
    · cases h; exact Nat.one_lt_two
    · cases h
  · cases h; exact Nat.one_pos
  · cases h
    split
    · exact (by decide : 1 < 9)
    · exact (by decide : 8 < 9)
  · cases h; exact Nat.two_pos
  · cases h; exact Nat.two_pos
  · cases h; exact Nat.two_pos
  · split at h
    · cases h; exact Nat.one_lt_two
    · cases h
  · cases h; exact Nat.one_pos
  · cases h

theorem weight_put {s : State E} {i : Nat} {c c' : Call E} (hi : s.calls[i]? = some c) (hlt : c'.weight < c.weight) :
    (s.put i c').weight < s.weight := by
  have hsum := sum_put hi c'
  show ((s.put i c').calls.map Call.weight).sum + 3 * s.sendCh.length + 3 * s.recvCh.length + s.sender.weight +
      s.receiver.weight <
    (s.calls.map Call.weight).sum + 3 * s.sendCh.length + 3 * s.recvCh.length + s.sender.weight + s.receiver.weight
  omega

theorem weight_sendPush {s s' : State E} {i : Nat} (h : s.sendPush i = some s') : s'.weight < s.weight := by
  unfold State.sendPush at h
  split at h
  · rename_i envelope retries hi
    split at h
    · cases h
      have hsum := sum_put hi (.sendWait envelope none)
      simp only [State.weight, List.length_append, List.length_singleton, Call.weight] at hsum ⊢
      show _ + 3 * (s.sendCh.length + 1) + 3 * s.recvCh.length + s.sender.weight + s.receiver.weight < _
      omega
    · cases h
  · cases h

theorem weight_recvPush {s s' : State E} {i : Nat} (h : s.recvPush i = some s') : s'.weight < s.weight := by
  unfold State.recvPush at h
  split at h
  · rename_i hi
    split at h
    · cases h
      have hsum := sum_put hi (.recvWait none)
      simp only [State.weight, List.length_append, List.length_singleton, Call.weight] at hsum ⊢
      show _ + 3 * s.sendCh.length + 3 * (s.recvCh.length + 1) + s.sender.weight + s.receiver.weight < _
      omega
    · cases h
      exact weight_put hi (show 0 < 8 by decide)
  · cases h

theorem weight_closeStep {s s' : State E} {i : Nat} (h : s.closeStep i = some s') : s'.weight < s.weight := by
  -- whatever else a step of `Close` writes has no weight
  have hto : ∀ {p p' : Closing}, s.calls[i]? = some (.closing p) → p'.weight < p.weight →
      (s.put i (.closing p')).weight < s.weight := fun hi hlt => weight_put hi hlt
  unfold State.closeStep at h
  split at h
  · split at h
    · cases h; exact hto ‹_› (by decide : Closing.check.weight < Closing.lock.weight)
    · cases h
  · split at h
    · cases h; exact hto ‹_› (by decide : Closing.returned.weight < Closing.check.weight)
    · cases h; exact hto ‹_› (by decide)
  · cases h; exact hto ‹_› (by decide : Closing.conn.weight < Closing.reason.weight)
  · cases h; exact hto ‹_› (by decide : Closing.chan.weight < Closing.conn.weight)
  · cases h; exact hto ‹_› (by decide : Closing.waitRecv.weight < Closing.chan.weight)
  · split at h
    · cases h; exact hto ‹_› (by decide : Closing.waitSend.weight < Closing.waitRecv.weight)
    · cases h
  · split at h
    · cases h; exact hto ‹_› (by decide : Closing.returned.weight < Closing.waitSend.weight)
    · cases h
  · cases h

theorem weight_sender {s : State E} (sender : Sender E) (sendCh : List (Nat × E)) (written : List (Nat × E)) (reason : Option Err)
    (hlt : 3 * sendCh.length + sender.weight < 3 * s.sendCh.length + s.sender.weight) :
    State.weight { s with sender := sender, sendCh := sendCh, written := written, closeReason := reason } < s.weight := by
  simp only [State.weight]
  omega

theorem weight_receiver {s : State E} (receiver : Receiver) (recvCh : List Nat) (decoded : List E) (reason : Option Err)
    (hlt : 3 * recvCh.length + receiver.weight < 3 * s.recvCh.length + s.receiver.weight) :
    State.weight { s with receiver := receiver, recvCh := recvCh, decoded := decoded, closeReason := reason } < s.weight := by
  simp only [State.weight]
  omega

theorem weight_sendEvents {s s' : State E} {e : Event E} (h : s.next e = some s')
    (he : e = .sendTake ∨ (∃ err, e = .sendWrite err) ∨ e = .sendQuit ∨ e = .sendDefer) : s'.weight < s.weight := by
  rcases he with rfl | ⟨err, rfl⟩ | rfl | rfl
  · simp only [State.next, State.sendTake] at h
    split at h
    · rename_i i envelope rest hsender hch
      cases h
      refine weight_sender (.writing i envelope) rest s.written s.closeReason ?_
      rw [hsender, hch, List.length_cons]
      show 3 * rest.length + 13 < 3 * (rest.length + 1) + 11
      omega
    · cases h
  · simp only [State.next, State.sendWrite] at h
    split at h
    · rename_i i envelope hsender
      split at h
      · cases h
      · cases h
        rw [weight_deliverErr]
        refine weight_sender .loop s.sendCh (s.written ++ [(i, envelope)]) s.closeReason ?_
        rw [hsender]
        exact Nat.add_lt_add_left (by decide : 11 < 13) _
    · rename_i i envelope err hsender
      cases h
      rw [weight_deliverErr]
      refine weight_sender .exiting s.sendCh s.written (some (setCloseReason s.closeReason err)) ?_
      rw [hsender]
      exact Nat.add_lt_add_left (by decide : 10 < 13) _
    · cases h
  · simp only [State.next, State.sendQuit] at h
    split at h
    · rename_i hsender
      split at h
      · cases h
        refine weight_sender .exiting s.sendCh s.written s.closeReason ?_
        rw [hsender]
        exact Nat.add_lt_add_left (by decide : 10 < 11) _
      · cases h
    · cases h
  · simp only [State.next, State.sendDefer] at h
    split at h
    · rename_i hsender
      split at h
      · cases h
      · cases h
        have hsum := sum_start { s with sender := .gone, sendDone := true } (.closing .lock)
        unfold State.weight
        rw [hsum, hsender]
        show (s.calls.map Call.weight).sum + 8 + 3 * s.sendCh.length + 3 * s.recvCh.length + 0 + s.receiver.weight <
          (s.calls.map Call.weight).sum + 3 * s.sendCh.length + 3 * s.recvCh.length + 10 + s.receiver.weight
        omega
    · cases h

theorem weight_recvEvents {s s' : State E} {e : Event E} (h : s.next e = some s')
    (he : e = .recvTake ∨ (∃ res, e = .recvRead res) ∨ e = .recvQuit ∨ e = .recvDefer) : s'.weight < s.weight := by
  rcases he with rfl | ⟨res, rfl⟩ | rfl | rfl
  · simp only [State.next, State.recvTake] at h
    split at h
    · rename_i i rest hreceiver hch
      cases h
      refine weight_receiver (.reading i) rest s.decoded s.closeReason ?_
      rw [hreceiver, hch, List.length_cons]
      show 3 * rest.length + 13 < 3 * (rest.length + 1) + 11
      omega
    · cases h
  · simp only [State.next, State.recvRead] at h
    split at h
    · rename_i i envelope hreceiver
      cases h
      rw [weight_deliver]
      refine weight_receiver .loop s.recvCh (s.decoded ++ [envelope]) s.closeReason ?_
      rw [hreceiver]
      exact Nat.add_lt_add_left (by decide : 11 < 13) _
    · rename_i i err hreceiver
      cases h
      rw [weight_deliver]
      refine weight_receiver .exiting s.recvCh s.decoded (some (setCloseReason s.closeReason err)) ?_
      rw [hreceiver]
      exact Nat.add_lt_add_left (by decide : 10 < 13) _
    · cases h
  · simp only [State.next, State.recvQuit] at h
    split at h
    · rename_i hreceiver
      split at h
      · cases h
        refine weight_receiver .exiting s.recvCh s.decoded s.closeReason ?_
        rw [hreceiver]
        exact Nat.add_lt_add_left (by decide : 10 < 11) _
      · cases h
    · cases h
  · simp only [State.next, State.recvDefer] at h
    split at h
    · rename_i hreceiver
      split at h
      · cases h
      · cases h
        have hsum := sum_start { s with receiver := .gone, recvDone := true } (.closing .lock)
        unfold State.weight
        rw [hsum, hreceiver]
        show (s.calls.map Call.weight).sum + 8 + 3 * s.sendCh.length + 3 * s.recvCh.length + s.sender.weight + 0 <
          (s.calls.map Call.weight).sum + 3 * s.sendCh.length + 3 * s.recvCh.length + s.sender.weight + 10
        omega
    · cases h

theorem weight_next {s s' : State E} {e : Event E} (he : e.isCall = false) (h : s.next e = some s') : s'.weight < s.weight := by
  cases e with
  | sendCtx | receiveCtx | close => cases he
  | local_ i choice =>
    simp only [State.next, Option.map_eq_some_iff, Option.bind_eq_some_iff] at h
    obtain ⟨c', ⟨c, hi, hnext⟩, rfl⟩ := h
    exact weight_put hi (Call.weight_next hnext)
  | sendPush i => exact weight_sendPush h
  | recvPush i => exact weight_recvPush h
  | closeStep i => exact weight_closeStep h
  | sendTake => exact weight_sendEvents h (.inl rfl)
  | sendWrite err => exact weight_sendEvents h (.inr (.inl ⟨err, rfl⟩))
  | sendQuit => exact weight_sendEvents h (.inr (.inr (.inl rfl)))
  | sendDefer => exact weight_sendEvents h (.inr (.inr (.inr rfl)))
  | recvTake => exact weight_recvEvents h (.inl rfl)
  | recvRead res => exact weight_recvEvents h (.inr (.inl ⟨res, rfl⟩))
  | recvQuit => exact weight_recvEvents h (.inr (.inr (.inl rfl)))
  | recvDefer => exact weight_recvEvents h (.inr (.inr (.inr rfl)))

/-! ## What a call waits for is under way -/

def Sender.hand : Sender E → List (Nat × E)
  | .writing i envelope => [(i, envelope)]
  | _ => []

def Sender.stays : Sender E → Bool
  | .loop | .writing _ _ => true
  | _ => false

def Receiver.hand : Receiver → List Nat
  | .reading i => [i]
  | _ => []

def Receiver.stays : Receiver → Bool
  | .loop | .reading _ => true
  | _ => false

/-- Waiting, and nothing has come. -/
def Call.idle : Call E → Bool
  | .sendWait _ none | .recvWait none => true
  | _ => false

structure Waits (s : State E) : Prop where
  sends : s.sender.stays = true → ∀ (i : Nat) (envelope : E), s.calls[i]? = some (.sendWait envelope none) →
    (i, envelope) ∈ s.sender.hand ++ s.sendCh
  recvs : s.receiver.stays = true → ∀ i : Nat, s.calls[i]? = some (.recvWait none) → i ∈ s.receiver.hand ++ s.recvCh
  left : s.sender = .gone ∨ s.receiver = .gone → s.closed = true ∨
    ∃ (i : Nat) (p : Closing), s.calls[i]? = some (.closing p) ∧ p ≠ .returned

theorem waits_newPeer : Waits (newPeer : State E) where
  sends _ i envelope h := by cases h
  recvs _ i h := by cases h
  left h := by rcases h with h | h <;> cases h

theorem put_other {s : State E} {i : Nat} {c : Call E} (c' : Call E) (hi : s.calls[i]? = some c) {j : Nat} {d : Call E}
    (hj : (s.put i c').calls[j]? = some d) (hd : d ≠ c') : s.calls[j]? = some d ∧ j ≠ i := by
  rw [getElem?_put c' hi] at hj
  split at hj
  · exact absurd (Option.some.inj hj).symm hd
  · exact ⟨hj, ‹_›⟩

theorem ne_of_idle {c d : Call E} (hc : c.idle = true) (hd : d.idle = false) : c ≠ d := by
  intro h
  rw [h, hd] at hc
  cases hc

theorem Waits.put {s : State E} (h : Waits s) {i : Nat} {c : Call E} (c' : Call E) (hi : s.calls[i]? = some c)
    (hc : c.isClosing = false) (hc' : c'.idle = false) : Waits (s.put i c') where
  sends hs j envelope hj := h.sends hs j envelope (put_other c' hi hj (ne_of_idle rfl hc')).1
  recvs hs j hj := h.recvs hs j (put_other c' hi hj (ne_of_idle rfl hc')).1
  left hg := by
    rcases h.left hg with hclosed | ⟨j, p, hj, hp⟩
    · exact .inl hclosed
    · refine .inr ⟨j, p, ?_, hp⟩
      rw [getElem?_put c' hi, if_neg fun hji => ?_]
      · exact hj
      · rw [hji, hi] at hj
        cases hj
        cases hc

theorem start_other {s : State E} (c : Call E) {j : Nat} {d : Call E} (hj : (s.start c).calls[j]? = some d) (hd : d ≠ c) :
    s.calls[j]? = some d := by
  rw [State.start, List.getElem?_append] at hj
  split at hj
  · exact hj
  · exact absurd (List.mem_singleton.mp (List.mem_of_getElem? hj)) hd

theorem getElem?_start {s : State E} (c : Call E) {j : Nat} {d : Call E} (hj : s.calls[j]? = some d) :
    (s.start c).calls[j]? = some d := by
  rw [State.start, List.getElem?_append_left (List.getElem?_eq_some_iff.mp hj).1, hj]

theorem Waits.start {s : State E} (h : Waits s) {c : Call E} (hc : c.idle = false) : Waits (s.start c) where
  sends hs j envelope hj := h.sends hs j envelope (start_other c hj (ne_of_idle rfl hc))
  recvs hs j hj := h.recvs hs j (start_other c hj (ne_of_idle rfl hc))
  left hg := (h.left hg).imp_right fun ⟨j, p, hj, hp⟩ => ⟨j, p, getElem?_start c hj, hp⟩

theorem idle_next {closed : Bool} {reason : Option Err} {choice : Choice} {c c' : Call E}
    (h : Call.next closed reason choice c = some c') : c.isClosing = false ∧ c'.idle = false := by
  unfold Call.next at h
  split at h
  · cases h; split <;> exact ⟨rfl, rfl⟩
  · cases h; split <;> exact ⟨rfl, rfl⟩
  · cases h; exact ⟨rfl, rfl⟩
  · cases h; exact ⟨rfl, rfl⟩
  · cases h; exact ⟨rfl, rfl⟩
  · split at h <;> cases h; exact ⟨rfl, rfl⟩
  · cases h; exact ⟨rfl, rfl⟩
  · cases h; split <;> exact ⟨rfl, rfl⟩
  · cases h; exact ⟨rfl, rfl⟩
  · cases h; exact ⟨rfl, rfl⟩
  · cases h; exact ⟨rfl, rfl⟩
  · split at h <;> cases h; exact ⟨rfl, rfl⟩
  · cases h; exact ⟨rfl, rfl⟩
  · cases h

theorem Waits.sendPush {s s' : State E} (h : Waits s) {i : Nat} (hs : s.sendPush i = some s') : Waits s' := by
  unfold State.sendPush at hs
  split at hs
  · rename_i envelope retries hi
    split at hs
    · cases hs
      refine ⟨fun hstays j envelope' hj => ?_, fun hstays j hj => ?_, fun hg => ?_⟩
      · show (j, envelope') ∈ s.sender.hand ++ (s.sendCh ++ [(i, envelope)])
        rw [← List.append_assoc]
        by_cases hji : j = i
        · have hnew : (s.put i (.sendWait envelope none)).calls[i]? = some (.sendWait envelope none) :=
            (getElem?_put _ hi i).trans (if_pos rfl)
          rw [hji] at hj ⊢
          cases hnew.symm.trans hj
          exact List.mem_append_right _ List.mem_cons_self
        · have hold : s.calls[j]? = some (.sendWait envelope' none) :=
            ((getElem?_put _ hi j).trans (if_neg hji)).symm.trans hj
          exact List.mem_append_left _ (h.sends hstays j envelope' hold)
      · exact h.recvs hstays j (put_other (.sendWait envelope none) hi hj nofun).1
      · rcases h.left hg with hclosed | ⟨j, p, hj, hp⟩
        · exact .inl hclosed
        · refine .inr ⟨j, p, (getElem?_put _ hi j).trans ?_, hp⟩
          rw [if_neg fun hji => ?_]
          · exact hj
          · rw [hji, hi] at hj
            cases hj
    · cases hs
  · cases hs

theorem Waits.recvPush {s s' : State E} (h : Waits s) {i : Nat} (hs : s.recvPush i = some s') : Waits s' := by
  unfold State.recvPush at hs
  split at hs
  · rename_i hi
    split at hs
    · cases hs
      refine ⟨fun hstays j envelope hj => ?_, fun hstays j hj => ?_, fun hg => ?_⟩
      · exact h.sends hstays j envelope (put_other (.recvWait none) hi hj nofun).1
      · show j ∈ s.receiver.hand ++ (s.recvCh ++ [i])
        rw [← List.append_assoc]
        by_cases hji : j = i
        · rw [hji]
          exact List.mem_append_right _ List.mem_cons_self
        · have hold : s.calls[j]? = some (.recvWait none) := ((getElem?_put _ hi j).trans (if_neg hji)).symm.trans hj
          exact List.mem_append_left _ (h.recvs hstays j hold)
      · rcases h.left hg with hclosed | ⟨j, p, hj, hp⟩
        · exact .inl hclosed
        · refine .inr ⟨j, p, (getElem?_put _ hi j).trans ?_, hp⟩
          rw [if_neg fun hji => ?_]
          · exact hj
          · rw [hji, hi] at hj
            cases hj
    · cases hs
      exact h.put _ hi rfl rfl
  · cases hs

theorem Waits.closeStep {s s' : State E} (h : Waits s) (hinv : Inv s) {i : Nat} (hs : s.closeStep i = some s') : Waits s' := by
  have hs' := hinv.closeStep hs
  -- the step writes the call at `i` and neither queue nor goroutine
  obtain ⟨p, p', hi, hcalls, hsender, hreceiver, hsendCh, hrecvCh⟩ : ∃ p p' : Closing, s.calls[i]? = some (.closing p) ∧
      s'.calls = (s.put i (.closing p')).calls ∧ s'.sender = s.sender ∧ s'.receiver = s.receiver ∧ s'.sendCh = s.sendCh ∧
      s'.recvCh = s.recvCh := by
    unfold State.closeStep at hs
    repeat' split at hs
    all_goals cases hs
    all_goals exact ⟨_, _, ‹_›, rfl, rfl, rfl, rfl, rfl⟩
  have hget : ∀ j, s'.calls[j]? = if j = i then some (.closing p') else s.calls[j]? := by
    rw [hcalls]
    exact getElem?_put _ hi
  refine ⟨fun hstays j envelope hj => ?_, fun hstays j hj => ?_, fun _ => ?_⟩
  · rw [hsender, hsendCh]
    rw [hcalls] at hj
    exact h.sends (hsender ▸ hstays) j envelope (put_other (.closing p') hi hj nofun).1
  · rw [hreceiver, hrecvCh]
    rw [hcalls] at hj
    exact h.recvs (hreceiver ▸ hstays) j (put_other (.closing p') hi hj nofun).1
  · have hnew : s'.calls[i]? = some (.closing p') := (hget i).trans (if_pos rfl)
    by_cases hp' : p' = .returned
    · rw [hp'] at hnew
      exact .inl (hs'.ok i _ hnew)
    · exact .inr ⟨i, p', hnew, hp'⟩

theorem deliverErr_other {s : State E} {i j : Nat} {err : Option Err} {d : Call E}
    (hj : (s.deliverErr i err).calls[j]? = some d) (hd : ∀ envelope, d ≠ .sendWait envelope (some err)) :
    s.calls[j]? = some d ∧ (∀ envelope, d = .sendWait envelope none → j ≠ i) := by
  unfold State.deliverErr at hj
  split at hj
  · rename_i envelope hi
    obtain ⟨hj, hji⟩ := put_other (.sendWait envelope (some err)) hi hj (hd envelope)
    exact ⟨hj, fun _ _ => hji⟩
  · rename_i hne
    refine ⟨hj, fun envelope hdw hji => ?_⟩
    rw [hdw, hji] at hj
    exact hne envelope hj

theorem getElem?_deliverErr {s : State E} {i j : Nat} (err : Option Err) {p : Closing} (hj : s.calls[j]? = some (.closing p)) :
    (s.deliverErr i err).calls[j]? = some (.closing p) := by
  unfold State.deliverErr
  split
  · rename_i envelope hi
    rw [getElem?_put _ hi, if_neg fun hji => ?_]
    · exact hj
    · rw [hji, hi] at hj
      cases hj
  · exact hj

theorem deliver_other {s : State E} {i j : Nat} {res : Except Err E} {d : Call E}
    (hj : (s.deliver i res).calls[j]? = some d) (hd : d ≠ .recvWait (some res)) :
    s.calls[j]? = some d ∧ (d = .recvWait none → j ≠ i) := by
  unfold State.deliver at hj
  split at hj
  · rename_i hi
    obtain ⟨hj, hji⟩ := put_other (.recvWait (some res)) hi hj hd
    exact ⟨hj, fun _ => hji⟩
  · rename_i hne
    refine ⟨hj, fun hdw hji => ?_⟩
    rw [hdw, hji] at hj
    exact hne hj

theorem getElem?_deliver {s : State E} {i j : Nat} (res : Except Err E) {p : Closing} (hj : s.calls[j]? = some (.closing p)) :
    (s.deliver i res).calls[j]? = some (.closing p) := by
  unfold State.deliver
  split
  · rename_i hi
    rw [getElem?_put _ hi, if_neg fun hji => ?_]
    · exact hj
    · rw [hji, hi] at hj
      cases hj
  · exact hj

theorem deliverErr_eq (s : State E) (i : Nat) (err : Option Err) :
    ∃ calls, s.deliverErr i err = { s with calls := calls } := by
  unfold State.deliverErr
  split
  · exact ⟨_, rfl⟩
  · exact ⟨_, rfl⟩

theorem deliver_eq (s : State E) (i : Nat) (res : Except Err E) : ∃ calls, s.deliver i res = { s with calls := calls } := by
  unfold State.deliver
  split
  · exact ⟨_, rfl⟩
  · exact ⟨_, rfl⟩

theorem Waits.sendWrite {s s' : State E} (h : Waits s) {err : Option Err} (hs : s.sendWrite err = some s') : Waits s' := by
  unfold State.sendWrite at hs
  split at hs
  · rename_i i envelope hsender
    split at hs
    · cases hs
    · cases hs
      obtain ⟨calls, heq⟩ := deliverErr_eq { s with sender := .loop, written := s.written ++ [(i, envelope)] } i none
      refine ⟨fun _ j envelope' hj => ?_, fun hstays j hj => ?_, fun hg => ?_⟩
      · -- the call that was served is no longer idle
        obtain ⟨hj, hji⟩ := deliverErr_other hj nofun
        have hmem := h.sends (by rw [hsender]; rfl) j envelope' hj
        rw [hsender] at hmem
        rw [heq]
        rcases List.mem_append.mp hmem with hmem | hmem
        · cases List.mem_singleton.mp hmem
          exact absurd rfl (hji _ rfl)
        · exact hmem
      · obtain ⟨hj, -⟩ := deliverErr_other hj nofun
        rw [heq] at hstays ⊢
        exact h.recvs hstays j hj
      · rw [heq] at hg
        rcases hg with hg | hg
        · cases hg
        · rcases h.left (.inr hg) with hclosed | ⟨j, p, hj, hp⟩
          · exact .inl (by rw [heq]; exact hclosed)
          · exact .inr ⟨j, p, getElem?_deliverErr none hj, hp⟩
  · rename_i i envelope err hsender
    cases hs
    obtain ⟨calls, heq⟩ := deliverErr_eq
      { s with sender := .exiting, closeReason := some (setCloseReason s.closeReason err) } i
        (some (setCloseReason s.closeReason err))
    refine ⟨fun hstays => ?_, fun hstays j hj => ?_, fun hg => ?_⟩
    · rw [heq] at hstays
      cases hstays
    · obtain ⟨hj, -⟩ := deliverErr_other hj nofun
      rw [heq] at hstays ⊢
      exact h.recvs hstays j hj
    · rw [heq] at hg
      rcases hg with hg | hg
      · cases hg
      · rcases h.left (.inr hg) with hclosed | ⟨j, p, hj, hp⟩
        · exact .inl (by rw [heq]; exact hclosed)
        · exact .inr ⟨j, p, getElem?_deliverErr _ hj, hp⟩
  · cases hs

theorem Waits.recvRead {s s' : State E} (h : Waits s) {res : Except Err E} (hs : s.recvRead res = some s') : Waits s' := by
  unfold State.recvRead at hs
  split at hs
  · rename_i i envelope hreceiver
    cases hs
    obtain ⟨calls, heq⟩ := deliver_eq { s with receiver := .loop, decoded := s.decoded ++ [envelope] } i (.ok envelope)
    refine ⟨fun hstays j envelope' hj => ?_, fun _ j hj => ?_, fun hg => ?_⟩
    · obtain ⟨hj, -⟩ := deliver_other hj nofun
      rw [heq] at hstays ⊢
      exact h.sends hstays j envelope' hj
    · obtain ⟨hj, hji⟩ := deliver_other hj nofun
      have hmem := h.recvs (by rw [hreceiver]; rfl) j hj
      rw [hreceiver] at hmem
      rw [heq]
      rcases List.mem_append.mp hmem with hmem | hmem
      · exact absurd (List.mem_singleton.mp hmem) (hji rfl)
      · exact hmem
    · rw [heq] at hg
      rcases hg with hg | hg
      · rcases h.left (.inl hg) with hclosed | ⟨j, p, hj, hp⟩
        · exact .inl (by rw [heq]; exact hclosed)
        · exact .inr ⟨j, p, getElem?_deliver _ hj, hp⟩
      · cases hg
  · rename_i i err hreceiver
    cases hs
    obtain ⟨calls, heq⟩ := deliver_eq
      { s with receiver := .exiting, closeReason := some (setCloseReason s.closeReason err) } i
      (.error (setCloseReason s.closeReason err))
    refine ⟨fun hstays j envelope' hj => ?_, fun hstays => ?_, fun hg => ?_⟩
    · obtain ⟨hj, -⟩ := deliver_other hj nofun
      rw [heq] at hstays ⊢
      exact h.sends hstays j envelope' hj
    · rw [heq] at hstays
      cases hstays
    · rw [heq] at hg
      rcases hg with hg | hg
      · rcases h.left (.inl hg) with hclosed | ⟨j, p, hj, hp⟩
        · exact .inl (by rw [heq]; exact hclosed)
        · exact .inr ⟨j, p, getElem?_deliver _ hj, hp⟩
      · cases hg
  · cases hs

theorem Waits.next {s s' : State E} (h : Waits s) (hinv : Inv s) {e : Event E} (hs : s.next e = some s') : Waits s' := by
  cases e with
  | sendCtx | receiveCtx | close => cases hs; exact h.start rfl
  | local_ i choice =>
    simp only [State.next, Option.map_eq_some_iff, Option.bind_eq_some_iff] at hs
    obtain ⟨c', ⟨c, hi, hnext⟩, rfl⟩ := hs
    exact h.put c' hi (idle_next hnext).1 (idle_next hnext).2
  | sendPush i => exact h.sendPush hs
  | recvPush i => exact h.recvPush hs
  | closeStep i => exact h.closeStep hinv hs
  | sendTake =>
    simp only [State.next, State.sendTake] at hs
    split at hs
    · rename_i i envelope rest hsender hch
      cases hs
      have hsends := h.sends (by rw [hsender]; rfl)
      rw [hsender, hch] at hsends
      refine ⟨fun _ => hsends, h.recvs, fun hg => h.left (hg.imp_left fun hg => ?_)⟩
      cases hg
    · cases hs
  | sendWrite err => exact h.sendWrite hs
  | sendQuit =>
    simp only [State.next, State.sendQuit] at hs
    split at hs
    · split at hs
      · cases hs
        refine ⟨fun hstays => absurd hstays Bool.false_ne_true, h.recvs, fun hg => h.left (hg.imp_left fun hg => ?_)⟩
        cases hg
      · cases hs
    · cases hs
  | sendDefer =>
    simp only [State.next, State.sendDefer] at hs
    split at hs
    · split at hs
      · cases hs
      · cases hs
        exact
          { sends := fun hstays => absurd hstays Bool.false_ne_true
            recvs := fun hstays j hj => h.recvs hstays j (start_other (.closing .lock) hj (by rintro ⟨⟩))
            left := fun _ => .inr ⟨s.calls.length, .lock, List.getElem?_concat_length, by rintro ⟨⟩⟩ }
    · cases hs
  | recvTake =>
    simp only [State.next, State.recvTake] at hs
    split at hs
    · rename_i i rest hreceiver hch
      cases hs
      have hrecvs := h.recvs (by rw [hreceiver]; rfl)
      rw [hreceiver, hch] at hrecvs
      refine ⟨h.sends, fun _ => hrecvs, fun hg => h.left (hg.imp_right fun hg => ?_)⟩
      cases hg
    · cases hs
  | recvRead res => exact h.recvRead hs
  | recvQuit =>
    simp only [State.next, State.recvQuit] at hs
    split at hs
    · split at hs
      · cases hs
        refine ⟨h.sends, fun hstays => absurd hstays Bool.false_ne_true, fun hg => h.left (hg.imp_right fun hg => ?_)⟩
        cases hg
      · cases hs
    · cases hs
  | recvDefer =>
    simp only [State.next, State.recvDefer] at hs
    split at hs
    · split at hs
      · cases hs
      · cases hs
        exact
          { sends := fun hstays j envelope hj => h.sends hstays j envelope (start_other (.closing .lock) hj (by rintro ⟨⟩))
            recvs := fun hstays => absurd hstays Bool.false_ne_true
            left := fun _ => .inr ⟨s.calls.length, .lock, List.getElem?_concat_length, by rintro ⟨⟩⟩ }
    · cases hs

theorem waits_run (es : List (Event E)) :
    Inv (Machine.run State.step newPeer es) ∧ Waits (Machine.run (State.step (E := E)) newPeer es) := by
  refine Machine.run_keeps (fun s => Inv s ∧ Waits s) (fun s e h => ?_) es newPeer ⟨inv_newPeer, waits_newPeer⟩
  refine ⟨h.1.step e, ?_⟩
  unfold State.step
  cases hs : s.next e with
  | none => exact h.2
  | some s' => exact h.2.next h.1 hs

/-! ## Nothing left to do -/

/-- Nothing can happen but new calls and the end of a context. -/
def Quiet (s : State E) : Prop := ∀ e : Event E, e.isCall = false → e.isCtx = false → s.next e = none

section Quiet

variable {s : State E}

theorem Quiet.sender (h : Quiet s) (hinv : Inv s) : (s.sender = .loop ∧ s.sendCh = [] ∧ s.closed = false) ∨ s.sender = .gone := by
  cases hsender : s.sender with
  | gone => exact .inr rfl
  | writing i envelope =>
    have hw := h (.sendWrite (some .eof)) rfl rfl
    simp only [State.next, State.sendWrite, hsender] at hw
    cases hw
  | exiting =>
    have hdone : s.sendDone = false := Bool.eq_false_iff.mpr fun hd => by rw [hinv.sendToken hd] at hsender; cases hsender
    have hdefer := h .sendDefer rfl rfl
    simp only [State.next, State.sendDefer, hsender, hdone] at hdefer
    cases hdefer
  | loop =>
    refine .inl ⟨rfl, ?_, Bool.eq_false_iff.mpr fun hclosed => ?_⟩
    · cases hch : s.sendCh with
      | nil => rfl
      | cons q rest =>
        have htake := h .sendTake rfl rfl
        simp only [State.next, State.sendTake, hsender, hch] at htake
        cases htake
    · have hquit := h .sendQuit rfl rfl
      simp only [State.next, State.sendQuit, hsender, hclosed] at hquit
      cases hquit

theorem Quiet.receiver (h : Quiet s) (hinv : Inv s) :
    (s.receiver = .loop ∧ s.recvCh = [] ∧ s.closed = false) ∨ s.receiver = .gone := by
  cases hreceiver : s.receiver with
  | gone => exact .inr rfl
  | reading i =>
    have hr := h (.recvRead (.error .eof)) rfl rfl
    simp only [State.next, State.recvRead, hreceiver] at hr
    cases hr
  | exiting =>
    have hdone : s.recvDone = false := Bool.eq_false_iff.mpr fun hd => by rw [hinv.recvToken hd] at hreceiver; cases hreceiver
    have hdefer := h .recvDefer rfl rfl
    simp only [State.next, State.recvDefer, hreceiver, hdone] at hdefer
    cases hdefer
  | loop =>
    refine .inl ⟨rfl, ?_, Bool.eq_false_iff.mpr fun hclosed => ?_⟩
    · cases hch : s.recvCh with
      | nil => rfl
      | cons i rest =>
        have htake := h .recvTake rfl rfl
        simp only [State.next, State.recvTake, hreceiver, hch] at htake
        cases htake
    · have hquit := h .recvQuit rfl rfl
      simp only [State.next, State.recvQuit, hreceiver, hclosed] at hquit
      cases hquit

/-- The holder of the lock waits for a goroutine that is in its loop, and which therefore sees the
    channel closed; so nobody holds it. -/
theorem Quiet.unlocked (h : Quiet s) (hinv : Inv s) : s.closeMu = none := by
  cases hmu : s.closeMu with
  | none => rfl
  | some i =>
    exfalso
    obtain ⟨p, hi, hat⟩ := hinv.holder i hmu
    have hstep : s.closeStep i = none := h (.closeStep i) rfl rfl
    unfold State.closeStep at hstep
    rw [hi] at hstep
    cases p with
    | lock | returned => exact hat
    | check =>
      dsimp only at hstep
      split at hstep
      · cases hstep
      · cases hstep
    | reason | conn | chan => cases hstep
    | waitRecv =>
      obtain ⟨hclosed, hdone, -⟩ := hat
      rcases h.receiver hinv with ⟨-, -, hopen⟩ | hgone
      · rw [hclosed] at hopen
        cases hopen
      · dsimp only at hstep
        rw [if_pos (hdone hgone)] at hstep
        cases hstep
    | waitSend =>
      obtain ⟨hclosed, hdone⟩ := hat
      rcases h.sender hinv with ⟨-, -, hopen⟩ | hgone
      · rw [hclosed] at hopen
        cases hopen
      · dsimp only at hstep
        rw [if_pos (hdone hgone)] at hstep
        cases hstep

theorem Quiet.closings (h : Quiet s) (hinv : Inv s) {i : Nat} {p : Closing} (hi : s.calls[i]? = some (.closing p)) :
    p = .returned := by
  have hmu := h.unlocked hinv
  by_cases hholds : p.holds = true
  · rw [hinv.locked i p hi hholds] at hmu
    cases hmu
  · cases p with
    | returned => rfl
    | lock =>
      have hstep : s.closeStep i = none := h (.closeStep i) rfl rfl
      simp only [State.closeStep, hi, hmu] at hstep
      cases hstep
    | _ => exact absurd rfl hholds

theorem Quiet.closed_of_gone (h : Quiet s) (hinv : Inv s) (hw : Waits s) (hgone : s.sender = .gone ∨ s.receiver = .gone) :
    s.closed = true := by
  rcases hw.left hgone with hclosed | ⟨i, p, hi, hp⟩
  · exact hclosed
  · exact absurd (h.closings hinv hi) hp

theorem Quiet.local_ (h : Quiet s) {i : Nat} {c : Call E} (hi : s.calls[i]? = some c) (choice : Choice)
    (hchoice : choice ≠ .ctxDone) : Call.next s.closed s.closeReason choice c = none := by
  have hctx : (Event.local_ (E := E) i choice).isCtx = false := by
    cases choice with
    | ctxDone => exact absurd rfl hchoice
    | go | timer | sawClosed => rfl
  have hnext := h (.local_ i choice) rfl hctx
  simp only [State.next, hi, Option.bind_some, Option.map_eq_none_iff] at hnext
  exact hnext

theorem Quiet.returned (h : Quiet s) (hinv : Inv s) (hw : Waits s) {i : Nat} {c : Call E} (hi : s.calls[i]? = some c) :
    c.returned = true := by
  have hgo := h.local_ hi .go (by rintro ⟨⟩)
  cases c with
  | sent | received => rfl
  | closing p => rw [h.closings hinv hi]; rfl
  | sendEntry | sendClosed | recvEntry | recvClosed => cases hgo
  | sendBuffer envelope retries => cases h.local_ hi .timer (by rintro ⟨⟩)
  | recvPush =>
    have hpush := h (.recvPush i) rfl rfl
    simp only [State.next, State.recvPush, hi] at hpush
    split at hpush <;> cases hpush
  | sendWait envelope errCh =>
    cases errCh with
    | some err => cases hgo
    | none =>
      rcases h.sender hinv with ⟨hloop, hch, -⟩ | hgone
      · have hmem := hw.sends (by rw [hloop]; rfl) i envelope hi
        rw [hloop, hch] at hmem
        cases hmem
      · have hsaw := h.local_ hi .sawClosed (by rintro ⟨⟩)
        rw [h.closed_of_gone hinv hw (.inl hgone)] at hsaw
        cases hsaw
  | recvWait ch =>
    cases ch with
    | some res => cases res <;> cases hgo
    | none =>
      rcases h.receiver hinv with ⟨hloop, hch, -⟩ | hgone
      · have hmem := hw.recvs (by rw [hloop]; rfl) i hi
        rw [hloop, hch] at hmem
        cases hmem
      · have hsaw := h.local_ hi .sawClosed (by rintro ⟨⟩)
        rw [h.closed_of_gone hinv hw (.inr hgone)] at hsaw
        cases hsaw

theorem Quiet.goroutines (h : Quiet s) (hinv : Inv s) (hw : Waits s) :
    (s.closed = false ∧ s.sender = .loop ∧ s.receiver = .loop) ∨ (s.closed = true ∧ s.sender = .gone ∧ s.receiver = .gone) := by
  rcases h.sender hinv with ⟨hsend, -, hopen⟩ | hsend
  · rcases h.receiver hinv with ⟨hrecv, -, -⟩ | hrecv
    · exact .inl ⟨hopen, hsend, hrecv⟩
    · rw [h.closed_of_gone hinv hw (.inr hrecv)] at hopen
      cases hopen
  · have hclosed := h.closed_of_gone hinv hw (.inl hsend)
    rcases h.receiver hinv with ⟨-, -, hopen⟩ | hrecv
    · rw [hclosed] at hopen
      cases hopen
    · exact .inr ⟨hclosed, hsend, hrecv⟩

end Quiet

/-- The event is not a call, and it can happen. -/
def Goes (s : State E) (e : Event E) : Prop := e.isCall = false ∧ (s.next e).isSome

instance (s : State E) (e : Event E) : Decidable (Goes s e) := inferInstanceAs (Decidable (_ ∧ _))

/-- After any interleaving: whatever happens without new calls ends after at most `weight` steps;
    and when nothing is left to happen, every call has returned, and the goroutines are both in
    their loops or, the connection being closed, both gone. -/
theorem calls_return (es : List (Event E)) :
    let s := Machine.run State.step newPeer es
    (∀ more, Machine.Along State.step Goes s more → more.length ≤ s.weight) ∧
    (Quiet s → (∀ c ∈ s.calls, c.returned = true) ∧
      ((s.closed = false ∧ s.sender = .loop ∧ s.receiver = .loop) ∨
        (s.closed = true ∧ s.sender = .gone ∧ s.receiver = .gone))) := by
  intro s
  obtain ⟨hinv, hw⟩ := waits_run es
  refine ⟨fun more hmore => ?_, fun hquiet => ⟨fun c hc => ?_, hquiet.goroutines hinv hw⟩⟩
  · refine Nat.le_trans (Nat.le_add_right _ _) (Machine.length_le_of_lowers (fun s e he => ?_) more _ hmore)
    obtain ⟨s', hs'⟩ := Option.isSome_iff_exists.mp he.2
    rw [State.step, hs', Option.getD_some]
    exact weight_next he.1 hs'
  · obtain ⟨i, hi⟩ := List.mem_iff_getElem?.mp hc
    exact hquiet.returned hinv hw hi

/-! ## A close during a read -/

/-- `ReceiveCtx` waits for the connection, a second call for its turn; then `Close` is called. -/
def twoWaitForARead : List (Event Nat) :=
  [.receiveCtx, .receiveCtx, .local_ 0 .go, .local_ 1 .go, .recvPush 0, .recvPush 1, .recvTake, .close]

def closeThem : List (Event Nat) :=
  [.closeStep 2, .closeStep 2, .closeStep 2, .closeStep 2, .closeStep 2, .recvRead (.error .eof), .recvDefer, .sendQuit,
    .sendDefer, .closeStep 2, .closeStep 2, .closeStep 3, .closeStep 3, .closeStep 4, .closeStep 4, .local_ 0 .go,
    .local_ 1 .sawClosed, .local_ 1 .go]

/-- Both calls get the reason of `Close`, not the error of the read, and the three calls of `Close`
    return. -/
theorem a_close_during_a_read_returns :
    (Machine.run State.step newPeer twoWaitForARead).weight = 39 ∧ closeThem.length ≤ 39 ∧
    (Machine.run State.step newPeer (twoWaitForARead ++ closeThem)).closeReason = some .peerClosed ∧
    (Machine.run State.step newPeer (twoWaitForARead ++ closeThem)).calls.map Call.returned = [true, true, true, true, true] :=
  ⟨by decide, (calls_return twoWaitForARead).1 closeThem (by decide), by decide, by decide⟩

end Fnd.P2p.PeerImpl

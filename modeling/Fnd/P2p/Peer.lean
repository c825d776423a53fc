/-
  Fnd.P2p.Peer — a connection's calls and goroutines (`p2p/peer.go`).

  `SendCtx`, `ReceiveCtx` and `Close` may be called any number of times and from anywhere; the
  goroutines `send` and `recv` serve the requests, and on an error or a close they leave a token
  and call `Close` themselves. A step is one channel operation, one section under a mutex, one read
  or write of the connection; the steps of all calls and of the two goroutines interleave in any
  order. A read or write may fail at any time; a write fails once the connection is closed, while
  a read may still be served by the buffer.

  (1) A call tells the truth (`calls_tell_the_truth`). `SendCtx` returns nil only for an envelope
  that was written; envelopes are written in the order in which they were queued, each once and
  none after one that failed. The k-th request to receive gets the k-th envelope, and no other.
  A call that fails does so with a full queue, with its context, or with the close reason; no call
  returns neither an envelope nor an error.

  (2) The close reason is set once, before the channel is closed, and stays (`reason_stays`);
  the channel is closed at most once, so `Close` does not panic.

  The rate limiter does not show: `Reserve` is for one event, below the burst, and so is always
  granted, and only one that is not granted would wait.
-/

import Mathlib.Data.List.Nodup
import Fnd.Lib.Machine

namespace Fnd.P2p.PeerImpl

inductive Err where
  /-- `ErrPeerClosed` -/
  | peerClosed
  /-- `ErrPeerHangup` -/
  | peerHangup
  | sendBufferFull
  | recvBufferFull
  /-- `ctx.Err()` -/
  | ctx
  | eof
  /-- any other error of the connection or of the codec -/
  | io (code : Nat)
  deriving DecidableEq, Repr

/-- How far a call of `Close` is: what it does next. -/
inductive Closing where
  | lock
  | check
  | reason
  | conn
  | chan
  | waitRecv
  | waitSend
  | returned
  deriving DecidableEq, Repr

/-- Between `Lock` and `Unlock`. -/
def Closing.holds : Closing → Bool
  | .lock | .returned => false
  | _ => true

/-- How far a call is. A waiting call has its request's channel, `none` while that is empty. An
    error that is `none` is nil. -/
inductive Call (E : Type) where
  | sendEntry (envelope : E)
  | sendBuffer (envelope : E) (retries : Nat)
  | sendWait (envelope : E) (errCh : Option (Option Err))
  /-- `closeCh` was closed; `CloseReason` is next -/
  | sendClosed (envelope : E)
  | sent (envelope : E) (err : Option Err)
  | recvEntry
  | recvPush
  | recvWait (ch : Option (Except Err E))
  | recvClosed
  | received (res : Except (Option Err) E)
  | closing (at_ : Closing)

inductive Sender (E : Type) where
  | loop
  | writing (call : Nat) (envelope : E)
  /-- returned, its deferred function is next -/
  | exiting
  | gone
  deriving DecidableEq

inductive Receiver where
  | loop
  | reading (call : Nat)
  | exiting
  | gone
  deriving DecidableEq

/-- Calls have their place in `calls`. The last four fields are history: the requests in the order
    in which they were queued, the envelopes written and those read. -/
structure State (E : Type) where
  calls : List (Call E)
  closeMu : Option Nat
  closed : Bool
  connClosed : Bool
  closeReason : Option Err
  sendCh : List (Nat × E)
  recvCh : List Nat
  sender : Sender E
  receiver : Receiver
  sendDone : Bool
  recvDone : Bool
  /-- `close` of a closed channel -/
  panicked : Bool
  queued : List (Nat × E)
  written : List (Nat × E)
  asked : List Nat
  decoded : List E

variable {E : Type}

def newPeer : State E := ⟨[], none, false, false, none, [], [], .loop, .loop, false, false, false, [], [], [], []⟩

/-- Which case of a `select` goes on. -/
inductive Choice where
  | go
  | timer
  | ctxDone
  | sawClosed
  deriving DecidableEq, Repr

inductive Event (E : Type) where
  | sendCtx (envelope : E)
  | receiveCtx
  | close
  /-- a step of a call that changes nothing else -/
  | local_ (call : Nat) (choice : Choice)
  /-- `p.sendCh <- req` -/
  | sendPush (call : Nat)
  /-- `p.recvCh <- req`, or its default -/
  | recvPush (call : Nat)
  | closeStep (call : Nat)
  | sendTake
  | sendWrite (err : Option Err)
  /-- `send` finds `closeCh` closed -/
  | sendQuit
  /-- the deferred function of `send` -/
  | sendDefer
  | recvTake
  | recvRead (res : Except Err E)
  | recvQuit
  | recvDefer

def chanCap : Nat := 128

def maxRetries : Nat := 10

/-- `setCloseReason` of an error. -/
def setCloseReason (closeReason : Option Err) (err : Err) : Err :=
  closeReason.getD (if err = .eof then .peerHangup else err)

/-- The steps of a call that read `closeCh`, the close reason or its own channel. -/
def Call.next (closed : Bool) (closeReason : Option Err) : Choice → Call E → Option (Call E)
  | .go, .sendEntry envelope => some (if closed then .sendClosed envelope else .sendBuffer envelope 0)
  | .timer, .sendBuffer envelope retries =>
    some (if maxRetries ≤ retries then .sent envelope (some .sendBufferFull) else .sendBuffer envelope (retries + 1))
  | .ctxDone, .sendBuffer envelope _ => some (.sent envelope (some .ctx))
  | .go, .sendWait envelope (some err) => some (.sent envelope err)
  | .ctxDone, .sendWait envelope _ => some (.sent envelope (some .ctx))
  | .sawClosed, .sendWait envelope _ => if closed then some (.sendClosed envelope) else none
  | .go, .sendClosed envelope => some (.sent envelope closeReason)
  | .go, .recvEntry => some (if closed then .recvClosed else .recvPush)
  | .go, .recvWait (some (.ok envelope)) => some (.received (.ok envelope))
  | .go, .recvWait (some (.error err)) => some (.received (.error (some err)))
  | .ctxDone, .recvWait _ => some (.received (.error (some .ctx)))
  | .sawClosed, .recvWait _ => if closed then some .recvClosed else none
  | .go, .recvClosed => some (.received (.error closeReason))
  | _, _ => none

namespace State

def start (s : State E) (c : Call E) : State E := { s with calls := s.calls ++ [c] }

def put (s : State E) (i : Nat) (c : Call E) : State E := { s with calls := s.calls.set i c }

/-- `sendReq.errCh <- err`, which nobody reads if the call has returned. -/
def deliverErr (s : State E) (i : Nat) (err : Option Err) : State E :=
  match s.calls[i]? with
  | some (.sendWait envelope none) => s.put i (.sendWait envelope (some err))
  | _ => s

/-- `recvReq.envelopeCh <- envelope` and `recvReq.errCh <- err`. -/
def deliver (s : State E) (i : Nat) (res : Except Err E) : State E :=
  match s.calls[i]? with
  | some (.recvWait none) => s.put i (.recvWait (some res))
  | _ => s

def sendPush (s : State E) (i : Nat) : Option (State E) :=
  match s.calls[i]? with
  | some (.sendBuffer envelope _) =>
    if s.sendCh.length < chanCap then
      some { s.put i (.sendWait envelope none) with
        sendCh := s.sendCh ++ [(i, envelope)]
        queued := s.queued ++ [(i, envelope)] }
    else none
  | _ => none

def recvPush (s : State E) (i : Nat) : Option (State E) :=
  match s.calls[i]? with
  | some .recvPush =>
    if s.recvCh.length < chanCap then
      some { s.put i (.recvWait none) with recvCh := s.recvCh ++ [i], asked := s.asked ++ [i] }
    else some (s.put i (.received (.error (some .recvBufferFull))))
  | _ => none

/-- `Close`, one step after another. -/
def closeStep (s : State E) (i : Nat) : Option (State E) :=
  match s.calls[i]? with
  | some (.closing .lock) =>
    if s.closeMu = none then some { s.put i (.closing .check) with closeMu := some i } else none
  | some (.closing .check) =>
    if s.closed then some { s.put i (.closing .returned) with closeMu := none }
    else some (s.put i (.closing .reason))
  | some (.closing .reason) =>
    some { s.put i (.closing .conn) with closeReason := some (s.closeReason.getD .peerClosed) }
  | some (.closing .conn) => some { s.put i (.closing .chan) with connClosed := true }
  | some (.closing .chan) =>
    some { s.put i (.closing .waitRecv) with closed := true, panicked := s.panicked || s.closed }
  | some (.closing .waitRecv) =>
    if s.recvDone then some { s.put i (.closing .waitSend) with recvDone := false } else none
  | some (.closing .waitSend) =>
    if s.sendDone then some { s.put i (.closing .returned) with sendDone := false, closeMu := none } else none
  | _ => none

def sendTake (s : State E) : Option (State E) :=
  match s.sender, s.sendCh with
  | .loop, (i, envelope) :: rest => some { s with sender := .writing i envelope, sendCh := rest }
  | _, _ => none

def sendWrite (s : State E) (err : Option Err) : Option (State E) :=
  match s.sender, err with
  | .writing i envelope, none =>
    if s.connClosed then none
    else some ({ s with sender := .loop, written := s.written ++ [(i, envelope)] }.deliverErr i none)
  | .writing i _, some err =>
    let reason := setCloseReason s.closeReason err
    some ({ s with sender := .exiting, closeReason := some reason }.deliverErr i (some reason))
  | _, _ => none

def sendQuit (s : State E) : Option (State E) :=
  match s.sender with
  | .loop => if s.closed then some { s with sender := .exiting } else none
  | _ => none

def sendDefer (s : State E) : Option (State E) :=
  match s.sender with
  | .exiting => if s.sendDone then none else some ({ s with sender := .gone, sendDone := true }.start (.closing .lock))
  | _ => none

def recvTake (s : State E) : Option (State E) :=
  match s.receiver, s.recvCh with
  | .loop, i :: rest => some { s with receiver := .reading i, recvCh := rest }
  | _, _ => none

def recvRead (s : State E) (res : Except Err E) : Option (State E) :=
  match s.receiver, res with
  | .reading i, .ok envelope =>
    some ({ s with receiver := .loop, decoded := s.decoded ++ [envelope] }.deliver i (.ok envelope))
  | .reading i, .error err =>
    let reason := setCloseReason s.closeReason err
    some ({ s with receiver := .exiting, closeReason := some reason }.deliver i (.error reason))
  | _, _ => none

def recvQuit (s : State E) : Option (State E) :=
  match s.receiver with
  | .loop => if s.closed then some { s with receiver := .exiting } else none
  | _ => none

def recvDefer (s : State E) : Option (State E) :=
  match s.receiver with
  | .exiting => if s.recvDone then none else some ({ s with receiver := .gone, recvDone := true }.start (.closing .lock))
  | _ => none

/-- The state after an event, `none` where it cannot happen. -/
def next (s : State E) : Event E → Option (State E)
  | .sendCtx envelope => some (s.start (.sendEntry envelope))
  | .receiveCtx => some (s.start .recvEntry)
  | .close => some (s.start (.closing .lock))
  | .local_ i choice => (s.calls[i]?.bind (Call.next s.closed s.closeReason choice)).map (s.put i)
  | .sendPush i => s.sendPush i
  | .recvPush i => s.recvPush i
  | .closeStep i => s.closeStep i
  | .sendTake => s.sendTake
  | .sendWrite err => s.sendWrite err
  | .sendQuit => s.sendQuit
  | .sendDefer => s.sendDefer
  | .recvTake => s.recvTake
  | .recvRead res => s.recvRead res
  | .recvQuit => s.recvQuit
  | .recvDefer => s.recvDefer

def step (s : State E) (e : Event E) : State E := (s.next e).getD s

end State

open State

/-! ## What is known of a call -/

/-- The call's request was queued with this envelope, or it has returned. -/
def Call.Queued (envelope : E) : Call E → Prop
  | .sendWait envelope' _ | .sendClosed envelope' | .sent envelope' _ => envelope' = envelope
  | _ => False

def Call.Asked : Call E → Prop
  | .recvWait _ | .recvClosed | .received _ => True
  | _ => False

def Call.isClosing : Call E → Bool
  | .closing _ => true
  | _ => false

/-- The request of call `i` and the envelope have the same place in their orders. -/
def Got (s : State E) (i : Nat) (envelope : E) : Prop := ∃ k : Nat, s.asked[k]? = some i ∧ s.decoded[k]? = some envelope

def CallOk (s : State E) (i : Nat) : Call E → Prop
  | .sendWait envelope (some none) => (i, envelope) ∈ s.written
  | .sendWait _ (some (some err)) => s.closeReason = some err
  | .sendClosed _ => s.closed = true
  | .sent envelope none => (i, envelope) ∈ s.written
  | .sent _ (some err) => err = .sendBufferFull ∨ err = .ctx ∨ s.closeReason = some err
  | .recvWait (some (.ok envelope)) => Got s i envelope
  | .recvWait (some (.error err)) => s.closeReason = some err
  | .recvClosed => s.closed = true
  | .received (.ok envelope) => Got s i envelope
  | .received (.error none) => False
  | .received (.error (some err)) => err = .recvBufferFull ∨ err = .ctx ∨ s.closeReason = some err
  | .closing .returned => s.closed = true
  | _ => True

/-- What the call that holds `closeMu` knows. -/
def HeldAt (s : State E) : Closing → Prop
  | .check => True
  | .reason => s.closed = false
  | .conn => s.closed = false ∧ s.closeReason.isSome
  | .chan => s.closed = false ∧ s.closeReason.isSome ∧ s.connClosed = true
  | .waitRecv => s.closed = true ∧ (s.receiver = .gone → s.recvDone = true) ∧ (s.sender = .gone → s.sendDone = true)
  | .waitSend => s.closed = true ∧ (s.sender = .gone → s.sendDone = true)
  | _ => False

/-- The request that `send` has taken. -/
def InHand : Sender E → List (Nat × E) → Prop
  | .loop, hand => hand = []
  | .writing i envelope, hand => hand = [(i, envelope)]
  | _, _ => True

/-- The requests that `recv` has taken, against the envelopes. -/
def Served (decoded : List E) : Receiver → List Nat → Prop
  | .loop, served => served.length = decoded.length
  | .reading i, served => ∃ before, served = before ++ [i] ∧ before.length = decoded.length
  | _, _ => True

structure Inv (s : State E) : Prop where
  calm : s.panicked = false
  conn : s.closed = true → s.connClosed = true
  reason : s.connClosed = true → s.closeReason.isSome
  ok : ∀ i c, s.calls[i]? = some c → CallOk s i c
  locked : ∀ i p, s.calls[i]? = some (.closing p) → p.holds = true → s.closeMu = some i
  holder : ∀ i, s.closeMu = some i → ∃ p, s.calls[i]? = some (.closing p) ∧ HeldAt s p
  sendToken : s.sendDone = true → s.sender = .gone
  recvToken : s.recvDone = true → s.receiver = .gone
  sendOpen : s.closed = false → s.sender = .gone → s.sendDone = true
  recvOpen : s.closed = false → s.receiver = .gone → s.recvDone = true
  queued : ∀ q ∈ s.queued, ∃ c, s.calls[q.1]? = some c ∧ c.Queued q.2
  queuedOnce : (s.queued.map Prod.fst).Nodup
  asked : ∀ i ∈ s.asked, ∃ c, s.calls[i]? = some c ∧ c.Asked
  askedOnce : s.asked.Nodup
  sends : ∃ hand, s.queued = s.written ++ (hand ++ s.sendCh) ∧ InHand s.sender hand
  recvs : ∃ served, s.asked = served ++ s.recvCh ∧ Served s.decoded s.receiver served

theorem inv_newPeer : Inv (newPeer : State E) where
  calm := rfl
  conn h := nomatch h
  reason h := nomatch h
  ok i c h := by cases h
  locked i p h := by cases h
  holder i h := nomatch h
  sendToken h := nomatch h
  recvToken h := nomatch h
  sendOpen _ h := nomatch h
  recvOpen _ h := nomatch h
  queued q h := nomatch h
  queuedOnce := List.nodup_nil
  asked i h := nomatch h
  askedOnce := List.nodup_nil
  sends := ⟨[], rfl, rfl⟩
  recvs := ⟨[], rfl, rfl⟩

/-- Nothing that a call knows is taken back. -/
structure Later (s s' : State E) : Prop where
  closed : s.closed = true → s'.closed = true
  reason : ∀ {r}, s.closeReason = some r → s'.closeReason = some r
  written : ∀ {q}, q ∈ s.written → q ∈ s'.written
  asked : s.asked <+: s'.asked
  decoded : s.decoded <+: s'.decoded

theorem Later.refl {s s' : State E} (hclosed : s'.closed = s.closed) (hreason : s'.closeReason = s.closeReason)
    (hwritten : s'.written = s.written) (hasked : s'.asked = s.asked) (hdecoded : s'.decoded = s.decoded) : Later s s' :=
  ⟨fun h => hclosed ▸ h, fun h => hreason ▸ h, fun h => hwritten ▸ h, hasked ▸ List.prefix_rfl, hdecoded ▸ List.prefix_rfl⟩

theorem Later.got {s s' : State E} (h : Later s s') {i : Nat} {envelope : E} (hgot : Got s i envelope) : Got s' i envelope := by
  obtain ⟨k, hask, hdec⟩ := hgot
  have hkeep {α : Type} {l l' : List α} (hl : l <+: l') {a : α} (ha : l[k]? = some a) : l'[k]? = some a := by
    obtain ⟨t, rfl⟩ := hl
    rw [List.getElem?_append_left (List.getElem?_eq_some_iff.mp ha).1, ha]
  exact ⟨k, hkeep h.asked hask, hkeep h.decoded hdec⟩

theorem CallOk.later {s s' : State E} (h : Later s s') {i : Nat} {c : Call E} (hc : CallOk s i c) : CallOk s' i c := by
  unfold CallOk at hc ⊢
  split at hc
  · exact h.written hc
  · exact h.reason hc
  · exact h.closed hc
  · exact h.written hc
  · exact hc.imp_right (Or.imp_right h.reason)
  · exact h.got hc
  · exact h.reason hc
  · exact h.closed hc
  · exact h.got hc
  · exact hc
  · exact hc.imp_right (Or.imp_right h.reason)
  · exact h.closed hc
  · trivial

/-! ## Steps of calls -/

theorem getElem?_put {s : State E} {i : Nat} {c : Call E} (c' : Call E) (hi : s.calls[i]? = some c) (j : Nat) :
    (s.put i c').calls[j]? = if j = i then some c' else s.calls[j]? := by
  have hlt : i < s.calls.length := (List.getElem?_eq_some_iff.mp hi).1
  rw [State.put, List.getElem?_set]
  by_cases hij : i = j
  · rw [if_pos hij, if_pos hij.symm, if_pos hlt]
  · rw [if_neg hij, if_neg (Ne.symm hij)]

theorem Inv.closed_reason {s : State E} (h : Inv s) (hclosed : s.closed = true) : ∃ r, s.closeReason = some r :=
  Option.isSome_iff_exists.mp (h.reason (h.conn hclosed))

/-- A call that is not a `Close` moves on, in a state that is otherwise the same. -/
theorem Inv.put {s : State E} (h : Inv s) {i : Nat} {c : Call E} (c' : Call E) (hi : s.calls[i]? = some c)
    (hc : c.isClosing = false)
    (hc' : c'.isClosing = false) (hok : CallOk s i c') (hq : ∀ envelope, c.Queued envelope → c'.Queued envelope)
    (ha : c.Asked → c'.Asked) : Inv (s.put i c') := by
  have hget := getElem?_put c' hi
  have hput : ∀ {j : Nat} {p : Closing}, (s.put i c').calls[j]? = some (.closing p) → s.calls[j]? = some (.closing p) := by
    intro j p hj
    rw [hget] at hj
    split at hj
    · cases hj; cases hc'
    · exact hj
  refine { h with ok := fun j d hj => ?_, locked := fun j p hj => h.locked j p (hput hj), holder := fun j hj => ?_,
                  queued := fun q hmem => ?_, asked := fun j hmem => ?_ }
  · refine CallOk.later (s := s) (Later.refl rfl rfl rfl rfl rfl) ?_
    rw [hget] at hj
    split at hj
    · rename_i hji
      cases hj
      rwa [hji]
    · exact h.ok j d hj
  · obtain ⟨p, hp, hheld⟩ := h.holder j hj
    refine ⟨p, ?_, hheld⟩
    rw [hget, if_neg fun hji => ?_]
    · exact hp
    · rw [hji, hi] at hp
      cases hp
      cases hc
  · obtain ⟨d, hd, hdq⟩ := h.queued q hmem
    rw [hget]
    split
    · rename_i hqi
      rw [hqi, hi] at hd
      cases hd
      exact ⟨c', rfl, hq _ hdq⟩
    · exact ⟨d, hd, hdq⟩
  · obtain ⟨d, hd, hda⟩ := h.asked j hmem
    rw [hget]
    split
    · rename_i hji
      rw [hji, hi] at hd
      cases hd
      exact ⟨c', rfl, ha hda⟩
    · exact ⟨d, hd, hda⟩

structure Moves (s : State E) (i : Nat) (c c' : Call E) : Prop where
  before : c.isClosing = false
  after : c'.isClosing = false
  ok : CallOk s i c'
  queued : ∀ envelope, c.Queued envelope → c'.Queued envelope
  asked : c.Asked → c'.Asked

theorem Inv.moves {s : State E} (h : Inv s) {i : Nat} {c c' : Call E} {choice : Choice} (hc : CallOk s i c)
    (hnext : Call.next s.closed s.closeReason choice c = some c') : Moves s i c c' := by
  unfold Call.next at hnext
  split at hnext
  · -- sendEntry
    cases hclosed : s.closed with
    | false => rw [hclosed] at hnext; cases hnext; exact ⟨rfl, rfl, trivial, fun _ => False.elim, False.elim⟩
    | true => rw [hclosed] at hnext; cases hnext; exact ⟨rfl, rfl, hclosed, fun _ => False.elim, False.elim⟩
  · -- sendBuffer, its timer
    cases hnext
    split
    · exact ⟨rfl, rfl, .inl rfl, fun _ => False.elim, False.elim⟩
    · exact ⟨rfl, rfl, trivial, fun _ => False.elim, False.elim⟩
  · cases hnext; exact ⟨rfl, rfl, .inr (.inl rfl), fun _ => False.elim, False.elim⟩
  · -- sendWait, its error
    rename_i err
    cases hnext
    refine ⟨rfl, rfl, ?_, fun _ hq => hq, False.elim⟩
    cases err with
    | none => exact hc
    | some err => exact .inr (.inr hc)
  · cases hnext; exact ⟨rfl, rfl, .inr (.inl rfl), fun _ hq => hq, False.elim⟩
  · split at hnext
    · cases hnext; exact ⟨rfl, rfl, ‹_›, fun _ hq => hq, False.elim⟩
    · cases hnext
  · -- sendClosed: the reason is set
    cases hnext
    obtain ⟨r, hr⟩ := h.closed_reason hc
    rw [hr]
    exact ⟨rfl, rfl, .inr (.inr hr), fun _ hq => hq, False.elim⟩
  · cases hclosed : s.closed with
    | false => rw [hclosed] at hnext; cases hnext; exact ⟨rfl, rfl, trivial, fun _ => False.elim, False.elim⟩
    | true => rw [hclosed] at hnext; cases hnext; exact ⟨rfl, rfl, hclosed, fun _ => False.elim, False.elim⟩
  · cases hnext; exact ⟨rfl, rfl, hc, fun _ => False.elim, fun ha => ha⟩
  · cases hnext; exact ⟨rfl, rfl, .inr (.inr hc), fun _ => False.elim, fun ha => ha⟩
  · cases hnext; exact ⟨rfl, rfl, .inr (.inl rfl), fun _ => False.elim, fun ha => ha⟩
  · split at hnext
    · cases hnext; exact ⟨rfl, rfl, ‹_›, fun _ => False.elim, fun ha => ha⟩
    · cases hnext
  · cases hnext
    obtain ⟨r, hr⟩ := h.closed_reason hc
    rw [hr]
    exact ⟨rfl, rfl, .inr (.inr hr), fun _ => False.elim, fun ha => ha⟩
  · cases hnext

theorem Inv.local_ {s s' : State E} (h : Inv s) {i : Nat} {choice : Choice} (hs : s.next (.local_ i choice) = some s') :
    Inv s' := by
  simp only [State.next, Option.map_eq_some_iff, Option.bind_eq_some_iff] at hs
  obtain ⟨c', ⟨c, hi, hnext⟩, rfl⟩ := hs
  have hm := h.moves (h.ok i c hi) hnext
  exact h.put _ hi hm.before hm.after hm.ok hm.queued hm.asked

theorem Inv.start {s : State E} (h : Inv s) {c : Call E} (hc : CallOk s s.calls.length c)
    (hholds : ∀ p, c = .closing p → p.holds = false) : Inv (s.start c) := by
  have hold : ∀ {j : Nat} {d : Call E}, s.calls[j]? = some d → (s.start c).calls[j]? = some d := by
    intro j d hj
    rw [State.start, List.getElem?_append_left (List.getElem?_eq_some_iff.mp hj).1, hj]
  have hnew : ∀ {j : Nat} {d : Call E}, (s.start c).calls[j]? = some d → s.calls[j]? = some d ∨ (j = s.calls.length ∧ d = c) := by
    intro j d hj
    rw [State.start, List.getElem?_append] at hj
    split at hj
    · exact .inl hj
    · obtain ⟨hlt, hd⟩ := List.getElem?_eq_some_iff.mp hj
      have hlt : j - s.calls.length < 1 := hlt
      refine .inr ⟨by omega, ?_⟩
      rw [← hd, List.getElem_singleton]
  refine { h with ok := fun j d hj => ?_, locked := fun j p hj hp => ?_, holder := fun j hj => ?_,
                  queued := fun q hmem => ?_, asked := fun j hmem => ?_ }
  · refine CallOk.later (s := s) (Later.refl rfl rfl rfl rfl rfl) ?_
    rcases hnew hj with hj | ⟨rfl, rfl⟩
    · exact h.ok j d hj
    · exact hc
  · rcases hnew hj with hj | ⟨rfl, hd⟩
    · exact h.locked j p hj hp
    · rw [hholds p hd.symm] at hp
      cases hp
  · obtain ⟨p, hp, hheld⟩ := h.holder j hj
    exact ⟨p, hold hp, hheld⟩
  · obtain ⟨d, hd, hdq⟩ := h.queued q hmem
    exact ⟨d, hold hd, hdq⟩
  · obtain ⟨d, hd, hda⟩ := h.asked j hmem
    exact ⟨d, hold hd, hda⟩

theorem Inv.sendPush {s s' : State E} (h : Inv s) {i : Nat} (hs : s.sendPush i = some s') : Inv s' := by
  unfold State.sendPush at hs
  split at hs
  · rename_i envelope retries hi
    split at hs
    · cases hs
      have hput := h.put (.sendWait envelope none) hi rfl rfl trivial (fun _ => False.elim) False.elim
      have hnew : i ∉ s.queued.map Prod.fst := by
        intro hmem
        obtain ⟨q, hq, rfl⟩ := List.mem_map.mp hmem
        obtain ⟨c, hc, hcq⟩ := h.queued q hq
        rw [hi] at hc
        cases hc
        exact hcq
      refine { hput with queued := fun q hq => ?_, queuedOnce := ?_, sends := ?_ }
      · rcases List.mem_append.mp hq with hq | hq
        · exact hput.queued q hq
        · obtain rfl := List.mem_singleton.mp hq
          exact ⟨_, (getElem?_put _ hi i).trans (if_pos rfl), rfl⟩
      · rw [List.map_append]
        exact List.concat_eq_append ▸ h.queuedOnce.concat hnew
      · obtain ⟨hand, hqueue, hhand⟩ := h.sends
        refine ⟨hand, ?_, hhand⟩
        show s.queued ++ [(i, envelope)] = s.written ++ (hand ++ (s.sendCh ++ [(i, envelope)]))
        rw [hqueue, List.append_assoc, List.append_assoc]
    · cases hs
  · cases hs

theorem Inv.recvPush {s s' : State E} (h : Inv s) {i : Nat} (hs : s.recvPush i = some s') : Inv s' := by
  unfold State.recvPush at hs
  split at hs
  · rename_i hi
    split at hs
    · cases hs
      have hput := h.put (.recvWait none) hi rfl rfl trivial (fun _ => False.elim) False.elim
      have hnew : i ∉ s.asked := by
        intro hmem
        obtain ⟨c, hc, hca⟩ := h.asked i hmem
        rw [hi] at hc
        cases hc
        exact hca
      have hlater : Later (s.put i (.recvWait none))
          { s.put i (.recvWait none) with recvCh := s.recvCh ++ [i], asked := s.asked ++ [i] } :=
        ⟨fun hc => hc, fun hr => hr, fun hw => hw, List.prefix_append _ _, List.prefix_rfl⟩
      refine { hput with
        ok := fun j c hj => (hput.ok j c hj).later hlater, asked := fun j hj => ?_, askedOnce := ?_, recvs := ?_ }
      · rcases List.mem_append.mp hj with hj | hj
        · exact hput.asked j hj
        · obtain rfl := List.mem_singleton.mp hj
          exact ⟨_, (getElem?_put _ hi j).trans (if_pos rfl), trivial⟩
      · show (s.asked ++ [i]).Nodup
        rw [← List.concat_eq_append]
        exact h.askedOnce.concat hnew
      · obtain ⟨served, hqueue, hserved⟩ := h.recvs
        refine ⟨served, ?_, hserved⟩
        show s.asked ++ [i] = served ++ (s.recvCh ++ [i])
        rw [hqueue, List.append_assoc]
    · cases hs
      exact h.put _ hi rfl rfl (.inl rfl) (fun _ => False.elim) False.elim
  · cases hs

/-! ## Steps of `Close` -/

/-- A step of a `Close` that has the lock, or takes it: the fields that it may write, and what has
    to be known of them. -/
theorem Inv.closing {s : State E} (h : Inv s) {i : Nat} {p p' : Closing} (hi : s.calls[i]? = some (.closing p))
    {mu : Option Nat} {closed connClosed sendDone recvDone panicked : Bool} {closeReason : Option Err} {s' : State E}
    (hs' : s' = { s.put i (.closing p') with
      closeMu := mu
      closed := closed
      connClosed := connClosed
      closeReason := closeReason
      sendDone := sendDone
      recvDone := recvDone
      panicked := panicked })
    (hmine : ∀ j, s.closeMu = some j → j = i)
    (hheld : p'.holds = true → mu = some i ∧ HeldAt s' p') (hfree : p'.holds = false → mu = none)
    (hreturned : p' = .returned → closed = true)
    (hclosed : s.closed = true → closed = true) (hreason : ∀ {r}, s.closeReason = some r → closeReason = some r)
    (calm : panicked = false) (conn : closed = true → connClosed = true) (reason : connClosed = true → closeReason.isSome)
    (sendToken : sendDone = true → s.sender = .gone) (recvToken : recvDone = true → s.receiver = .gone)
    (sendOpen : closed = false → s.sender = .gone → sendDone = true)
    (recvOpen : closed = false → s.receiver = .gone → recvDone = true) : Inv s' := by
  have hget : ∀ j, s'.calls[j]? = if j = i then some (.closing p') else s.calls[j]? := by
    rw [hs']
    exact getElem?_put _ hi
  have hlater : Later s s' := by
    rw [hs']
    exact ⟨hclosed, hreason, fun hw => hw, List.prefix_rfl, List.prefix_rfl⟩
  have hother : ∀ {j : Nat} {c : Call E}, s.calls[j]? = some c → c.isClosing = false → s'.calls[j]? = some c := by
    intro j c hj hc
    rw [hget, if_neg fun hji => ?_]
    · exact hj
    · rw [hji, hi] at hj
      cases hj
      cases hc
  have hok : ∀ j c, s'.calls[j]? = some c → CallOk s' j c := by
    intro j c hj
    rw [hget] at hj
    split at hj
    · cases hj
      cases p' with
      | returned => rw [hs']; exact hreturned rfl
      | lock | check | reason | conn | chan | waitRecv | waitSend => trivial
    · exact (h.ok j c hj).later hlater
  have hlocked : ∀ j q, s'.calls[j]? = some (.closing q) → q.holds = true → s'.closeMu = some j := by
    intro j q hj hq
    rw [hget] at hj
    split at hj
    · rename_i hji
      cases hj
      rw [hji, hs']
      exact (hheld hq).1
    · rename_i hji
      exact absurd (hmine j (h.locked j q hj hq)) hji
  have hholder : ∀ j, s'.closeMu = some j → ∃ p, s'.calls[j]? = some (.closing p) ∧ HeldAt s' p := by
    intro j hj
    have hj : mu = some j := by rw [hs'] at hj; exact hj
    cases hp' : p'.holds with
    | false =>
      rw [hfree hp'] at hj
      cases hj
    | true =>
      obtain ⟨hmu, hat⟩ := hheld hp'
      rw [hmu] at hj
      cases hj
      exact ⟨p', (hget i).trans (if_pos rfl), hat⟩
  have hqueued : ∀ q ∈ s.queued, ∃ c, s'.calls[q.1]? = some c ∧ c.Queued q.2 := by
    intro q hmem
    obtain ⟨c, hc, hcq⟩ := h.queued q hmem
    refine ⟨c, hother hc ?_, hcq⟩
    cases c with
    | closing p => exact hcq.elim
    | _ => rfl
  have hasked : ∀ j ∈ s.asked, ∃ c, s'.calls[j]? = some c ∧ c.Asked := by
    intro j hmem
    obtain ⟨c, hc, hca⟩ := h.asked j hmem
    refine ⟨c, hother hc ?_, hca⟩
    cases c with
    | closing p => exact hca.elim
    | _ => rfl
  subst hs'
  exact
    { calm, conn, reason, sendToken, recvToken, sendOpen, recvOpen
      ok := hok
      locked := hlocked
      holder := hholder
      queued := hqueued
      queuedOnce := h.queuedOnce
      asked := hasked
      askedOnce := h.askedOnce
      sends := h.sends
      recvs := h.recvs }

theorem Inv.closeStep {s s' : State E} (h : Inv s) {i : Nat} (hs : s.closeStep i = some s') : Inv s' := by
  -- the call at `p` has the lock, and knows what that gives
  have hheld : ∀ {p : Closing}, s.calls[i]? = some (.closing p) → p.holds = true →
      (∀ j, s.closeMu = some j → j = i) ∧ s.closeMu = some i ∧ HeldAt s p := by
    intro p hi hp
    have hmu := h.locked i p hi hp
    obtain ⟨q, hq, hat⟩ := h.holder i hmu
    rw [hi] at hq
    cases hq
    exact ⟨fun j hj => (Option.some.inj (hmu.symm.trans hj)).symm, hmu, hat⟩
  unfold State.closeStep at hs
  split at hs
  · rename_i hi
    split at hs
    · rename_i hmu
      cases hs
      refine h.closing hi rfl ?_ (fun _ => ⟨rfl, trivial⟩) nofun nofun id id h.calm h.conn h.reason h.sendToken h.recvToken
        h.sendOpen h.recvOpen
      intro j hj
      rw [hmu] at hj
      cases hj
    · cases hs
  · rename_i hi
    obtain ⟨hmine, hmu, -⟩ := hheld hi rfl
    split at hs
    · rename_i hclosed
      cases hs
      exact h.closing hi rfl hmine nofun (fun _ => rfl) (fun _ => hclosed) id id h.calm h.conn h.reason h.sendToken h.recvToken
        h.sendOpen h.recvOpen
    · rename_i hclosed
      cases hs
      exact h.closing hi rfl hmine (fun _ => ⟨hmu, Bool.eq_false_iff.mpr hclosed⟩) nofun nofun id id h.calm h.conn h.reason
        h.sendToken h.recvToken h.sendOpen h.recvOpen
  · rename_i hi
    obtain ⟨hmine, hmu, hopen⟩ := hheld hi rfl
    cases hs
    refine h.closing hi rfl hmine (fun _ => ⟨hmu, hopen, rfl⟩) nofun nofun id (fun hr => ?_) h.calm h.conn (fun _ => rfl)
      h.sendToken h.recvToken h.sendOpen h.recvOpen
    rw [hr]
    rfl
  · rename_i hi
    obtain ⟨hmine, hmu, hopen, hreason⟩ := hheld hi rfl
    cases hs
    exact h.closing hi rfl hmine (fun _ => ⟨hmu, hopen, hreason, rfl⟩) nofun nofun id id h.calm (fun _ => rfl) (fun _ => hreason)
      h.sendToken h.recvToken h.sendOpen h.recvOpen
  · rename_i hi
    obtain ⟨hmine, hmu, hopen, hreason, hconn⟩ := hheld hi rfl
    cases hs
    refine h.closing hi rfl hmine (fun _ => ⟨hmu, rfl, h.recvOpen hopen, h.sendOpen hopen⟩) nofun nofun (fun _ => rfl) id ?_
      (fun _ => hconn) h.reason h.sendToken h.recvToken nofun nofun
    rw [h.calm, hopen]
    rfl
  · rename_i hi
    obtain ⟨hmine, hmu, hclosed, -, hsend⟩ := hheld hi rfl
    split at hs
    · cases hs
      exact h.closing hi rfl hmine (fun _ => ⟨hmu, hclosed, hsend⟩) nofun nofun id id h.calm h.conn h.reason h.sendToken nofun
        h.sendOpen fun hopen => Bool.noConfusion (hclosed.symm.trans hopen)
    · cases hs
  · rename_i hi
    obtain ⟨hmine, hmu, hclosed, -⟩ := hheld hi rfl
    split at hs
    · cases hs
      exact h.closing hi rfl hmine nofun (fun _ => rfl) (fun _ => hclosed) id id h.calm h.conn h.reason nofun h.recvToken
        (fun hopen => Bool.noConfusion (hclosed.symm.trans hopen)) h.recvOpen
    · cases hs
  · cases hs

/-! ## Steps of the goroutines -/

theorem HeldAt.imp {s s' : State E} {p : Closing} (h : HeldAt s p) (hclosed : s'.closed = s.closed)
    (hconn : s'.connClosed = s.connClosed) (hreason : s.closeReason.isSome → s'.closeReason.isSome)
    (hsend : (s.sender = .gone → s.sendDone = true) → s'.sender = .gone → s'.sendDone = true)
    (hrecv : (s.receiver = .gone → s.recvDone = true) → s'.receiver = .gone → s'.recvDone = true) : HeldAt s' p := by
  cases p with
  | lock | returned => exact h.elim
  | check => trivial
  | reason => exact hclosed.trans h
  | conn => exact ⟨hclosed.trans h.1, hreason h.2⟩
  | chan => exact ⟨hclosed.trans h.1, hreason h.2.1, hconn.trans h.2.2⟩
  | waitRecv => exact ⟨hclosed.trans h.1, hrecv h.2.1, hsend h.2.2⟩
  | waitSend => exact ⟨hclosed.trans h.1, hsend h.2⟩

theorem Inv.holder_imp {s s' : State E} (h : Inv s) (hcalls : s'.calls = s.calls) (hmu : s'.closeMu = s.closeMu)
    (himp : ∀ p, HeldAt s p → HeldAt s' p) (i : Nat) (hi : s'.closeMu = some i) :
    ∃ p, s'.calls[i]? = some (.closing p) ∧ HeldAt s' p := by
  obtain ⟨p, hp, hat⟩ := h.holder i (hmu ▸ hi)
  exact ⟨p, by rw [hcalls, hp], himp p hat⟩

theorem Inv.setSender {s : State E} (h : Inv s) (sender : Sender E) (sendCh written : List (Nat × E)) (closeReason : Option Err)
    (hgone : s.sender ≠ .gone) (hnext : sender ≠ .gone) (hwritten : s.written <+: written)
    (hreason : ∀ {r}, s.closeReason = some r → closeReason = some r)
    (hsends : ∃ hand, s.queued = written ++ (hand ++ sendCh) ∧ InHand sender hand) :
    Inv { s with sender := sender, sendCh := sendCh, written := written, closeReason := closeReason } := by
  have hlater : Later s { s with sender := sender, sendCh := sendCh, written := written, closeReason := closeReason } :=
    ⟨fun hc => hc, hreason, fun hw => hwritten.subset hw, List.prefix_rfl, List.prefix_rfl⟩
  have hsome : s.closeReason.isSome → closeReason.isSome := by
    intro hr
    obtain ⟨r, hr⟩ := Option.isSome_iff_exists.mp hr
    rw [hreason hr]
    rfl
  exact
    { h with
      reason := fun hc => hsome (h.reason hc)
      ok := fun i c hi => (h.ok i c hi).later hlater
      holder := h.holder_imp rfl rfl fun p hp => hp.imp rfl rfl hsome (fun _ hg => absurd hg hnext) id
      sendToken := fun hd => absurd (h.sendToken hd) hgone
      sendOpen := fun _ hg => absurd hg hnext
      sends := hsends }

theorem Inv.setReceiver {s : State E} (h : Inv s) (receiver : Receiver) (recvCh : List Nat) (decoded : List E)
    (closeReason : Option Err) (hgone : s.receiver ≠ .gone) (hnext : receiver ≠ .gone) (hdecoded : s.decoded <+: decoded)
    (hreason : ∀ {r}, s.closeReason = some r → closeReason = some r)
    (hrecvs : ∃ served, s.asked = served ++ recvCh ∧ Served decoded receiver served) :
    Inv { s with receiver := receiver, recvCh := recvCh, decoded := decoded, closeReason := closeReason } := by
  have hlater : Later s { s with receiver := receiver, recvCh := recvCh, decoded := decoded, closeReason := closeReason } :=
    ⟨fun hc => hc, hreason, fun hw => hw, List.prefix_rfl, hdecoded⟩
  have hsome : s.closeReason.isSome → closeReason.isSome := by
    intro hr
    obtain ⟨r, hr⟩ := Option.isSome_iff_exists.mp hr
    rw [hreason hr]
    rfl
  exact
    { h with
      reason := fun hc => hsome (h.reason hc)
      ok := fun i c hi => (h.ok i c hi).later hlater
      holder := h.holder_imp rfl rfl fun p hp => hp.imp rfl rfl hsome id (fun _ hg => absurd hg hnext)
      recvToken := fun hd => absurd (h.recvToken hd) hgone
      recvOpen := fun _ hg => absurd hg hnext
      recvs := hrecvs }

theorem Inv.deliverErr {s : State E} (h : Inv s) {i : Nat} {err : Option Err}
    (hok : ∀ envelope, s.calls[i]? = some (.sendWait envelope none) → CallOk s i (.sendWait envelope (some err))) :
    Inv (s.deliverErr i err) := by
  unfold State.deliverErr
  split
  · rename_i envelope hi
    exact h.put _ hi rfl rfl (hok envelope hi) (fun _ hq => hq) False.elim
  · exact h

theorem Inv.deliver {s : State E} (h : Inv s) {i : Nat} {res : Except Err E} (hok : CallOk s i (.recvWait (some res))) :
    Inv (s.deliver i res) := by
  unfold State.deliver
  split
  · rename_i hi
    exact h.put _ hi rfl rfl hok (fun _ => False.elim) fun ha => ha
  · exact h

theorem setCloseReason_eq {reason : Option Err} {err r : Err} (h : reason = some r) :
    some (setCloseReason reason err) = some r := by
  rw [h]
  rfl

theorem Inv.sendTake {s s' : State E} (h : Inv s) (hs : s.sendTake = some s') : Inv s' := by
  unfold State.sendTake at hs
  split at hs
  · rename_i i envelope rest hsender hch
    cases hs
    refine h.setSender (.writing i envelope) rest s.written s.closeReason (by rw [hsender]; nofun) nofun List.prefix_rfl id ?_
    obtain ⟨hand, hqueue, hhand⟩ := h.sends
    rw [hsender] at hhand
    have hhand : hand = [] := hhand
    exact ⟨[(i, envelope)], by rw [hqueue, hhand, hch]; rfl, rfl⟩
  · cases hs

theorem Inv.sendWrite {s s' : State E} (h : Inv s) {err : Option Err} (hs : s.sendWrite err = some s') : Inv s' := by
  obtain ⟨hand, hqueue, hhand⟩ := h.sends
  unfold State.sendWrite at hs
  split at hs
  · rename_i i envelope hsender
    rw [hsender] at hhand
    have hhand : hand = [(i, envelope)] := hhand
    rw [hhand] at hqueue
    split at hs
    · cases hs
    · cases hs
      have hset := h.setSender .loop s.sendCh (s.written ++ [(i, envelope)]) s.closeReason (by rw [hsender]; nofun) nofun
        (List.prefix_append _ _) id ⟨[], by rw [hqueue, List.append_assoc]; rfl, rfl⟩
      refine hset.deliverErr fun envelope' hi => ?_
      -- the call waits for the envelope that was taken
      have hmem : (i, envelope) ∈ s.queued := by
        rw [hqueue]
        exact List.mem_append_right _ List.mem_cons_self
      obtain ⟨c, hc, hcq⟩ := h.queued _ hmem
      have hi : s.calls[i]? = some (.sendWait envelope' none) := hi
      rw [hi] at hc
      cases hc
      have hcq : envelope' = envelope := hcq
      show (i, envelope') ∈ s.written ++ [(i, envelope)]
      rw [hcq]
      exact List.mem_append_right _ List.mem_cons_self
  · rename_i i envelope err hsender
    cases hs
    have hset := h.setSender .exiting s.sendCh s.written (some (setCloseReason s.closeReason err)) (by rw [hsender]; nofun)
      nofun List.prefix_rfl setCloseReason_eq ⟨hand, hqueue, trivial⟩
    exact hset.deliverErr fun _ _ => rfl
  · cases hs

theorem Inv.sendQuit {s s' : State E} (h : Inv s) (hs : s.sendQuit = some s') : Inv s' := by
  unfold State.sendQuit at hs
  split at hs
  · rename_i hsender
    split at hs
    · cases hs
      obtain ⟨hand, hqueue, -⟩ := h.sends
      exact h.setSender .exiting s.sendCh s.written s.closeReason (by rw [hsender]; nofun) nofun List.prefix_rfl id
        ⟨hand, hqueue, trivial⟩
    · cases hs
  · cases hs

theorem Inv.sendDefer {s s' : State E} (h : Inv s) (hs : s.sendDefer = some s') : Inv s' := by
  unfold State.sendDefer at hs
  split at hs
  · split at hs
    · cases hs
    · cases hs
      obtain ⟨hand, hqueue, -⟩ := h.sends
      have hdone : Inv { s with sender := .gone, sendDone := true } :=
        { h with
          ok := h.ok
          holder := h.holder_imp rfl rfl fun p hp => hp.imp rfl rfl id (fun _ _ => rfl) id
          sendToken := fun _ => rfl
          sendOpen := fun _ _ => rfl
          sends := ⟨hand, hqueue, trivial⟩ }
      exact hdone.start trivial fun p hp => by cases hp; rfl
  · cases hs

theorem Inv.recvTake {s s' : State E} (h : Inv s) (hs : s.recvTake = some s') : Inv s' := by
  unfold State.recvTake at hs
  split at hs
  · rename_i i rest hreceiver hch
    cases hs
    refine h.setReceiver (.reading i) rest s.decoded s.closeReason (by rw [hreceiver]; nofun) nofun List.prefix_rfl id ?_
    obtain ⟨served, hqueue, hserved⟩ := h.recvs
    rw [hreceiver] at hserved
    exact ⟨served ++ [i], by rw [hqueue, hch, List.append_assoc]; rfl, served, rfl, hserved⟩
  · cases hs

theorem Inv.recvRead {s s' : State E} (h : Inv s) {res : Except Err E} (hs : s.recvRead res = some s') : Inv s' := by
  obtain ⟨served, hqueue, hserved⟩ := h.recvs
  unfold State.recvRead at hs
  split at hs
  · rename_i i envelope hreceiver
    cases hs
    rw [hreceiver] at hserved
    obtain ⟨before, hbefore, hlen⟩ := hserved
    have hset := h.setReceiver .loop s.recvCh (s.decoded ++ [envelope]) s.closeReason (by rw [hreceiver]; nofun) nofun
      (List.prefix_append _ _) id ⟨served, hqueue, by rw [hbefore]; simp [Served, hlen]⟩
    refine hset.deliver ⟨s.decoded.length, ?_, ?_⟩
    · show s.asked[s.decoded.length]? = some i
      rw [hqueue, hbefore, ← hlen]
      simp
    · show (s.decoded ++ [envelope])[s.decoded.length]? = some envelope
      simp
  · rename_i i err hreceiver
    cases hs
    have hset := h.setReceiver .exiting s.recvCh s.decoded (some (setCloseReason s.closeReason err))
      (by rw [hreceiver]; nofun) nofun List.prefix_rfl setCloseReason_eq ⟨served, hqueue, trivial⟩
    exact hset.deliver rfl
  · cases hs

theorem Inv.recvQuit {s s' : State E} (h : Inv s) (hs : s.recvQuit = some s') : Inv s' := by
  unfold State.recvQuit at hs
  split at hs
  · rename_i hreceiver
    split at hs
    · cases hs
      obtain ⟨served, hqueue, -⟩ := h.recvs
      exact h.setReceiver .exiting s.recvCh s.decoded s.closeReason (by rw [hreceiver]; nofun) nofun List.prefix_rfl id
        ⟨served, hqueue, trivial⟩
    · cases hs
  · cases hs

theorem Inv.recvDefer {s s' : State E} (h : Inv s) (hs : s.recvDefer = some s') : Inv s' := by
  unfold State.recvDefer at hs
  split at hs
  · split at hs
    · cases hs
    · cases hs
      obtain ⟨served, hqueue, -⟩ := h.recvs
      have hdone : Inv { s with receiver := .gone, recvDone := true } :=
        { h with
          ok := h.ok
          holder := h.holder_imp rfl rfl fun p hp => hp.imp rfl rfl id id (fun _ _ => rfl)
          recvToken := fun _ => rfl
          recvOpen := fun _ _ => rfl
          recvs := ⟨served, hqueue, trivial⟩ }
      exact hdone.start trivial fun p hp => by cases hp; rfl
  · cases hs

/-! ## Runs -/

theorem Inv.next {s s' : State E} (h : Inv s) {e : Event E} (hs : s.next e = some s') : Inv s' := by
  cases e with
  | sendCtx envelope => cases hs; exact h.start trivial nofun
  | receiveCtx => cases hs; exact h.start trivial nofun
  | close => cases hs; exact h.start trivial fun p hp => by cases hp; rfl
  | local_ i choice => exact h.local_ hs
  | sendPush i => exact h.sendPush hs
  | recvPush i => exact h.recvPush hs
  | closeStep i => exact h.closeStep hs
  | sendTake => exact h.sendTake hs
  | sendWrite err => exact h.sendWrite hs
  | sendQuit => exact h.sendQuit hs
  | sendDefer => exact h.sendDefer hs
  | recvTake => exact h.recvTake hs
  | recvRead res => exact h.recvRead hs
  | recvQuit => exact h.recvQuit hs
  | recvDefer => exact h.recvDefer hs

theorem Inv.step {s : State E} (h : Inv s) (e : Event E) : Inv (s.step e) := by
  unfold State.step
  cases hs : s.next e with
  | none => exact h
  | some s' => exact h.next hs

theorem inv_run (es : List (Event E)) : Inv (Machine.run State.step newPeer es) :=
  Machine.run_keeps Inv (fun _ e h => h.step e) es newPeer inv_newPeer

/-! ## The close reason -/

@[simp] theorem closeReason_deliverErr (s : State E) (i : Nat) (err : Option Err) :
    (s.deliverErr i err).closeReason = s.closeReason := by
  unfold State.deliverErr
  split
  · rfl
  · rfl

@[simp] theorem closeReason_deliver (s : State E) (i : Nat) (res : Except Err E) :
    (s.deliver i res).closeReason = s.closeReason := by
  unfold State.deliver
  split
  · rfl
  · rfl

/-- Three steps write the reason: `Close`, and a write or a read that fails. Each looks whether it
    is set. -/
theorem closeReason_next {s s' : State E} {e : Event E} (hs : s.next e = some s') {r : Err} (hr : s.closeReason = some r) :
    s'.closeReason = some r := by
  cases e with
  | sendCtx | receiveCtx | close => cases hs; exact hr
  | local_ i choice =>
    obtain ⟨c, -, rfl⟩ := Option.map_eq_some_iff.mp hs
    exact hr
  | sendPush i =>
    simp only [State.next, State.sendPush] at hs
    repeat' split at hs
    all_goals cases hs
    exact hr
  | recvPush i =>
    simp only [State.next, State.recvPush] at hs
    repeat' split at hs
    all_goals cases hs
    · exact hr
    · exact hr
  | closeStep i =>
    simp only [State.next, State.closeStep] at hs
    repeat' split at hs
    all_goals cases hs
    all_goals first | exact hr | exact congrArg (fun reason => some (Option.getD reason _)) hr
  | sendTake =>
    simp only [State.next, State.sendTake] at hs
    repeat' split at hs
    all_goals cases hs
    exact hr
  | sendWrite err =>
    simp only [State.next, State.sendWrite] at hs
    repeat' split at hs
    all_goals cases hs
    · rw [closeReason_deliverErr]; exact hr
    · rw [closeReason_deliverErr]; exact setCloseReason_eq hr
  | sendQuit =>
    simp only [State.next, State.sendQuit] at hs
    repeat' split at hs
    all_goals cases hs
    exact hr
  | sendDefer =>
    simp only [State.next, State.sendDefer] at hs
    repeat' split at hs
    all_goals cases hs
    exact hr
  | recvTake =>
    simp only [State.next, State.recvTake] at hs
    repeat' split at hs
    all_goals cases hs
    exact hr
  | recvRead res =>
    simp only [State.next, State.recvRead] at hs
    repeat' split at hs
    all_goals cases hs
    · rw [closeReason_deliver]; exact hr
    · rw [closeReason_deliver]; exact setCloseReason_eq hr
  | recvQuit =>
    simp only [State.next, State.recvQuit] at hs
    repeat' split at hs
    all_goals cases hs
    exact hr
  | recvDefer =>
    simp only [State.next, State.recvDefer] at hs
    repeat' split at hs
    all_goals cases hs
    exact hr

theorem reason_stays (s : State E) (es : List (Event E)) {r : Err} (hr : s.closeReason = some r) :
    (Machine.run State.step s es).closeReason = some r := by
  refine Machine.run_keeps (fun s => s.closeReason = some r) (fun s e hr => ?_) es s hr
  unfold State.step
  cases hs : s.next e with
  | none => exact hr
  | some s' => exact closeReason_next hs hr

/-- What callers may rely on. -/
structure Truthful (s : State E) : Prop where
  calm : s.panicked = false
  sent : ∀ (i : Nat) (envelope : E), s.calls[i]? = some (.sent envelope none) → (i, envelope) ∈ s.written
  inOrder : s.written <+: s.queued
  once : (s.queued.map Prod.fst).Nodup
  received : ∀ (i : Nat) (envelope : E), s.calls[i]? = some (.received (.ok envelope)) → Got s i envelope
  askedOnce : s.asked.Nodup
  sendFails : ∀ (i : Nat) (envelope : E) (err : Err), s.calls[i]? = some (.sent envelope (some err)) →
    err = .sendBufferFull ∨ err = .ctx ∨ s.closeReason = some err
  recvFails : ∀ (i : Nat) (res : Option Err), s.calls[i]? = some (.received (.error res)) →
    ∃ err, res = some err ∧ (err = .recvBufferFull ∨ err = .ctx ∨ s.closeReason = some err)
  closed : s.closed = true → s.closeReason.isSome

theorem Inv.truthful {s : State E} (h : Inv s) : Truthful s where
  calm := h.calm
  sent i envelope hi := h.ok i _ hi
  inOrder := by
    obtain ⟨hand, hqueue, -⟩ := h.sends
    rw [hqueue]
    exact List.prefix_append _ _
  once := h.queuedOnce
  received i envelope hi := h.ok i _ hi
  askedOnce := h.askedOnce
  sendFails i envelope err hi := h.ok i _ hi
  recvFails i res hi := by
    have hok := h.ok i _ hi
    cases res with
    | none => exact hok.elim
    | some err => exact ⟨err, rfl, hok⟩
  closed hc := h.reason (h.conn hc)

/-- After any interleaving, every call has told the truth; and a close reason, once it is set,
    stays whatever follows. -/
theorem calls_tell_the_truth (es : List (Event E)) :
    Truthful (Machine.run State.step newPeer es) ∧
    ∀ more r, (Machine.run State.step newPeer es).closeReason = some r →
      (Machine.run State.step newPeer (es ++ more)).closeReason = some r := by
  refine ⟨(inv_run es).truthful, fun more r hr => ?_⟩
  rw [Machine.run, List.foldl_append]
  exact reason_stays _ more hr

-- the first envelope is written while the second waits; `Close` cuts the second off
example :
    let s := Machine.run State.step (newPeer : State Nat)
      [.sendCtx 7, .sendCtx 8, .local_ 0 .go, .local_ 1 .go, .sendPush 0, .sendPush 1, .sendTake, .sendWrite none, .close,
        .closeStep 2, .closeStep 2, .closeStep 2, .closeStep 2, .closeStep 2, .local_ 0 .go, .local_ 1 .sawClosed, .local_ 1 .go]
    s.written = [(0, 7)] ∧ s.queued = [(0, 7), (1, 8)] ∧ s.closeReason = some .peerClosed := by
  decide

end Fnd.P2p.PeerImpl

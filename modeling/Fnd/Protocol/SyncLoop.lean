/-
  Fnd.Protocol.SyncLoop — `SyncSectors` as its two goroutines (`protocol/syncer.go`).

  The receiver takes responses off `payloadResCh`, writes the sectors of the one it uses into
  the transaction and puts the update into `payloadProcessedCh`, which holds one; an error
  goes over `errs`, which holds none, so the receiver stays there until the caller takes it.
  The caller selects between the two and the timer, once. The receiver may see responses
  after that, and others change the database at any time: `step` is one move of either.

  However they interleave, a returned update is that of exactly one response, which passed
  the checks, and exactly its sectors were written (`returned_update_sound_iff`); only the
  bound on its end is checked modulo 2^16 (`a_size_wraps_past_the_bound`). A run in which
  nobody else writes the database returns what `syncSectors` does, or times out
  (`returned_agrees`).

  The errors end the call: the update of the first usable response is returned exactly when
  each response before it is skipped (`first_usable_returned_iff`), and one wrongly signed
  response is enough (`one_bad_responder_ends_the_sync`).
-/

import Mathlib.Control.Monad.Basic
import Fnd.Lib.Machine
import Fnd.Symbolic

namespace Fnd.Protocol.SyncLoop

open Blob (File Sector Tx serialHashSector maxSectors)
open Store (DB Header)
open Wire (BlobRes)
open HashChain (chain)

variable {H K G : Type}

inductive Receiver (H G : Type) where
  /-- At the `select`. -/
  | looking
  /-- In the write loop of a used response, with what is left and the update to send. -/
  | writing (rest : List Sector) (position : UInt16) (u : SyncUpdate H G)
  /-- At `errs <- e`. -/
  | failing (e : SyncErr)
  | ended

inductive Caller (H G : Type) where
  | waiting
  | returned (r : Except SyncErr (Option (SyncUpdate H G)))
  deriving DecidableEq

structure State (H K G : Type) where
  sync : Sync H K G
  receivedPayloads : List UInt16
  receiver : Receiver H G
  payloadProcessedCh : Option (SyncUpdate H G)
  caller : Caller H G
  /-- A panic has taken the process down. -/
  crashed : Bool
  /-- Ghost: the responses the receiver has taken. -/
  delivered : List (BlobRes H G)
  /-- Ghost: those whose sectors it went on to write, with the database they were checked against. -/
  used : List (DB H K G × BlobRes H G)
  /-- Ghost: the sectors that `WriteSector` took, in order. -/
  written : List Sector

inductive Event (H K G : Type) where
  | deliver (now : Time) (msg : BlobRes H G)
  | write
  | processed
  | quit
  | takeUpdate
  | takeErr
  | timeout
  /-- Some other component's write. -/
  | database (db : DB H K G)

def start (db : DB H K G) (tx : Tx) : State H K G :=
  ⟨⟨db, tx, []⟩, [], .looking, none, .waiting, false, [], [], []⟩

section

variable (P : Prims H K G) [DecidableEq H] (opts : SyncSectorsOpts H) (b : File)

/-- The receiver's `select` takes a response. -/
def deliver (now : Time) (msg : BlobRes H G) (s : State H K G) : State H K G :=
  let s := { s with delivered := s.delivered ++ [msg] }
  if msg.name ≠ opts.name then s
  else if msg.payloadPosition ∈ s.receivedPayloads then s
  else match receive P now opts b s.sync msg with
    | (.skipped, sync) => { s with sync := sync }
    | (.failed e, sync) => { s with sync := sync, receiver := .failing e }
    | (.panicked, _) => { s with crashed := true }
    -- the sectors are still to be written, one at a time
    | (.processed u, _) =>
      { s with receiver := .writing msg.payload msg.payloadPosition u, used := s.used ++ [(s.sync.db, msg)] }

/-- A failed write is logged and the next sector tried. -/
def writeNext (x : Sector) (s : State H K G) : State H K G :=
  match s.sync.tx.writeSector b x with
  | .error _ => s
  | .ok tx => { s with sync := { s.sync with tx := tx }, written := s.written ++ [x] }

def move (s : State H K G) : Event H K G → State H K G
  | .deliver now msg =>
    match s.receiver with
    | .looking => deliver P opts b now msg s
    | _ => s
  | .write =>
    match s.receiver with
    | .writing (x :: rest) position u => { writeNext b x s with receiver := .writing rest position u }
    | _ => s
  | .processed =>
    match s.receiver, s.payloadProcessedCh with
    | .writing [] position u, none =>
      { s with
        receivedPayloads := position :: s.receivedPayloads
        receiver := .looking
        payloadProcessedCh := some u }
    | _, _ => s
  | .quit =>
    match s.receiver, s.caller with
    | .looking, .returned _ => { s with receiver := .ended }
    | _, _ => s
  | .takeUpdate =>
    match s.caller, s.payloadProcessedCh with
    | .waiting, some u => { s with payloadProcessedCh := none, caller := .returned (.ok (some u)) }
    | _, _ => s
  | .takeErr =>
    match s.caller, s.receiver with
    | .waiting, .failing e => { s with receiver := .looking, caller := .returned (.error e) }
    | _, _ => s
  | .timeout =>
    match s.caller with
    | .waiting => { s with caller := .returned (.ok none) }
    | _ => s
  | .database db => { s with sync := { s.sync with db := db } }

def step (s : State H K G) (e : Event H K G) : State H K G := if s.crashed then s else move P opts b s e

end

/-! ## One response is used -/

section

variable {P : Prims H K G} [DecidableEq H] {opts : SyncSectorsOpts H} {b : File} {tx₀ : Tx}

structure Fresh (tx₀ : Tx) (s : State H K G) : Prop where
  used : s.used = []
  written : s.written = []
  tx : s.sync.tx = tx₀
  received : s.receivedPayloads = []
  channel : s.payloadProcessedCh = none
  caller : ∀ u, s.caller ≠ .returned (.ok (some u))
  receiver : ∀ rest position u, s.receiver ≠ .writing rest position u

/-- `m` is the response that was used. -/
structure Uses (P : Prims H K G) (opts : SyncSectorsOpts H) (db : DB H K G) (m : BlobRes H G) (s : State H K G) : Prop where
  used : s.used = [(db, m)]
  delivered : m ∈ s.delivered
  usable : Usable P db opts m

/-- Its sectors are being written: those before `rest` are. -/
structure Writing (P : Prims H K G) (opts : SyncSectorsOpts H) (b : File) (tx₀ : Tx) (db : DB H K G) (m : BlobRes H G)
    (rest : List Sector) (s : State H K G) : Prop extends Uses P opts db m s where
  receiver : s.receiver = .writing rest m.payloadPosition (updateOf P m)
  split : m.payload = s.written ++ rest
  tx : s.sync.tx = writeSectors b tx₀ s.written
  received : s.receivedPayloads = []
  channel : s.payloadProcessedCh = none
  caller : ∀ u, s.caller ≠ .returned (.ok (some u))

structure Sent (P : Prims H K G) (opts : SyncSectorsOpts H) (b : File) (tx₀ : Tx) (db : DB H K G) (m : BlobRes H G)
    (s : State H K G) : Prop extends Uses P opts db m s where
  receiver : s.receiver = .looking ∨ s.receiver = .ended
  written : s.written = m.payload
  tx : s.sync.tx = writeSectors b tx₀ m.payload
  received : s.receivedPayloads = [m.payloadPosition]
  channel : ∀ u, s.payloadProcessedCh = some u → u = updateOf P m
  caller : ∀ u, s.caller = .returned (.ok (some u)) → u = updateOf P m

def Inv (P : Prims H K G) (opts : SyncSectorsOpts H) (b : File) (tx₀ : Tx) (s : State H K G) : Prop :=
  Fresh tx₀ s ∨ ∃ db m, (∃ rest, Writing P opts b tx₀ db m rest s) ∨ Sent P opts b tx₀ db m s

theorem writeSectors_snoc {b : File} {tx tx' : Tx} {xs : List Sector} {x : Sector}
    (h : (writeSectors b tx xs).writeSector b x = .ok tx') : writeSectors b tx (xs ++ [x]) = tx' := by
  unfold writeSectors at h ⊢
  simp only [List.foldl_append, List.foldl_cons, List.foldl_nil, h]

theorem receive_position {now : Time} {s : Sync H K G} {msg : BlobRes H G} (h : opts.sectorSize ≠ msg.payloadPosition) :
    receive P now opts b s msg = (.skipped, s) := by
  simp only [receive, if_pos h]
  split
  · rfl
  · split <;> rfl

variable {s : State H K G}

/-- A response is skipped, takes the process down, fails the sync, or is used; never one at a
    position that is done. -/
theorem deliver_cases (P : Prims H K G) (opts : SyncSectorsOpts H) (b : File) (now : Time) (msg : BlobRes H G)
    (s : State H K G) :
    let s' := { s with delivered := s.delivered ++ [msg] }
    (deliver P opts b now msg s = s' ∧
      (msg.payloadPosition ∈ s.receivedPayloads ∨ receive P now opts b s.sync msg = (.skipped, s.sync))) ∨
    msg.payloadPosition ∉ s.receivedPayloads ∧
      (deliver P opts b now msg s = { s' with crashed := true } ∨
      (∃ e sync, receive P now opts b s.sync msg = (.failed e, sync) ∧ sync.tx = s.sync.tx ∧
        deliver P opts b now msg s = { s' with sync := sync, receiver := .failing e }) ∨
      (Usable P s.sync.db opts msg ∧ deliver P opts b now msg s =
        { s' with
          receiver := .writing msg.payload msg.payloadPosition (updateOf P msg)
          used := s.used ++ [(s.sync.db, msg)] })) := by
  intro s'
  by_cases hn : msg.name ≠ opts.name
  · have hs : receive P now opts b s.sync msg = (.skipped, s.sync) := by simp only [receive, if_pos hn]
    exact .inl ⟨by simp only [deliver, if_pos hn, s'], .inr hs⟩
  by_cases hp : msg.payloadPosition ∈ s.receivedPayloads
  · exact .inl ⟨by simp only [deliver, if_neg hn, if_pos hp, s'], .inl hp⟩
  rcases receive_cases P now opts b s.sync msg with hs | hs | ⟨e, hs⟩ | ⟨he, hnone, header, hh⟩ | hu
  · exact .inl ⟨by simp only [deliver, if_neg hn, if_neg hp, hs, s'], .inr hs⟩
  · exact .inr ⟨hp, .inl (by simp only [deliver, if_neg hn, if_neg hp, hs, s'])⟩
  · exact .inr ⟨hp, .inr (.inl ⟨e, s.sync, hs, rfl, by simp only [deliver, if_neg hn, if_neg hp, hs, s']⟩)⟩
  · have hs := receive_equivocates now b he hh
    rw [hnone] at hs
    exact .inr ⟨hp, .inr (.inl ⟨_, _, hs, rfl, by simp only [deliver, if_neg hn, if_neg hp, hs, s']⟩)⟩
  · exact .inr ⟨hp, .inr (.inr ⟨hu, by simp only [deliver, if_neg hn, if_neg hp, receive_usable now b hu, s']⟩)⟩

theorem Fresh.deliver (h : Fresh tx₀ s) (now : Time) (msg : BlobRes H G) :
    Inv P opts b tx₀ (deliver P opts b now msg s) := by
  rcases deliver_cases P opts b now msg s with ⟨hd, -⟩ | ⟨-, hd | ⟨e, sync, -, htx, hd⟩ | ⟨hu, hd⟩⟩
  · rw [hd]
    exact .inl ⟨h.used, h.written, h.tx, h.received, h.channel, h.caller, h.receiver⟩
  · rw [hd]
    exact .inl ⟨h.used, h.written, h.tx, h.received, h.channel, h.caller, h.receiver⟩
  · rw [hd]
    exact .inl ⟨h.used, h.written, htx.trans h.tx, h.received, h.channel, h.caller, nofun⟩
  · rw [hd]
    refine .inr ⟨s.sync.db, msg, .inl ⟨msg.payload, ⟨⟨?_, ?_, hu⟩, rfl, ?_, ?_, h.received, h.channel, h.caller⟩⟩⟩
    · simp only [h.used, List.nil_append]
    · exact List.mem_append_right _ List.mem_cons_self
    · simp only [h.written, List.nil_append]
    · simp only [h.written]
      exact h.tx

theorem Fresh.step (h : Fresh tx₀ s) (e : Event H K G) : Inv P opts b tx₀ (move P opts b s e) := by
  have hkeep : Inv P opts b tx₀ s := .inl h
  cases e with
  | deliver now msg =>
    cases hr : s.receiver with
    | looking => simp only [move, hr]; exact h.deliver now msg
    | writing rest position u => exact absurd hr (h.receiver _ _ _)
    | failing e => simpa only [move, hr] using hkeep
    | ended => simpa only [move, hr] using hkeep
  | write =>
    simp only [move]
    split
    · rename_i hr; exact absurd hr (h.receiver _ _ _)
    · exact hkeep
  | processed =>
    simp only [move]
    split
    · rename_i hr _; exact absurd hr (h.receiver _ _ _)
    · exact hkeep
  | quit =>
    simp only [move]
    split
    · exact .inl ⟨h.used, h.written, h.tx, h.received, h.channel, h.caller, nofun⟩
    · exact hkeep
  | takeUpdate => cases hc : s.caller <;> simpa only [move, h.channel, hc] using hkeep
  | takeErr =>
    simp only [move]
    split
    · exact .inl ⟨h.used, h.written, h.tx, h.received, h.channel, nofun, nofun⟩
    · exact hkeep
  | timeout =>
    simp only [move]
    split
    · exact .inl ⟨h.used, h.written, h.tx, h.received, h.channel, nofun, h.receiver⟩
    · exact hkeep
  | database db => exact .inl ⟨h.used, h.written, h.tx, h.received, h.channel, h.caller, h.receiver⟩

variable {db : DB H K G} {m : BlobRes H G} {rest : List Sector}

theorem Writing.step (hlive : tx₀.Live) (h : Writing P opts b tx₀ db m rest s) (e : Event H K G) :
    Inv P opts b tx₀ (move P opts b s e) := by
  have hkeep : Inv P opts b tx₀ s := .inr ⟨db, m, .inl ⟨rest, h⟩⟩
  cases e with
  | deliver now msg => simpa only [move, h.receiver] using hkeep
  | write =>
    cases rest with
    | nil => simpa only [move, h.receiver] using hkeep
    | cons x rest =>
      have hl : s.sync.tx.Live := h.tx ▸ writeSectors_live b s.written hlive
      obtain ⟨tx, hw, -⟩ := hl.writeSector b x
      simp only [move, h.receiver, writeNext, hw]
      refine .inr ⟨db, m, .inl ⟨rest, ⟨⟨h.used, h.delivered, h.usable⟩, rfl, ?_, ?_, h.received, h.channel, h.caller⟩⟩⟩
      · simpa only [List.append_assoc, List.singleton_append] using h.split
      · exact (writeSectors_snoc (h.tx ▸ hw)).symm
  | processed =>
    cases rest with
    | nil =>
      have hall : s.written = m.payload := by rw [h.split, List.append_nil]
      simp only [move, h.receiver, h.channel]
      refine .inr ⟨db, m, .inr ⟨⟨h.used, h.delivered, h.usable⟩, .inl rfl, hall, hall ▸ h.tx, ?_, ?_, ?_⟩⟩
      · simp only [h.received]
      · intro u hu; exact (Option.some.inj hu).symm
      · intro u hu; exact absurd hu (h.caller u)
    | cons x rest => simpa only [move, h.receiver] using hkeep
  | quit => simpa only [move, h.receiver] using hkeep
  | takeUpdate => cases hc : s.caller <;> simpa only [move, h.channel, hc] using hkeep
  | takeErr => cases hc : s.caller <;> simpa only [move, h.receiver, hc] using hkeep
  | timeout =>
    simp only [move]
    split
    · exact .inr ⟨db, m, .inl ⟨rest, ⟨⟨h.used, h.delivered, h.usable⟩, h.receiver, h.split, h.tx, h.received, h.channel, nofun⟩⟩⟩
    · exact hkeep
  | database db' =>
    exact .inr ⟨db, m, .inl ⟨rest, ⟨⟨h.used, h.delivered, h.usable⟩, h.receiver, h.split, h.tx, h.received, h.channel, h.caller⟩⟩⟩

/-- Nothing more is used: a response at another position is skipped for its position. -/
theorem deliver_received (hrec : opts.sectorSize ∈ s.receivedPayloads) (now : Time) (msg : BlobRes H G) :
    deliver P opts b now msg s = { s with delivered := s.delivered ++ [msg] } := by
  rcases deliver_cases P opts b now msg s with ⟨hd, -⟩ | ⟨hp, hd⟩
  · exact hd
  · have hpos : opts.sectorSize ≠ msg.payloadPosition := fun he => hp (he ▸ hrec)
    have hs : receive P now opts b s.sync msg = (.skipped, s.sync) := receive_position hpos
    unfold deliver
    by_cases hn : msg.name ≠ opts.name
    · rw [if_pos hn]
    · simp only [if_neg hn, if_neg hp, hs]

theorem Sent.deliver (h : Sent P opts b tx₀ db m s) (now : Time) (msg : BlobRes H G) :
    Sent P opts b tx₀ db m (deliver P opts b now msg s) := by
  have hrec : opts.sectorSize ∈ s.receivedPayloads := by
    rw [h.received, h.usable.position]
    exact List.mem_singleton_self _
  rw [deliver_received hrec]
  exact ⟨⟨h.used, List.mem_append_left _ h.delivered, h.usable⟩, h.receiver, h.written, h.tx, h.received, h.channel, h.caller⟩

theorem Sent.step (h : Sent P opts b tx₀ db m s) (e : Event H K G) : Sent P opts b tx₀ db m (move P opts b s e) := by
  cases e with
  | deliver now msg =>
    rcases h.receiver with hr | hr
    · simp only [move, hr]
      exact h.deliver now msg
    · simpa only [move, hr] using h
  | write => rcases h.receiver with hr | hr <;> simpa only [move, hr] using h
  | processed => rcases h.receiver with hr | hr <;> simpa only [move, hr] using h
  | quit =>
    simp only [move]
    split
    · exact ⟨⟨h.used, h.delivered, h.usable⟩, .inr rfl, h.written, h.tx, h.received, h.channel, h.caller⟩
    · exact h
  | takeUpdate =>
    simp only [move]
    split
    · rename_i u _ hu
      refine ⟨⟨h.used, h.delivered, h.usable⟩, h.receiver, h.written, h.tx, h.received, nofun, fun u' hu' => ?_⟩
      cases hu'
      exact h.channel u hu
    · exact h
  | takeErr => rcases h.receiver with hr | hr <;> cases hc : s.caller <;> simpa only [move, hr, hc] using h
  | timeout =>
    simp only [move]
    split
    · exact ⟨⟨h.used, h.delivered, h.usable⟩, h.receiver, h.written, h.tx, h.received, h.channel, nofun⟩
    · exact h
  | database db' =>
    exact ⟨⟨h.used, h.delivered, h.usable⟩, h.receiver, h.written, h.tx, h.received, h.channel, h.caller⟩

theorem step_inv (hlive : tx₀.Live) (s : State H K G) (e : Event H K G) (h : Inv P opts b tx₀ s) :
    Inv P opts b tx₀ (step P opts b s e) := by
  unfold SyncLoop.step
  split
  · exact h
  rcases h with h | ⟨db, m, ⟨rest, h⟩ | h⟩
  · exact h.step e
  · exact h.step hlive e
  · exact .inr ⟨db, m, .inr (h.step e)⟩

omit [DecidableEq H] in
theorem inv_start (db : DB H K G) (tx : Tx) : Inv P opts b tx (start db tx) := .inl ⟨rfl, rfl, rfl, rfl, rfl, nofun, nofun⟩

theorem deliver_delivered (now : Time) (msg : BlobRes H G) (s : State H K G) :
    (deliver P opts b now msg s).delivered = s.delivered ++ [msg] := by
  rcases deliver_cases P opts b now msg s with ⟨hd, -⟩ | ⟨-, hd | ⟨e, sync, -, -, hd⟩ | ⟨-, hd⟩⟩ <;> rw [hd]

theorem deliver_caller (now : Time) (msg : BlobRes H G) (s : State H K G) :
    (deliver P opts b now msg s).caller = s.caller := by
  rcases deliver_cases P opts b now msg s with ⟨hd, -⟩ | ⟨-, hd | ⟨e, sync, -, -, hd⟩ | ⟨-, hd⟩⟩ <;> rw [hd]

omit [DecidableEq H] in
theorem writeNext_eq (b : File) (x : Sector) (s : State H K G) :
    ∃ tx written, writeNext b x s = { s with sync := { s.sync with tx := tx }, written := written } := by
  unfold writeNext
  split
  · exact ⟨s.sync.tx, s.written, rfl⟩
  · exact ⟨_, _, rfl⟩

theorem delivered_step {s : State H K G} {e : Event H K G} {m : BlobRes H G} (h : m ∈ (step P opts b s e).delivered) :
    m ∈ s.delivered ∨ ∃ now, e = .deliver now m := by
  unfold SyncLoop.step at h
  split at h
  · exact .inl h
  cases e with
  | deliver now msg =>
    simp only [move] at h
    split at h
    · rw [deliver_delivered, List.mem_append, List.mem_singleton] at h
      rcases h with h | rfl
      · exact .inl h
      · exact .inr ⟨now, rfl⟩
    · exact .inl h
  | write =>
    simp only [move] at h
    split at h
    · rename_i x rest position u _
      obtain ⟨tx, written, hw⟩ := writeNext_eq b x s
      rw [hw] at h
      exact .inl h
    · exact .inl h
  | processed => simp only [move] at h; split at h <;> exact .inl h
  | quit => simp only [move] at h; split at h <;> exact .inl h
  | takeUpdate => simp only [move] at h; split at h <;> exact .inl h
  | takeErr => simp only [move] at h; split at h <;> exact .inl h
  | timeout => simp only [move] at h; split at h <;> exact .inl h
  | database db => exact .inl h

theorem delivered_run : ∀ {es : List (Event H K G)} {s : State H K G} {m : BlobRes H G},
    m ∈ (Machine.run (step P opts b) s es).delivered → m ∈ s.delivered ∨ ∃ now, .deliver now m ∈ es := by
  intro es
  induction es with
  | nil => intro s m h; exact .inl h
  | cons e es ih =>
    intro s m h
    rcases ih h with h | ⟨now, h⟩
    · rcases delivered_step h with h | ⟨now, rfl⟩
      · exact .inl h
      · exact .inr ⟨now, List.mem_cons_self⟩
    · exact .inr ⟨now, List.mem_cons_of_mem _ h⟩

/-- However the goroutines, the timer and other writers interleave, and whatever is delivered: an
    update that is returned is the update of the one response that was used. It passed every
    check against the database at that moment, its sectors were written once each and in order,
    and no others. It ends within the blob exactly when its end does not wrap. -/
theorem returned_update_sound_iff (P : Prims H K G) (opts : SyncSectorsOpts H) (b : File) (db₀ : DB H K G) {tx₀ : Tx}
    (hlive : tx₀.Live) (es : List (Event H K G)) {u : SyncUpdate H G}
    (h : (Machine.run (step P opts b) (start db₀ tx₀) es).caller = .returned (.ok (some u))) :
    let s := Machine.run (step P opts b) (start db₀ tx₀) es
    ∃ db m, s.used = [(db, m)] ∧ (∃ now, .deliver now m ∈ es) ∧
      m.name = opts.name ∧ m.payloadPosition = opts.sectorSize ∧ m.prevHash = opts.prevHash ∧
      opts.epochHeight ≤ m.epochHeight ∧
      validateBlobUpdate P db m.name m.epochHeight (endSize m.payloadPosition m.payload)
        (chain (serialHashSector P) m.prevHash m.payload) m.reservedRoot m.signature = .ok () ∧
      u = ⟨chain (serialHashSector P) m.prevHash m.payload, m.reservedRoot, m.signature⟩ ∧
      s.written = m.payload ∧ s.sync.tx = writeSectors b tx₀ m.payload ∧
      (m.payloadPosition.toNat + m.payload.length ≤ maxSectors ↔
        m.payloadPosition.toNat + m.payload.length < 65536) := by
  intro s
  have hinv : Inv P opts b tx₀ s := Machine.run_keeps _ (step_inv hlive) es _ (inv_start db₀ tx₀)
  rcases hinv with hi | ⟨db, m, ⟨rest, hi⟩ | hi⟩
  · exact absurd h (hi.caller u)
  · exact absurd h (hi.caller u)
  · have hsrc : ∃ now, .deliver now m ∈ es := by
      rcases delivered_run hi.delivered with hm | hm
      · cases hm
      · exact hm
    refine ⟨db, m, hi.used, hsrc, hi.usable.name, hi.usable.position.symm, hi.usable.prevHash.symm, hi.usable.epoch,
      hi.usable.valid, hi.caller u h, hi.written, hi.tx, ?_⟩
    have hsize := hi.usable.size
    have hmax : maxSectors = 4096 := rfl
    constructor
    · omega
    · intro hlt
      rwa [endSize_toNat hlt] at hsize

end

/-! ## Runs without other writers -/

/-- What the call returns, as `syncSectors` has it. -/
def toFault (r : Except SyncErr (Option (SyncUpdate H G))) : Except (Fault SyncErr) (Option (SyncUpdate H G)) :=
  match r with
  | .error e => .error (.err e)
  | .ok u => .ok u

/-- The database is the sync's alone, and a ban is dated `now`. -/
def Quiet (now : Time) : Event H K G → Prop
  | .deliver at_ _ => at_ = now
  | .database _ => False
  | _ => True

section

variable {P : Prims H K G} [DecidableEq H] {now : Time} {opts : SyncSectorsOpts H} {b : File} {s₀ : Sync H K G}

theorem syncSectors_append {msgs : List (BlobRes H G)} (more : List (BlobRes H G)) :
    ∀ {s : Sync H K G}, (syncSectors P now opts b s msgs).1 ≠ .ok none →
      syncSectors P now opts b s (msgs ++ more) = syncSectors P now opts b s msgs := by
  induction msgs with
  | nil => intro s h; exact absurd rfl h
  | cons msg msgs ih =>
    intro s h
    rcases hr : receive P now opts b s msg with ⟨_ | _ | _ | _, s'⟩
    · simp only [syncSectors, List.cons_append, hr] at h ⊢
      exact ih h
    all_goals simp only [syncSectors, List.cons_append, hr]

/-- How far a call that still waits has got, against `syncSectors` on what was delivered. -/
inductive Progress (P : Prims H K G) (now : Time) (opts : SyncSectorsOpts H) (b : File) (s₀ : Sync H K G)
    (s : State H K G) : Prop
  | undecided (receiver : s.receiver = .looking) (channel : s.payloadProcessedCh = none) (received : s.receivedPayloads = [])
      (sync : s.sync = s₀) (skipped : ∀ m ∈ s.delivered, receive P now opts b s₀ m = (.skipped, s₀))
  | failing {e : SyncErr} (receiver : s.receiver = .failing e) (channel : s.payloadProcessedCh = none)
      (result : (syncSectors P now opts b s₀ s.delivered).1 = .error (.err e))
  | writing {rest : List Sector} {u : SyncUpdate H G} (receiver : s.receiver = .writing rest opts.sectorSize u)
      (channel : s.payloadProcessedCh = none) (result : (syncSectors P now opts b s₀ s.delivered).1 = .ok (some u))
  | sent {u : SyncUpdate H G} (receiver : s.receiver = .looking) (channel : s.payloadProcessedCh = some u)
      (received : opts.sectorSize ∈ s.receivedPayloads) (result : (syncSectors P now opts b s₀ s.delivered).1 = .ok (some u))

structure Agrees (P : Prims H K G) (now : Time) (opts : SyncSectorsOpts H) (b : File) (s₀ : Sync H K G)
    (s : State H K G) : Prop where
  returned : ∀ r, s.caller = .returned r → r = .ok none ∨ (syncSectors P now opts b s₀ s.delivered).1 = toFault r
  waiting : s.crashed = false → s.caller = .waiting → Progress P now opts b s₀ s

theorem Progress.deliver {s : State H K G} (h : Progress P now opts b s₀ s) (hl : s.receiver = .looking) (msg : BlobRes H G)
    (hc : (SyncLoop.deliver P opts b now msg s).crashed = false) :
    Progress P now opts b s₀ (SyncLoop.deliver P opts b now msg s) := by
  cases h with
  | undecided _ hch hrec hsync hskip =>
    have hbefore := syncSectors_skip hskip [msg]
    rcases deliver_cases P opts b now msg s with ⟨hd, hp | hs⟩ | ⟨-, hd | ⟨e, sync, hs, -, hd⟩ | ⟨hu, hd⟩⟩
    · rw [hrec] at hp
      cases hp
    · rw [hd]
      refine .undecided hl hch hrec hsync fun m hm => ?_
      rcases List.mem_append.mp hm with hm | hm
      · exact hskip m hm
      · rw [List.mem_singleton.mp hm, ← hsync]
        exact hs
    · rw [hd] at hc
      cases hc
    · rw [hsync] at hs
      rw [hd]
      exact .failing rfl hch (by simp only [hbefore, syncSectors, hs])
    · rw [hsync] at hu
      rw [hd, ← hu.position]
      exact .writing rfl hch (by simp only [hbefore, syncSectors, receive_usable now b hu])
  | failing hr => rw [hl] at hr; cases hr
  | writing hr => rw [hl] at hr; cases hr
  | sent _ hch hrec hres =>
    rw [deliver_received hrec]
    refine .sent hl hch hrec ?_
    rw [syncSectors_append [msg] (by simp [hres])]
    exact hres

/-! What the receiver and the channel tell of the progress. -/

theorem Progress.of_writing {s : State H K G} (h : Progress P now opts b s₀ s) {rest : List Sector} {position : UInt16}
    {u : SyncUpdate H G} (hr : s.receiver = .writing rest position u) :
    position = opts.sectorSize ∧ s.payloadProcessedCh = none ∧
      (syncSectors P now opts b s₀ s.delivered).1 = .ok (some u) := by
  cases h with
  | undecided hr' => rw [hr] at hr'; cases hr'
  | failing hr' => rw [hr] at hr'; cases hr'
  | writing hr' hch hres =>
    rw [hr] at hr'
    cases hr'
    exact ⟨rfl, hch, hres⟩
  | sent hr' => rw [hr] at hr'; cases hr'

theorem Progress.of_failing {s : State H K G} (h : Progress P now opts b s₀ s) {e : SyncErr} (hr : s.receiver = .failing e) :
    (syncSectors P now opts b s₀ s.delivered).1 = .error (.err e) := by
  cases h with
  | undecided hr' => rw [hr] at hr'; cases hr'
  | failing hr' _ hres =>
    rw [hr] at hr'
    cases hr'
    exact hres
  | writing hr' => rw [hr] at hr'; cases hr'
  | sent hr' => rw [hr] at hr'; cases hr'

theorem Progress.of_channel {s : State H K G} (h : Progress P now opts b s₀ s) {u : SyncUpdate H G}
    (hu : s.payloadProcessedCh = some u) : (syncSectors P now opts b s₀ s.delivered).1 = .ok (some u) := by
  cases h with
  | undecided _ hch => rw [hch] at hu; cases hu
  | failing _ hch => rw [hch] at hu; cases hu
  | writing _ hch => rw [hch] at hu; cases hu
  | sent _ hch _ hres =>
    rw [hch] at hu
    cases hu
    exact hres

theorem Agrees.deliver {s : State H K G} (h : Agrees P now opts b s₀ s) (hc : s.crashed = false) (hl : s.receiver = .looking)
    (msg : BlobRes H G) : Agrees P now opts b s₀ (SyncLoop.deliver P opts b now msg s) := by
  refine ⟨fun r hr => ?_, fun hc' hw => ?_⟩
  · rw [deliver_caller] at hr
    rcases h.returned r hr with rfl | hres
    · exact .inl rfl
    by_cases hne : toFault r = .ok none
    · left
      cases r with
      | error e => cases hne
      | ok u => cases hne; rfl
    · right
      rw [deliver_delivered, syncSectors_append [msg] (by rw [hres]; exact hne)]
      exact hres
  · rw [deliver_caller] at hw
    exact (h.waiting hc hw).deliver hl msg hc'

theorem Agrees.step {s : State H K G} (h : Agrees P now opts b s₀ s) {e : Event H K G} (hq : Quiet now e) :
    Agrees P now opts b s₀ (step P opts b s e) := by
  unfold SyncLoop.step
  split
  · exact h
  rename_i hc
  have hc : s.crashed = false := by simpa using hc
  cases e with
  | deliver at_ msg =>
    obtain rfl : at_ = now := hq
    simp only [move]
    split
    · exact h.deliver hc ‹_› msg
    · exact h
  | write =>
    simp only [move]
    split
    · rename_i x rest position u hr
      obtain ⟨tx, written, hw⟩ := writeNext_eq b x s
      rw [hw]
      refine ⟨h.returned, fun _ hwait => ?_⟩
      obtain ⟨rfl, hch, hres⟩ := (h.waiting hc hwait).of_writing hr
      exact .writing rfl hch hres
    · exact h
  | processed =>
    simp only [move]
    split
    · rename_i position u hr _
      refine ⟨h.returned, fun _ hwait => ?_⟩
      obtain ⟨rfl, -, hres⟩ := (h.waiting hc hwait).of_writing hr
      exact .sent rfl rfl List.mem_cons_self hres
    · exact h
  | quit =>
    simp only [move]
    split
    · rename_i hr hret
      exact ⟨h.returned, fun _ hw => by rw [hret] at hw; cases hw⟩
    · exact h
  | takeUpdate =>
    simp only [move]
    split
    · rename_i u hw hu
      refine ⟨fun r hr => ?_, nofun⟩
      cases hr
      exact .inr ((h.waiting hc hw).of_channel hu)
    · exact h
  | takeErr =>
    simp only [move]
    split
    · rename_i e hw hr
      refine ⟨fun r hret => ?_, nofun⟩
      cases hret
      exact .inr ((h.waiting hc hw).of_failing hr)
    · exact h
  | timeout =>
    simp only [move]
    split
    · exact ⟨fun r hr => by cases hr; exact .inl rfl, nofun⟩
    · exact h
  | database db => exact hq.elim

/-- With the database to itself, the call returns what `syncSectors` makes of the delivered
    responses, unless the timer comes first. -/
theorem returned_agrees (P : Prims H K G) (now : Time) (opts : SyncSectorsOpts H) (b : File) (db : DB H K G) (tx : Tx)
    {es : List (Event H K G)} (hq : ∀ e ∈ es, Quiet now e) {r : Except SyncErr (Option (SyncUpdate H G))}
    (h : (Machine.run (step P opts b) (start db tx) es).caller = .returned r) :
    r = .ok none ∨
      (syncSectors P now opts b ⟨db, tx, []⟩ (Machine.run (step P opts b) (start db tx) es).delivered).1 = toFault r := by
  have hstart : Agrees P now opts b ⟨db, tx, []⟩ (start db tx) :=
    ⟨nofun, fun _ _ => .undecided rfl rfl rfl rfl nofun⟩
  have hrun := Machine.run_inv (Agrees P now opts b ⟨db, tx, []⟩) (fun s e hs hok => hs.step hok.2) es _ hstart
    (Machine.Along.and_mem (Machine.along_true es _) hq)
  exact hrun.returned r h

end

/-! ## The first usable response -/

section

variable {P : Prims H K G} [DecidableEq H] {now : Time} {opts : SyncSectorsOpts H} {b : File} {s : Sync H K G}

/-- The response is for another sync, or too large, or contradicts a header that is not there. -/
def PassedOver (P : Prims H K G) (db : DB H K G) (opts : SyncSectorsOpts H) (msg : BlobRes H G) : Prop :=
  msg.name ≠ opts.name ∨ opts.epochHeight > msg.epochHeight ∨ opts.sectorSize ≠ msg.payloadPosition ∨
  (endSize msg.payloadPosition msg.payload).toNat > maxSectors ∨
  (validateBlobUpdate P db msg.name msg.epochHeight (endSize msg.payloadPosition msg.payload)
      (chain (serialHashSector P) msg.prevHash msg.payload) msg.reservedRoot msg.signature = .ok () ∧
    opts.prevHash ≠ msg.prevHash ∧ opts.epochHeight = msg.epochHeight ∧ db.equivocationProofs msg.name = none ∧
    db.headers msg.name = none)

theorem receive_skipped_iff {msg : BlobRes H G} :
    receive P now opts b s msg = (.skipped, s) ↔ PassedOver P s.db opts msg := by
  by_cases hn : msg.name ≠ opts.name
  · exact iff_of_true (by simp only [receive, if_pos hn]) (.inl hn)
  by_cases he : opts.epochHeight > msg.epochHeight
  · exact iff_of_true (by simp only [receive, if_neg hn, if_pos he]) (.inr (.inl he))
  by_cases hp : opts.sectorSize ≠ msg.payloadPosition
  · exact iff_of_true (receive_position hp) (.inr (.inr (.inl hp)))
  by_cases hs : (endSize msg.payloadPosition msg.payload).toNat > maxSectors
  · exact iff_of_true (by simp only [receive, if_neg hn, if_neg he, if_neg hp, if_pos hs]) (.inr (.inr (.inr (.inl hs))))
  simp only [PassedOver, hn, he, hp, hs, false_or, receive, if_false]
  cases validateBlobUpdate P s.db msg.name msg.epochHeight (endSize msg.payloadPosition msg.payload)
      (chain (serialHashSector P) msg.prevHash msg.payload) msg.reservedRoot msg.signature with
  | error f => cases f <;> simp
  | ok _ =>
    by_cases hh : opts.prevHash ≠ msg.prevHash
    · by_cases heq : opts.epochHeight = msg.epochHeight
      · cases s.db.equivocationProofs msg.name <;> cases s.db.headers msg.name <;> simp [hh, heq]
      · simp [hh, heq]
    · simp [hh]

/-- The messages before the first usable one do not end the sync exactly when each is passed over. -/
theorem first_usable_returned_iff (P : Prims H K G) (now : Time) (opts : SyncSectorsOpts H) (b : File) (s : Sync H K G)
    {before : List (BlobRes H G)} {msg : BlobRes H G} (after : List (BlobRes H G))
    (hfirst : ∀ m ∈ before, ¬ Usable P s.db opts m) (hmsg : Usable P s.db opts msg) :
    (syncSectors P now opts b s (before ++ msg :: after)).1 = .ok (some (updateOf P msg)) ↔
      ∀ m ∈ before, PassedOver P s.db opts m := by
  constructor
  · intro h
    induction before with
    | nil => nofun
    | cons m before ih =>
      rcases receive_cases P now opts b s m with hs | hs | ⟨e, hs⟩ | ⟨he, -, header, hh⟩ | hu
      · have hrest := ih (fun m hm => hfirst m (List.mem_cons_of_mem _ hm)) (by
          simpa only [syncSectors, List.cons_append, hs] using h)
        intro m' hm'
        rcases List.mem_cons.mp hm' with rfl | hm'
        · exact receive_skipped_iff.mp hs
        · exact hrest m' hm'
      · simp only [syncSectors, List.cons_append, hs] at h
        cases h
      · simp only [syncSectors, List.cons_append, hs] at h
        cases h
      · simp only [syncSectors, List.cons_append, receive_equivocates now b he hh] at h
        cases h
      · exact absurd hu (hfirst m List.mem_cons_self)
  · intro hskip
    rw [syncSectors_skip fun m hm => receive_skipped_iff.mpr (hskip m hm)]
    simp only [syncSectors, receive_usable now b hmsg]

end

/-! ## A publisher and another -/

open Symbolic (prims site names fill res)

/-- A sync of the site from its first sector on, at epoch 5. -/
def fromStart : SyncSectorsOpts Symbolic.Sym := ⟨5, 0, 0, site⟩

def emptyTx : Tx := Tx.new site

/-- A response for another name, one from a later sector on, and the one of two sectors that is used;
    another comes while it is written. -/
def fourResponses : List (Event Symbolic.Sym Nat Symbolic.Sig) :=
  [.deliver 0 { res 5 [] [fill 0] with name := [0x62] }, .deliver 0 (res 5 [fill 0] [fill 1]),
    .deliver 1 (res 5 [] [fill 0, fill 1]), .write, .deliver 2 (res 5 [] [fill 0]), .write, .processed, .takeUpdate]

theorem the_fitting_response_is_used :
    ∃ db m, (Machine.run (step prims fromStart File.zero) (start names emptyTx) fourResponses).used = [(db, m)] ∧
      (Machine.run (step prims fromStart File.zero) (start names emptyTx) fourResponses).written = m.payload ∧
      m.payload = [fill 0, fill 1] := by
  have hlive : emptyTx.Live := ⟨rfl, rfl⟩
  have hwrote : (Machine.run (step prims fromStart File.zero) (start names emptyTx) fourResponses).written =
    [fill 0, fill 1] := by
    decide +kernel
  obtain ⟨db, m, hused, -, -, -, -, -, -, -, hwritten, -⟩ :=
    returned_update_sound_iff prims fromStart File.zero names hlive fourResponses
      (u := updateOf prims (res 5 [] [fill 0, fill 1])) (by decide +kernel)
  exact ⟨db, m, hused, hwritten, hwritten.symm.trans hwrote⟩

/-- A sync that is told its copy has 65535 sectors. -/
def fromTheEnd : SyncSectorsOpts Symbolic.Sym := ⟨5, 65535, 0, site⟩

/-- One more sector, signed at the size that is left of 65536. -/
def wrapping : BlobRes Symbolic.Sym Symbolic.Sig :=
  ⟨site, 5, 65535, 0, 0, [fill 0], Symbolic.sign 5 0 (Symbolic.tipOf [fill 0])⟩

/-- The response ends at sector 65536, sixteen times the bound, and is used. -/
theorem a_size_wraps_past_the_bound :
    let s := Machine.run (step prims fromTheEnd File.zero) (start names emptyTx)
      [.deliver 0 wrapping, .write, .processed, .takeUpdate]
    s.caller = .returned (.ok (some (updateOf prims wrapping))) ∧ s.used.map Prod.snd = [wrapping] ∧
    s.written = wrapping.payload ∧ ¬ wrapping.payloadPosition.toNat + wrapping.payload.length ≤ maxSectors := by
  decide +kernel

/-- The publisher's response, and the same one without its signature. -/
def good : BlobRes Symbolic.Sym Symbolic.Sig := res 5 [] [fill 0]

def unsigned : BlobRes Symbolic.Sym Symbolic.Sig := { good with signature := ⟨2, 0⟩ }

theorem good_usable : Usable prims names fromStart good where
  name := rfl
  epoch := by decide
  position := rfl
  size := by decide +kernel
  valid := by decide +kernel
  prevHash := rfl

def elsewhere : BlobRes Symbolic.Sym Symbolic.Sig := { good with name := [0x62] }

/-- A response for another name comes first and is passed over. -/
theorem the_good_response_is_returned :
    (syncSectors prims 0 fromStart File.zero ⟨names, emptyTx, []⟩ [elsewhere, good, unsigned]).1 =
      .ok (some (updateOf prims good)) := by
  have hother : ∀ m ∈ [elsewhere], m.name ≠ fromStart.name := by decide
  exact (first_usable_returned_iff prims 0 fromStart File.zero ⟨names, emptyTx, []⟩ [unsigned]
    (fun m hm hu => hother m hm hu.name) good_usable).mpr fun m hm => .inl (hother m hm)

/-- An unsigned response comes first, from whatever peer: the sync fails, whoever answers after it. -/
theorem one_bad_responder_ends_the_sync :
    Usable prims names fromStart good ∧
    (syncSectors prims 0 fromStart File.zero ⟨names, emptyTx, []⟩ [unsigned, good]).1 =
      .error (.err .invalidPayloadSignature) :=
  ⟨good_usable, by decide +kernel⟩

end Fnd.Protocol.SyncLoop

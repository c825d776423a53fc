/-
  Fnd.Protocol.PeerExchanger — the exchange of peers (`protocol/peer_exchanger.go`).

  A node asks all its peers for peers, then marks each of them in an expiring cache; it dials what
  a marked peer answers. Answers are handled by goroutines of their own, which look for the mark,
  delete it, and dial peer after peer.

  (1) What is dialed (`dials_answer_requests`), in every interleaving: of an answer that finds a
  mark each peer is dialed once, of any other none. Such an answer comes from a peer that was asked,
  and not later than the timeout after it was marked. A mark lets one answer in, and one more for
  each that looks for it before the first has deleted it.

  (2) What is answered (`reply_names_stored_peers`): up to 255 of the stored peers, in the order of
  their keys and without those that are banned in either direction, then shuffled. The peer that
  asked reads them as they were sent, IPs in their long form. One IP that does not parse, and
  nothing is sent.

  The marks are set when all requests are out: an answer that is faster is dropped, and the mark
  then lets in a later one. How many peers an answer has is bounded by the wire format alone.
-/

import Fnd.Lib.Machine
import Fnd.Lib.Weight
import Fnd.Store.PeerStream
import Fnd.Util.Cache
import Fnd.Wire.Codec

namespace Fnd.Protocol

open Util (Cache millisecond)
open Wire (Peer)

/-! ## What is dialed -/

variable {D : Type}

/-- A goroutine of `handlePeerRes`. -/
inductive Handler (D : Type) where
  | checking (peerID : D) (peers : List (Peer D))
  | deleting (peerID : D) (peers : List (Peer D))
  | dialing (peerID : D) (peers : List (Peer D))
  deriving DecidableEq

/-- What `Start` does next. -/
inductive Exchange (D : Type) where
  | idle
  /-- in `BroadcastAll`, and all its recipients -/
  | asking (todo recips : List D)
  | marking (todo : List D)
  deriving DecidableEq

/-- The last five fields are history: the calls of `Send`, of `Set`, the answers that found a mark,
    those of them that found it while another was about to delete it, and the dials. -/
structure PeerExchanger (D : Type) where
  responseTimeoutMS : Int
  clock : Time
  loop : Exchange D
  cache : Cache D Bool
  handlers : List (Handler D)
  asked : List (D × Time)
  marked : List (D × Time)
  accepted : List (D × List (Peer D) × Time)
  overlapped : List D
  dialed : List (D × Peer D)

namespace PeerExchanger

def new (responseTimeoutMS : Int) (start : Time) : PeerExchanger D :=
  ⟨responseTimeoutMS, start, .idle, Cache.new, [], [], [], [], [], []⟩

inductive Event (D : Type) where
  | clock (now : Time)
  /-- the ticker; `PeerIDs` of the muxer -/
  | tick (recips : List D)
  | send
  | mark
  | receive (peerID : D) (peers : List (Peer D))
  | check (handler : Nat)
  | delete (handler : Nat)
  | dial (handler : Nat)
  | reap

variable [DecidableEq D]

def deletes (peerID : D) : Handler D → Nat
  | .deleting id _ => if id = peerID then 1 else 0
  | _ => 0

/-- How many goroutines have found the mark of `peerID` and not deleted it. -/
def deleting (s : PeerExchanger D) (peerID : D) : Nat := (s.handlers.map (deletes peerID)).sum

/-- `Set` for a recipient. -/
def mark (s : PeerExchanger D) (recip : D) (todo : List D) : PeerExchanger D :=
  { s with
    loop := .marking todo
    cache := s.cache.set s.clock recip true s.responseTimeoutMS
    marked := s.marked ++ [(recip, s.clock)] }

/-- `Has` finds the mark. -/
def accept (s : PeerExchanger D) (i : Nat) (peerID : D) (peers : List (Peer D)) : PeerExchanger D :=
  { s with
    handlers := s.handlers.set i (.deleting peerID peers)
    accepted := s.accepted ++ [(peerID, peers, s.clock)]
    overlapped := if 0 < s.deleting peerID then s.overlapped ++ [peerID] else s.overlapped }

def next (s : PeerExchanger D) : Event D → Option (PeerExchanger D)
  | .clock now => some { s with clock := max s.clock now }
  | .tick recips =>
    match s.loop with
    | .idle => some { s with loop := .asking recips recips }
    | _ => none
  | .send =>
    match s.loop with
    | .asking [] recips => some { s with loop := .marking recips }
    | .asking (recip :: todo) recips => some { s with loop := .asking todo recips, asked := s.asked ++ [(recip, s.clock)] }
    | _ => none
  | .mark =>
    match s.loop with
    | .marking [] => some { s with loop := .idle }
    | .marking (recip :: todo) => some (s.mark recip todo)
    | _ => none
  | .receive peerID peers => some { s with handlers := s.handlers ++ [.checking peerID peers] }
  | .check i =>
    match s.handlers[i]? with
    | some (.checking peerID peers) =>
      match s.cache.get s.clock peerID with
      | (none, cache) => some { s with cache := cache, handlers := s.handlers.eraseIdx i }
      | (some _, cache) => some ({ s with cache := cache }.accept i peerID peers)
    | _ => none
  | .delete i =>
    match s.handlers[i]? with
    | some (.deleting peerID peers) =>
      some { s with cache := s.cache.del peerID, handlers := s.handlers.set i (.dialing peerID peers) }
    | _ => none
  | .dial i =>
    match s.handlers[i]? with
    | some (.dialing _ []) => some { s with handlers := s.handlers.eraseIdx i }
    | some (.dialing peerID (peer :: peers)) =>
      some { s with handlers := s.handlers.set i (.dialing peerID peers), dialed := s.dialed ++ [(peerID, peer)] }
    | _ => none
  | .reap => some { s with cache := s.cache.reap s.clock }

def step (s : PeerExchanger D) (e : Event D) : PeerExchanger D := (s.next e).getD s

/-! ### Invariants -/

/-- When `Set` lets an entry expire. -/
def expiresAt (responseTimeoutMS : Int) (t : Time) : Time :=
  if responseTimeoutMS = 0 then 32767 else t + responseTimeoutMS * millisecond

omit [DecidableEq D] in
/-- `peerID` was asked by `t`. -/
def AskedBy (s : PeerExchanger D) (peerID : D) (t : Time) : Prop := ∃ t₀ ≤ t, (peerID, t₀) ∈ s.asked

/-- The recipients that will be marked were asked, or will be first. -/
def Exchange.Ok (s : PeerExchanger D) : Exchange D → Prop
  | .idle => True
  | .asking todo recips => ∀ recip ∈ recips, recip ∈ todo ∨ s.AskedBy recip s.clock
  | .marking todo => ∀ recip ∈ todo, s.AskedBy recip s.clock

/-- Of the peers in an answer, how many times `peer` is still to be dialed for `peerID`. -/
def pending (peerID : D) (peer : Peer D) : Handler D → Nat
  | .checking _ _ => 0
  | .deleting id peers | .dialing id peers => if id = peerID then peers.count peer else 0

def named (peerID : D) (peer : Peer D) (a : D × List (Peer D) × Time) : Nat := if a.1 = peerID then a.2.1.count peer else 0

/-- The mark of `peerID` is there, and nobody is about to delete it. -/
def unclaimed (s : PeerExchanger D) (peerID : D) : Nat := if (s.cache peerID).isSome ∧ s.deleting peerID = 0 then 1 else 0

structure Inv (ms : Int) (s : PeerExchanger D) : Prop where
  timeout : s.responseTimeoutMS = ms
  loop : Exchange.Ok s s.loop
  marked : ∀ m ∈ s.marked, m.2 ≤ s.clock ∧ s.AskedBy m.1 m.2
  entry : ∀ peerID entry, s.cache peerID = some entry → ∃ t, (peerID, t) ∈ s.marked ∧ entry.expiry = expiresAt ms t
  accepted : ∀ a ∈ s.accepted, ∃ t, (a.1, t) ∈ s.marked ∧ t ≤ a.2.2 ∧ a.2.2 ≤ expiresAt ms t
  counts : ∀ peerID, (s.accepted.map Prod.fst).count peerID + s.unclaimed peerID ≤
    (s.marked.map Prod.fst).count peerID + s.overlapped.count peerID
  dials : ∀ peerID peer, s.dialed.count (peerID, peer) + (s.handlers.map (pending peerID peer)).sum =
    (s.accepted.map (named peerID peer)).sum

theorem inv_new (responseTimeoutMS : Int) (start : Time) :
    Inv responseTimeoutMS (new responseTimeoutMS start : PeerExchanger D) :=
  ⟨rfl, trivial, nofun, nofun, nofun, fun _ => Nat.zero_le _, fun _ _ => rfl⟩

variable {ms : Int} {s s' : PeerExchanger D}

/-- Without a mark, or with one that somebody is about to delete, no answer gets in on its own. -/
theorem unclaimed_le (s : PeerExchanger D) (peerID : D) : s.unclaimed peerID ≤ 1 := by
  unfold unclaimed
  split <;> omega

theorem unclaimed_mono {peerID : D} (hcache : (s'.cache peerID).isSome → (s.cache peerID).isSome)
    (hdeleting : s'.deleting peerID = s.deleting peerID) : s'.unclaimed peerID ≤ s.unclaimed peerID := by
  unfold unclaimed
  rw [hdeleting]
  split
  · rename_i hopen
    rw [if_pos ⟨hcache hopen.1, hopen.2⟩]
  · exact Nat.zero_le _

theorem deleting_set {i : Nat} {x : Handler D} (hi : s.handlers[i]? = some x) (y : Handler D) (peerID : D) :
    deleting { s with handlers := s.handlers.set i y } peerID + deletes peerID x = s.deleting peerID + deletes peerID y :=
  Weight.sum_set (deletes peerID) hi y

theorem Inv.clock (h : Inv ms s) (now : Time) : Inv ms { s with clock := max s.clock now } := by
  have hle : s.clock ≤ max s.clock now := le_max_left _ _
  have hasked : ∀ recip, s.AskedBy recip s.clock → s.AskedBy recip (max s.clock now) := by
    rintro recip ⟨t₀, ht₀, hmem⟩
    exact ⟨t₀, le_trans ht₀ hle, hmem⟩
  refine { h with loop := ?_, marked := fun m hm => ⟨le_trans (h.marked m hm).1 hle, (h.marked m hm).2⟩ }
  have hloop := h.loop
  dsimp only
  cases hl : s.loop with
  | idle => trivial
  | asking todo recips =>
    rw [hl] at hloop
    exact fun recip hrecip => (hloop recip hrecip).imp_right (hasked recip)
  | marking todo =>
    rw [hl] at hloop
    exact fun recip hrecip => hasked recip (hloop recip hrecip)

theorem Inv.send (h : Inv ms s) (hs : s.next .send = some s') : Inv ms s' := by
  simp only [PeerExchanger.next] at hs
  split at hs
  · rename_i recips hloop
    cases hs
    refine { h with loop := fun recip hrecip => ?_ }
    have hok := h.loop
    rw [hloop] at hok
    rcases hok recip hrecip with hmem | hasked
    · cases hmem
    · exact hasked
  · rename_i recip todo recips hloop
    cases hs
    have hkeeps : ∀ peerID t, s.AskedBy peerID t →
        AskedBy { s with loop := .asking todo recips, asked := s.asked ++ [(recip, s.clock)] } peerID t := by
      rintro peerID t ⟨t₀, ht₀, hmem⟩
      exact ⟨t₀, ht₀, List.mem_append_left _ hmem⟩
    refine { h with loop := fun other hother => ?_, marked := fun m hm => ⟨(h.marked m hm).1, hkeeps _ _ (h.marked m hm).2⟩ }
    have hok := h.loop
    rw [hloop] at hok
    rcases hok other hother with hmem | hasked
    · rcases List.mem_cons.mp hmem with rfl | hmem
      · exact .inr ⟨s.clock, le_refl _, List.mem_append_right _ List.mem_cons_self⟩
      · exact .inl hmem
    · exact .inr (hkeeps _ _ hasked)
  · cases hs

theorem mark_cache {recip peerID : D} {todo : List D} (hp : peerID ≠ recip) : (s.mark recip todo).cache peerID = s.cache peerID :=
  Function.update_of_ne hp _ _

theorem Inv.mark (h : Inv ms s) {recip : D} {todo : List D} (hloop : s.loop = .marking (recip :: todo)) :
    Inv ms (s.mark recip todo) := by
  have hok := h.loop
  rw [hloop] at hok
  obtain ⟨hrecip, htodo⟩ := List.forall_mem_cons.mp hok
  refine { h with
    loop := htodo, marked := ?_, entry := fun peerID entry he => ?_, accepted := fun a ha => ?_, counts := fun peerID => ?_ }
  · exact List.forall_mem_append.mpr ⟨h.marked, List.forall_mem_singleton.mpr ⟨le_refl _, hrecip⟩⟩
  · by_cases hp : peerID = recip
    · subst hp
      simp only [PeerExchanger.mark, Cache.set, Function.update_self, Option.some.injEq] at he
      subst he
      exact ⟨s.clock, List.mem_append_right _ List.mem_cons_self, by rw [h.timeout]; rfl⟩
    · rw [mark_cache hp] at he
      obtain ⟨t, hmem, hexp⟩ := h.entry peerID entry he
      exact ⟨t, List.mem_append_left _ hmem, hexp⟩
  · obtain ⟨t, hmem, ht⟩ := h.accepted a ha
    exact ⟨t, List.mem_append_left _ hmem, ht⟩
  · have hcounts := h.counts peerID
    have hmarked : ((s.mark recip todo).marked.map Prod.fst).count peerID =
        (s.marked.map Prod.fst).count peerID + if recip == peerID then 1 else 0 := by
      simp only [PeerExchanger.mark, List.map_append, List.count_append, List.map_cons, List.map_nil, List.count_singleton]
    have hopen : (s.mark recip todo).unclaimed peerID ≤ s.unclaimed peerID + if recip == peerID then 1 else 0 := by
      by_cases hp : recip = peerID
      · rw [if_pos (beq_iff_eq.mpr hp)]
        exact Nat.le_trans (unclaimed_le _ _) (Nat.le_add_left _ _)
      · have hsame : (s.mark recip todo).unclaimed peerID ≤ s.unclaimed peerID :=
          unclaimed_mono (by rw [mark_cache (Ne.symm hp)]; exact id) rfl
        omega
    rw [hmarked]
    show (s.accepted.map Prod.fst).count peerID + _ ≤ _ + s.overlapped.count peerID
    omega

theorem Inv.accept (h : Inv ms s) {i : Nat} {peerID : D} {peers : List (Peer D)}
    (hi : s.handlers[i]? = some (.checking peerID peers))
    {entry : Util.Entry Bool} (hentry : s.cache peerID = some entry) (hlive : s.clock ≤ entry.expiry) :
    Inv ms (s.accept i peerID peers) := by
  obtain ⟨t, hmem, hexp⟩ := h.entry peerID entry hentry
  refine { h with accepted := ?_, counts := fun other => ?_, dials := fun other peer => ?_ }
  · refine List.forall_mem_append.mpr ⟨h.accepted, List.forall_mem_singleton.mpr ⟨t, hmem, ?_, hexp ▸ hlive⟩⟩
    exact (h.marked _ hmem).1
  · have hcounts := h.counts other
    have haccepted : ((s.accept i peerID peers).accepted.map Prod.fst).count other =
        (s.accepted.map Prod.fst).count other + if peerID == other then 1 else 0 := by
      simp only [PeerExchanger.accept, List.map_append, List.count_append, List.map_cons, List.map_nil, List.count_singleton]
    have hdeleting : (s.accept i peerID peers).deleting other = s.deleting other + if peerID = other then 1 else 0 :=
      deleting_set hi (.deleting peerID peers) other
    by_cases hp : peerID = other
    · subst hp
      -- it takes the mark, or it is one of those that overlap
      have hopen : (s.accept i peerID peers).unclaimed peerID = 0 := by
        rw [unclaimed, hdeleting, if_pos rfl, if_neg fun hzero => by omega]
      have hoverlapped : s.unclaimed peerID + (s.accept i peerID peers).overlapped.count peerID =
        s.overlapped.count peerID + 1 := by
        simp only [unclaimed, PeerExchanger.accept, hentry, Option.isSome_some, true_and]
        by_cases hzero : s.deleting peerID = 0
        · rw [if_pos hzero, if_neg (by omega)]
          omega
        · rw [if_neg hzero, if_pos (by omega), List.count_append, List.count_singleton_self]
          omega
      rw [haccepted, hopen, if_pos (beq_self_eq_true peerID)]
      show _ ≤ (s.marked.map Prod.fst).count peerID + _
      omega
    · have hopen : (s.accept i peerID peers).unclaimed other ≤ s.unclaimed other := by
        refine unclaimed_mono id ?_
        rw [hdeleting, if_neg hp]
        rfl
      have hoverlapped : s.overlapped.count other ≤ (s.accept i peerID peers).overlapped.count other := by
        simp only [PeerExchanger.accept]
        split
        · rw [List.count_append]
          exact Nat.le_add_right _ _
        · exact Nat.le_refl _
      rw [haccepted, if_neg (fun heq => hp (beq_iff_eq.mp heq))]
      show _ ≤ (s.marked.map Prod.fst).count other + _
      omega
  · have hdials := h.dials other peer
    have hsum := Weight.sum_set (pending other peer) hi (.deleting peerID peers)
    have hnamed : ((s.accept i peerID peers).accepted.map (named other peer)).sum =
        (s.accepted.map (named other peer)).sum + if peerID = other then peers.count peer else 0 := by
      simp only [PeerExchanger.accept, List.map_append, List.sum_append, List.map_cons, List.map_nil, List.sum_cons,
        List.sum_nil, named,
        Nat.add_zero]
    simp only [pending] at hsum
    rw [hnamed]
    show s.dialed.count (other, peer) + ((s.handlers.set i (.deleting peerID peers)).map (pending other peer)).sum = _
    omega

/-- A goroutine changes or ends that does not delete a mark, and the cache loses entries at most. -/
theorem Inv.lose (h : Inv ms s) {cache : Cache D Bool}
    (hcache : ∀ peerID entry, cache peerID = some entry → s.cache peerID = some entry)
    {handlers : List (Handler D)} {dialed : List (D × Peer D)}
    (hdeletes : ∀ peerID, (cache peerID).isSome → (handlers.map (deletes peerID)).sum = s.deleting peerID)
    (hdials : ∀ peerID peer, dialed.count (peerID, peer) + (handlers.map (pending peerID peer)).sum =
      s.dialed.count (peerID, peer) + (s.handlers.map (pending peerID peer)).sum) :
    Inv ms { s with cache := cache, handlers := handlers, dialed := dialed } := by
  refine { h with entry := fun peerID entry he => h.entry peerID entry (hcache peerID entry he), counts := fun peerID => ?_,
                  dials := fun peerID peer => (hdials peerID peer).trans (h.dials peerID peer) }
  refine Nat.le_trans (Nat.add_le_add_left ?_ _) (h.counts peerID)
  unfold unclaimed
  split
  · rename_i hopen
    obtain ⟨entry, he⟩ := Option.isSome_iff_exists.mp hopen.1
    rw [if_pos ⟨by rw [hcache peerID entry he]; rfl, (hdeletes peerID hopen.1).symm.trans hopen.2⟩]
  · exact Nat.zero_le _

theorem Inv.check (h : Inv ms s) {i : Nat} (hs : s.next (.check i) = some s') : Inv ms s' := by
  simp only [PeerExchanger.next] at hs
  split at hs
  · rename_i peerID peers hi
    split at hs
    · rename_i cache hget
      cases hs
      have hcache := Cache.get_none hget
      refine h.lose (fun other entry he => ?_) (fun other _ => ?_) (fun other peer => ?_)
      · rw [hcache] at he
        exact (Cache.del_some he).2
      · have hsum := Weight.sum_eraseIdx (deletes other) hi
        exact hsum
      · have hsum := Weight.sum_eraseIdx (pending other peer) hi
        rw [← hsum]
        rfl
    · rename_i v cache hget
      cases hs
      obtain ⟨rfl, -⟩ := Cache.get_some hget
      obtain ⟨entry, he, hlive⟩ := Cache.get_live hget
      exact h.accept hi he hlive
  · cases hs

theorem Inv.delete (h : Inv ms s) {i : Nat} (hs : s.next (.delete i) = some s') : Inv ms s' := by
  simp only [PeerExchanger.next] at hs
  split at hs
  · rename_i peerID peers hi
    cases hs
    refine h.lose (fun other entry he => (Cache.del_some he).2) (fun other hsome => ?_) (fun other peer => ?_)
    · obtain ⟨entry, he⟩ := Option.isSome_iff_exists.mp hsome
      have hsum := Weight.sum_set (deletes other) hi (.dialing peerID peers)
      have hother : deletes other (.deleting peerID peers) = 0 := if_neg (Ne.symm (Cache.del_some he).1)
      rw [hother] at hsum
      exact hsum
    · have hsum := Weight.sum_set (pending other peer) hi (.dialing peerID peers)
      simp only [pending] at hsum
      omega
  · cases hs

theorem Inv.dial (h : Inv ms s) {i : Nat} (hs : s.next (.dial i) = some s') : Inv ms s' := by
  simp only [PeerExchanger.next] at hs
  split at hs
  · rename_i peerID hi
    cases hs
    refine h.lose (fun _ _ he => he) (fun other _ => Weight.sum_eraseIdx (deletes other) hi) (fun other peer => ?_)
    have hsum := Weight.sum_eraseIdx (pending other peer) hi
    simp only [pending, List.count_nil, ite_self] at hsum
    omega
  · rename_i peerID peer peers hi
    cases hs
    refine h.lose (fun _ _ he => he) (fun other _ => Weight.sum_set (deletes other) hi (.dialing peerID peers))
      (fun other peer' => ?_)
    have hsum := Weight.sum_set (pending other peer') hi (.dialing peerID peers)
    have hcons : (if peerID = other then (peer :: peers).count peer' else 0) =
        (if peerID = other then peers.count peer' else 0) + [(peerID, peer)].count (other, peer') := by
      by_cases hp : peerID = other
      · simp [hp, List.count_cons]
      · simp [hp]
    simp only [pending, hcons] at hsum
    rw [List.count_append]
    omega
  · cases hs

theorem Inv.next (h : Inv ms s) {e : Event D} (hs : s.next e = some s') : Inv ms s' := by
  cases e with
  | clock now => cases hs; exact h.clock now
  | tick recips =>
    simp only [PeerExchanger.next] at hs
    split at hs
    · cases hs
      exact { h with loop := fun recip hrecip => .inl hrecip }
    · cases hs
  | send => exact h.send hs
  | mark =>
    simp only [PeerExchanger.next] at hs
    split at hs
    · cases hs
      exact { h with loop := trivial }
    · rename_i recip todo hloop
      cases hs
      exact h.mark hloop
    · cases hs
  | receive peerID peers =>
    cases hs
    refine h.lose (fun _ _ he => he) (fun other _ => ?_) (fun other peer => ?_)
    · rw [List.map_append, List.sum_append]
      rfl
    · rw [List.map_append, List.sum_append]
      rfl
  | check i => exact h.check hs
  | delete i => exact h.delete hs
  | dial i => exact h.dial hs
  | reap =>
    cases hs
    exact h.lose (fun _ _ he => Cache.reap_some he) (fun _ _ => rfl) (fun _ _ => rfl)

theorem inv_run (responseTimeoutMS : Int) (start : Time) (es : List (Event D)) :
    Inv responseTimeoutMS (Machine.run step (new responseTimeoutMS start) es) := by
  refine Machine.run_keeps (Inv responseTimeoutMS) (fun s e h => ?_) es _ (inv_new responseTimeoutMS start)
  unfold step
  cases hs : s.next e with
  | none => exact h
  | some s' => exact h.next hs

/-- Over every interleaving, at a timeout of so many milliseconds: an answer that is let in comes
    from a peer that was asked, and while its mark is good; one for each mark, and those that
    overlap; and once no goroutine is left, the peers that were dialed are those of the answers let
    in, each as often as it was named. -/
theorem dials_answer_requests (responseTimeoutMS : Int) (start : Time) (es : List (Event D)) :
    let s := Machine.run step (new responseTimeoutMS start) es
    (∀ peerID peers t, (peerID, peers, t) ∈ s.accepted →
      ∃ t₀ t₁, (peerID, t₀) ∈ s.asked ∧ t₀ ≤ t₁ ∧ (peerID, t₁) ∈ s.marked ∧ t₁ ≤ t ∧ t ≤ expiresAt responseTimeoutMS t₁) ∧
    (∀ peerID, (s.accepted.map Prod.fst).count peerID ≤ (s.marked.map Prod.fst).count peerID + s.overlapped.count peerID) ∧
    (∀ peerID peer, s.dialed.count (peerID, peer) ≤ (s.accepted.map (named peerID peer)).sum) ∧
    (s.handlers = [] → ∀ peerID peer, s.dialed.count (peerID, peer) = (s.accepted.map (named peerID peer)).sum) := by
  intro s
  have h : Inv responseTimeoutMS s := inv_run responseTimeoutMS start es
  refine ⟨fun peerID peers t ha => ?_, fun peerID => ?_, fun peerID peer => ?_, fun hnone peerID peer => ?_⟩
  · obtain ⟨t₁, hmem, hle, hlive⟩ := h.accepted _ ha
    obtain ⟨-, t₀, ht₀, hasked⟩ := h.marked _ hmem
    exact ⟨t₀, t₁, hasked, ht₀, hmem, hle, hlive⟩
  · exact Nat.le_trans (Nat.le_add_right _ _) (h.counts peerID)
  · exact Nat.le_trans (Nat.le_add_right _ _) (Nat.le_of_eq (h.dials peerID peer))
  · have hdials := h.dials peerID peer
    rw [hnone] at hdials
    exact hdials

-- Two answers of one peer look for its mark before either deletes it.
example :
    let s := Machine.run step (new 10000 0 : PeerExchanger Nat)
      [.tick [7], .send, .send, .mark, .receive 7 [⟨[10, 0, 0, 1], 1⟩], .receive 7 [⟨[10, 0, 0, 2], 2⟩], .check 0, .check 1,
        .delete 0, .delete 1, .dial 0, .dial 1]
    s.marked = [(7, 0)] ∧ s.overlapped = [7] ∧ s.dialed = [(7, ⟨[10, 0, 0, 1], 1⟩), (7, ⟨[10, 0, 0, 2], 2⟩)] := by
  decide

end PeerExchanger

/-! ## What is answered -/

open Store (Flat StreamedPeer UnmarshalPeer Op)
open Wire (Bytes32 Bytes65)

/-- `MaxSentPeerCount`. -/
def maxSentPeerCount : Nat := 255

variable {H K G : Type} {C : Store.Codec H K G Bytes32}

/-- The loop of `handlePeerReq`, for so many more peers; `none` is a panic. -/
def streamed (U : UnmarshalPeer C) (db : Flat) (now : Time) : Nat → List (Bytes × Bytes) → Option (List (StreamedPeer Bytes32))
  | 0, _ => some []
  | room + 1, es =>
    match db.nextPeer U false now es with
    | none => none
    | some (none, _) => some []
    | some (some peer, es) => (streamed U db now room es).map (peer :: ·)

/-- `wire.Peer` of a stored one; `net.ParseIP` gives nil, here nothing, for what is not an IP. -/
def wirePeer (parseIP : Bytes → Bytes) (p : Store.Peer Bytes32) : Peer Bytes32 := ⟨parseIP p.ip, p.id⟩

/-- The peers of `handlePeerReq`, before they are shuffled. -/
def replyPeers (U : UnmarshalPeer C) (parseIP : Bytes → Bytes) (db : Flat) (now : Time) : Option (List (Peer Bytes32)) :=
  (streamed U db now maxSentPeerCount db.streamPeers).map (List.map fun p => wirePeer parseIP p.toPeer)

/-- Where the stream can be read to its end, the loop has the start of it. -/
theorem streamed_eq (U : UnmarshalPeer C) (db : Flat) (now : Time) {calls : Nat} {es : List (Bytes × Bytes)}
    (hend : (db.nextPeers U false now calls es).2 = true) (room : Nat) :
    streamed U db now room es = some ((db.nextPeers U false now calls es).1.take room) := by
  induction room generalizing calls es with
  | zero => rfl
  | succ room ih =>
    cases calls with
    | zero => cases hend
    | succ calls =>
      simp only [Flat.nextPeers, streamed] at hend ⊢
      cases hnext : db.nextPeer U false now es with
      | none => simp only [hnext] at hend; cases hend
      | some r =>
        obtain ⟨peer, es'⟩ := r
        cases peer with
        | none => rfl
        | some peer =>
          simp only [hnext] at hend
          simp only [ih hend, Option.map_some, List.take_succ_cons]

/-- The stored peers in the order of their rows, after writes whose bans end in 1970 or later. -/
theorem agrees_of_ops (U : UnmarshalPeer C) {ops : List (Op H K G Bytes32)} (hops : ∀ op ∈ ops, op.Bans Store.From1970)
    (now : Time) :
    Store.Agrees U (Machine.run (Flat.step C) OrderedMap.empty ops) now := by
  have h := Machine.run_sim Store.Refines (fun db ts op h => h.step C op) ops OrderedMap.empty (fun _ => none) .empty
  have hall : ∀ op ∈ ops, op.Bans fun _ => True := fun op _ => by cases op <;> trivial
  have hw := Store.Tables.Rows.run (C := C) hops
  refine (Store.agrees_iff U h (Store.Tables.Rows.run hall) now).mpr fun _ p _ => ?_
  rw [Flat.BansFrom1970, List.forall_mem_cons, List.forall_mem_singleton]
  exact ⟨fun v hv => hw (.peerInBan p.ip) v ((h.get (.peerInBan p.ip)).symm.trans hv),
    fun v hv => hw (.peerOutBan p.ip) v ((h.get (.peerOutBan p.ip)).symm.trans hv)⟩

/-- An answer is read as it was sent, if each of its IPs has 4 or 16 bytes, and is not sent otherwise. -/
theorem peerRes_sent (peers : List (Peer Bytes32)) (hlen : peers.length ≤ maxSentPeerCount) :
    ((∀ p ∈ peers, p.ip.length = 4 ∨ p.ip.length = 16) →
      Dwire.RoundTrips (Wire.encodePeerRes peers) Wire.decodePeerRes (peers.map Wire.Peer.canonical)) ∧
    ((∃ p ∈ peers, ¬ (p.ip.length = 4 ∨ p.ip.length = 16)) → ∃ err, Wire.encodePeerRes peers = .error err) := by
  refine ⟨Wire.peerRes_roundtrips peers (Nat.le_trans hlen (by decide)), fun hnot => ?_⟩
  cases henc : Wire.encodePeerRes peers with
  | error err => exact ⟨err, rfl⟩
  | ok buf =>
    have hmsg : Wire.Message.encode id (.peerRes peers : Wire.Message Bytes32 Bytes Bytes65) = .ok buf := henc
    have hfits := Wire.Message.fits_of_encode hmsg
    obtain ⟨p, hp, hlen⟩ := hnot
    exact absurd (hfits.2 p hp) hlen

/-- Over every run of the store's writes whose bans end in 1970 or later: with the stored peers in
    the order of their rows, an answer names the first 255 that `IsBanned` does not report. However
    they are shuffled, they are read as they are sent, or one of them has no IP and none is sent. -/
theorem reply_names_stored_peers (U : UnmarshalPeer C) (ops : List (Op H K G Bytes32)) (hops : ∀ op ∈ ops, op.Bans Store.From1970)
    (now : Time) (parseIP : Bytes → Bytes) :
    let db : Flat := Machine.run (Flat.step C) OrderedMap.empty ops
    ∃ rows : List (Bytes × Store.Peer Bytes32), rows.Pairwise (·.1 < ·.1) ∧ (∀ row p, (row, p) ∈ rows ↔ db.StoredPeer U row p) ∧
      ∃ peers, replyPeers U parseIP db now = some peers ∧
        peers = (((rows.filter fun r => decide (db.isBanned now r.2.ip = some (false, false))).map Prod.snd).take
          maxSentPeerCount).map (wirePeer parseIP) ∧
        ∀ sent, sent.Perm peers →
          ((∀ p ∈ sent, p.ip.length = 4 ∨ p.ip.length = 16) →
            Dwire.RoundTrips (Wire.encodePeerRes sent) Wire.decodePeerRes (sent.map Wire.Peer.canonical)) ∧
          ((∃ p ∈ sent, ¬ (p.ip.length = 4 ∨ p.ip.length = 16)) → ∃ err, Wire.encodePeerRes sent = .error err) := by
  intro db
  obtain ⟨rows, hsorted, hrows, -, -, hend, hkept⟩ := agrees_of_ops U hops now
  have hstreamed := streamed_eq U db now hend maxSentPeerCount
  refine ⟨rows, hsorted, hrows, _, by rw [replyPeers, hstreamed, Option.map_some], ?_, fun sent hperm => peerRes_sent sent ?_⟩
  · rw [← hkept, ← List.map_take, List.map_map]
    rfl
  · rw [hperm.length_eq, List.length_map, List.length_take]
    exact Nat.min_le_left _ _

/-- A peer written as its ID and its IP. -/
def plainPeers : Store.Codec Unit Unit Unit Bytes32 :=
  ⟨fun h => h.name, fun _ => [], fun i => i.name, fun p => p.id.1 ++ p.ip, fun _ => [], fun id => id.1⟩

def readPlainPeers : UnmarshalPeer plainPeers where
  peer b := if h : 32 ≤ b.length then some ⟨⟨b.take 32, List.length_take_of_le h⟩, b.drop 32, 0, false⟩ else none
  text b := b
  peer_marshal p := by
    have hlen : 32 ≤ (p.id.1 ++ p.ip).length := by
      rw [List.length_append, p.id.2]
      omega
    refine ⟨_, dif_pos hlen, Subtype.ext ?_, ?_⟩
    · exact List.take_left' p.id.2
    · exact List.drop_left' p.id.2

/-- The numbers of a dotted text, the first one from its digits so far. -/
def parseOctets : Option Nat → Bytes → Option (List UInt8)
  | none, [] => none
  | some n, [] => some [UInt8.ofNat n]
  | n, c :: s =>
    if c = 0x2e then n.bind fun n => (parseOctets none s).map (UInt8.ofNat n :: ·)
    else
      let n := n.getD 0 * 10 + (c.toNat - 0x30)
      if 0x30 ≤ c ∧ c ≤ 0x39 ∧ n < 256 then parseOctets (some n) s else none

/-- `net.ParseIP` of four numbers: the long form. -/
def parseDotted (s : Bytes) : Bytes :=
  match parseOctets none s with
  | some [a, b, c, d] => (Wire.to16 [a, b, c, d]).getD []
  | _ => []

/-- Of three peers one is banned for an hour; the others are named, and read. -/
theorem a_banned_peer_is_not_named :
    let now : Time := 1600000000 * second
    let ops : List (Op Unit Unit Unit Bytes32) :=
      [.setPeerTx now (Wire.filled 32 1) (utf8 "10.0.0.1") true, .setPeerTx now (Wire.filled 32 2) (utf8 "10.0.0.20") true,
        .setPeerTx now (Wire.filled 32 3) (utf8 "10.0.0.3") true, .banOutboundPeerTx now (utf8 "10.0.0.1") (3600 * second)]
    let named : List (Peer Bytes32) :=
      [⟨List.replicate 10 0 ++ [0xff, 0xff, 10, 0, 0, 20], Wire.filled 32 2⟩,
       ⟨List.replicate 10 0 ++ [0xff, 0xff, 10, 0, 0, 3], Wire.filled 32 3⟩]
    replyPeers readPlainPeers parseDotted (Machine.run (Flat.step plainPeers) OrderedMap.empty ops) now = some named ∧
    Dwire.RoundTrips (Wire.encodePeerRes named.reverse) Wire.decodePeerRes (named.reverse.map Wire.Peer.canonical) := by
  intro now ops named
  have hops : ∀ op ∈ ops, op.Bans Store.From1970 := by
    simp only [ops, List.forall_mem_cons]
    exact ⟨trivial, trivial, trivial, ⟨by decide +kernel, by decide +kernel⟩, nofun⟩
  have hreply : replyPeers readPlainPeers parseDotted (Machine.run (Flat.step plainPeers) OrderedMap.empty ops) now =
    some named := by
    decide +kernel
  obtain ⟨-, -, -, peers, hpeers, -, hsent⟩ := reply_names_stored_peers readPlainPeers ops hops now parseDotted
  rw [hreply, Option.some.injEq] at hpeers
  refine ⟨hreply, (hsent _ (by rw [← hpeers]; exact List.reverse_perm _)).1 ?_⟩
  simp [named]

end Fnd.Protocol

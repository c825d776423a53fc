/-
  Fnd.P2p.Gossip — who a message is gossiped to (`GossipPeerIDs`, `handlePeerMessage` and
  `GossipAll` of `p2p/peer_muxer.go`, `wire/hash_cacher.go`).

  Every received message sets a key for five minutes; a message is gossiped to the peers whose
  key for it is not set. The key is the peer's ID and the hash of the message's body. So a peer
  is skipped exactly when it sent, within the timeout, a message whose body has the same bytes
  (`mem_gossipPeerIDs_iff`), of whatever type: `Update`, `BlobReq` and `UpdateReq` have one
  layout, `Ping` and `PeerReq` no body at all. Skipping is exact as long as no message of another
  type came with the bytes of the one that goes out (`gossip_exact_iff`); a request for a blob
  keeps the update about it from the peer (`a_request_suppresses_the_update`).
-/

import Fnd.P2p.PeerMuxer
import Fnd.Util.Cache
import Fnd.Wire.Codec

namespace Fnd.P2p

open Wire
open Util (Cache millisecond)

/-- `DefaultPeerMuxerGossipTimeoutMS`. -/
def gossipTimeoutMS : Int := 5 * 60 * 1000

variable {D K : Type}

/-- The muxer's peers and filter. `received` is what `handlePeerMessage` was called with, and
    when; the code keeps no such list. -/
structure Gossip (D K : Type) where
  clock : Time
  mux : PeerMuxer D
  gossipFilter : Cache (D × D) Bool
  received : List (D × Message Bytes32 K Bytes65 × Time)

namespace Gossip

def new (start : Nat) : Gossip D K := ⟨start, PeerMuxer.new, Cache.new, []⟩

section

variable (blake2b : Bytes → D) (ser : K → Bytes)

/-- `HashCacher.Hash`: the hash of the message's encoding; `none` is its panic. -/
def hash (m : Message Bytes32 K Bytes65) : Option D :=
  match m.encode ser with
  | .error _ => none
  | .ok buf => some (blake2b buf)

/-- `gossipKey`: the ID and the hash in hex with a colon between them, here the pair. -/
def gossipKey (peerID : D) (m : Message Bytes32 K Bytes65) : Option (D × D) :=
  (hash blake2b ser m).map fun hash => (peerID, hash)

variable [DecidableEq D]

/-- `GossipPeerIDs`, peer by peer: those without the key, and the filter less the entries found
    expired. -/
def gossipPeerIDs (now : Time) (m : Message Bytes32 K Bytes65) :
    List D → Cache (D × D) Bool → Option (List D × Cache (D × D) Bool)
  | [], filter => some ([], filter)
  | peerID :: ids, filter =>
    match gossipKey blake2b ser peerID m with
    | none => none
    | some key =>
      let (has, filter) := filter.get now key
      match gossipPeerIDs now m ids filter with
      | none => none
      | some (out, filter) => some (if has.isSome then out else peerID :: out, filter)

/-- `GossipAll`: the peers the message is sent to; none where it panics. -/
def gossipAll (s : Gossip D K) (m : Message Bytes32 K Bytes65) : List D × Gossip D K :=
  match gossipPeerIDs blake2b ser s.clock m s.mux.peerIDs s.gossipFilter with
  | none => ([], s)
  | some (recips, filter) => (recips, { s with gossipFilter := filter })

inductive Event (D K : Type) where
  | tick (now : Time)
  | mux (e : PeerMuxer.Event D)
  /-- a validated envelope of a peer -/
  | receive (peerID : D) (m : Message Bytes32 K Bytes65)
  | gossip (m : Message Bytes32 K Bytes65)
  | reap

def step (s : Gossip D K) : Event D K → Gossip D K
  | .tick now => { s with clock := max s.clock now }
  | .mux e => { s with mux := s.mux.step e }
  | .receive peerID m =>
    match gossipKey blake2b ser peerID m with
    | none => s
    | some key =>
      { s with
        gossipFilter := s.gossipFilter.set s.clock key true gossipTimeoutMS
        received := (peerID, m, s.clock) :: s.received }
  | .gossip m => (gossipAll blake2b ser s m).2
  | .reap => { s with gossipFilter := s.gossipFilter.reap s.clock }

end

/-! ## Exactness -/

/-- `peerID` sent such a message within the timeout. -/
def Sent (s : Gossip D K) (peerID : D) (such : Message Bytes32 K Bytes65 → Prop) : Prop :=
  ∃ m t, (peerID, m, t) ∈ s.received ∧ such m ∧ s.clock ≤ t + gossipTimeoutMS * millisecond

def SameMessage (m m' : Message Bytes32 K Bytes65) : Prop := m'.msgType = m.msgType ∧ m'.canonical = m.canonical

variable [DecidableEq D]

/-- `m` goes to the connected peers that have not sent it themselves. -/
def Exact (blake2b : Bytes → D) (ser : K → Bytes) (s : Gossip D K) (m : Message Bytes32 K Bytes65) : Prop :=
  ∀ peerID, peerID ∈ (gossipAll blake2b ser s m).1 ↔ peerID ∈ s.mux.peerIDs ∧ ¬ s.Sent peerID (SameMessage m)

/-- `m` encodes, unless there is no one to send it to; and no connected peer sent a message of
    another type with the same bytes, unless it sent `m` too. -/
def Unaliased (ser : K → Bytes) (s : Gossip D K) (m : Message Bytes32 K Bytes65) : Prop :=
  ((∃ buf, m.encode ser = .ok buf) ∨ s.mux.peerIDs = []) ∧
    ∀ peerID ∈ s.mux.peerIDs,
      s.Sent peerID (fun m' => m'.msgType ≠ m.msgType ∧ m'.encode ser = m.encode ser) → s.Sent peerID (SameMessage m)

/-! ## What the filter holds -/

section

variable {blake2b : Bytes → D} {ser : K → Bytes} {s : Gossip D K}

/-- Every entry is of a message received, the last with its key, and of each message received
    there is an entry until it has expired. -/
structure Inv (blake2b : Bytes → D) (ser : K → Bytes) (s : Gossip D K) : Prop where
  clock : 0 ≤ s.clock
  past : ∀ r ∈ s.received, 0 ≤ r.2.2 ∧ r.2.2 ≤ s.clock
  encodes : ∀ r ∈ s.received, (gossipKey blake2b ser r.1 r.2.1).isSome
  entry : ∀ key entry, s.gossipFilter key = some entry →
    ∃ r ∈ s.received, gossipKey blake2b ser r.1 r.2.1 = some key ∧ entry.expiry = r.2.2 + gossipTimeoutMS * millisecond
  kept : ∀ r ∈ s.received, ∀ key, gossipKey blake2b ser r.1 r.2.1 = some key →
    s.clock ≤ r.2.2 + gossipTimeoutMS * millisecond →
    ∃ entry, s.gossipFilter key = some entry ∧ r.2.2 + gossipTimeoutMS * millisecond ≤ entry.expiry

omit [DecidableEq D] in
theorem inv_new (start : Nat) : Inv blake2b ser (new start : Gossip D K) :=
  ⟨Int.natCast_nonneg start, nofun, nofun, nofun, nofun⟩

/-- What a lookup leaves: everything but expired entries. -/
structure Looked (now : Time) (filter filter' : Cache (D × D) Bool) : Prop where
  sub : ∀ key entry, filter' key = some entry → filter key = some entry
  keeps : ∀ key entry, filter key = some entry → now ≤ entry.expiry → filter' key = some entry

omit [DecidableEq D] in
theorem Looked.refl (now : Time) (filter : Cache (D × D) Bool) : Looked now filter filter :=
  ⟨fun _ _ he => he, fun _ _ he _ => he⟩

omit [DecidableEq D] in
theorem Looked.trans {now : Time} {f f' f'' : Cache (D × D) Bool} (h : Looked now f f') (h' : Looked now f' f'') :
    Looked now f f'' where
  sub := fun key entry he => h.sub key entry (h'.sub key entry he)
  keeps := fun key entry he hle => h'.keeps key entry (h.keeps key entry he hle) hle

omit [DecidableEq D] in
theorem Inv.filter (hi : Inv blake2b ser s) {filter : Cache (D × D) Bool} (hlook : Looked s.clock s.gossipFilter filter) :
    Inv blake2b ser { s with gossipFilter := filter } where
  clock := hi.clock
  past := hi.past
  encodes := hi.encodes
  entry := fun key entry h => hi.entry key entry (hlook.sub key entry h)
  kept := by
    intro r hr key hkey hwin
    obtain ⟨entry, he, hle⟩ := hi.kept r hr key hkey hwin
    exact ⟨entry, hlook.keeps key entry he (Int.le_trans hwin hle), hle⟩

def Live (filter : Cache (D × D) Bool) (now : Time) (key : D × D) : Prop := ∃ entry, filter key = some entry ∧ now ≤ entry.expiry

omit [DecidableEq D] in
theorem Looked.live {now : Time} {filter filter' : Cache (D × D) Bool} (h : Looked now filter filter') (key : D × D) :
    Live filter' now key ↔ Live filter now key :=
  ⟨fun ⟨entry, he, hle⟩ => ⟨entry, h.sub key entry he, hle⟩, fun ⟨entry, he, hle⟩ => ⟨entry, h.keeps key entry he hle, hle⟩⟩

/-- A lookup finds what is live, and loses its entry if that has expired. -/
theorem get_looked (filter : Cache (D × D) Bool) (now : Time) (k : D × D) :
    Looked now filter (filter.get now k).2 ∧ ((filter.get now k).1.isSome ↔ Live filter now k) := by
  unfold Cache.get Live
  cases h : filter k with
  | none => exact ⟨.refl now filter, by simp⟩
  | some e =>
    by_cases hexp : now > e.expiry
    · simp only [if_pos hexp]
      refine ⟨⟨?_, ?_⟩, by simp [Int.not_le.mpr hexp]⟩
      · intro key entry he
        by_cases hk : key = k
        · subst hk; simp at he
        · rwa [Function.update_of_ne hk] at he
      · intro key entry he hle
        have hk : key ≠ k := by
          intro hk
          rw [hk, h, Option.some.injEq] at he
          subst he
          exact absurd hle (Int.not_le.mpr hexp)
        rwa [Function.update_of_ne hk]
    · simp only [if_neg hexp]
      exact ⟨.refl now filter, by simp [Int.not_lt.mp hexp]⟩

/-- The peers without a live key, for a message that encodes. Induction on the peers. -/
theorem gossipPeerIDs_eq {m : Message Bytes32 K Bytes65} {h : D} (hh : hash blake2b ser m = some h) (now : Time) :
    ∀ (ids : List D) (filter : Cache (D × D) Bool), ∃ out filter',
      gossipPeerIDs blake2b ser now m ids filter = some (out, filter') ∧
      Looked now filter filter' ∧ ∀ id, id ∈ out ↔ id ∈ ids ∧ ¬ Live filter now (id, h) := by
  intro ids
  induction ids with
  | nil => intro filter; exact ⟨[], filter, rfl, .refl now filter, by simp⟩
  | cons peerID ids ih =>
    intro filter
    have hkey : gossipKey blake2b ser peerID m = some (peerID, h) := by rw [gossipKey, hh]; rfl
    obtain ⟨hlook, hhas⟩ := get_looked filter now (peerID, h)
    obtain ⟨out, filter', hout, hlook', hmem⟩ := ih (filter.get now (peerID, h)).2
    refine ⟨_, filter', by simp only [gossipPeerIDs, hkey, hout]; rfl, hlook.trans hlook', ?_⟩
    intro id
    simp only [hlook.live] at hmem
    split
    · rename_i hsome
      rw [hmem, List.mem_cons]
      have hlive := hhas.mp hsome
      constructor
      · intro ⟨h1, h2⟩
        exact ⟨.inr h1, h2⟩
      · intro ⟨h1, h2⟩
        rcases h1 with rfl | h1
        · exact absurd hlive h2
        · exact ⟨h1, h2⟩
    · rename_i hsome
      rw [List.mem_cons, List.mem_cons, hmem]
      have hdead := fun hlive => hsome (hhas.mpr hlive)
      constructor
      · intro hid
        rcases hid with rfl | ⟨h1, h2⟩
        · exact ⟨.inl rfl, hdead⟩
        · exact ⟨.inr h1, h2⟩
      · intro ⟨h1, h2⟩
        rcases h1 with rfl | h1
        · exact .inl rfl
        · exact .inr ⟨h1, h2⟩

theorem gossipAll_panic {m : Message Bytes32 K Bytes65} (hh : hash blake2b ser m = none) :
    gossipAll blake2b ser s m = ([], s) := by
  unfold gossipAll
  cases s.mux.peerIDs with
  | nil => rfl
  | cons peerID ids =>
    have hkey : gossipKey blake2b ser peerID m = none := by rw [gossipKey, hh]; rfl
    simp only [gossipPeerIDs, hkey]

/-! ## Every step keeps it so -/

theorem gossip_inv (hi : Inv blake2b ser s) (m : Message Bytes32 K Bytes65) : Inv blake2b ser (gossipAll blake2b ser s m).2 := by
  cases hh : hash blake2b ser m with
  | some h =>
    obtain ⟨out, filter', hout, hlook, -⟩ := gossipPeerIDs_eq hh s.clock s.mux.peerIDs s.gossipFilter
    rw [gossipAll, hout]
    exact hi.filter hlook
  | none =>
    rw [gossipAll_panic hh]
    exact hi

theorem receive_inv (hi : Inv blake2b ser s) (peerID : D) (m : Message Bytes32 K Bytes65) :
    Inv blake2b ser (step blake2b ser s (.receive peerID m)) := by
  cases hkey : gossipKey blake2b ser peerID m with
  | none => simpa only [step, hkey] using hi
  | some key =>
    have hset : s.gossipFilter.set s.clock key true gossipTimeoutMS =
        Function.update s.gossipFilter key (some ⟨true, s.clock + gossipTimeoutMS * millisecond⟩) := by
      rw [Cache.set, if_neg (by decide)]
    simp only [step, hkey, hset]
    refine ⟨hi.clock, ?_, ?_, ?_, ?_⟩
    · intro r hr
      rcases List.mem_cons.mp hr with rfl | hr
      · exact ⟨hi.clock, Int.le_refl _⟩
      · exact hi.past r hr
    · intro r hr
      rcases List.mem_cons.mp hr with rfl | hr
      · simp only [hkey, Option.isSome_some]
      · exact hi.encodes r hr
    · intro k entry he
      by_cases hk : k = key
      · subst hk
        simp only [Function.update_self, Option.some.injEq] at he
        subst he
        exact ⟨_, List.mem_cons_self, hkey, rfl⟩
      · simp only [Function.update_of_ne hk] at he
        obtain ⟨r, hr, h1, h2⟩ := hi.entry k entry he
        exact ⟨r, List.mem_cons_of_mem _ hr, h1, h2⟩
    · intro r hr k hrk hwin
      by_cases hk : k = key
      · subst hk
        refine ⟨_, Function.update_self .., ?_⟩
        rcases List.mem_cons.mp hr with rfl | hr
        · exact Int.le_refl _
        · exact Int.add_le_add_right (hi.past r hr).2 _
      · simp only [Function.update_of_ne hk]
        rcases List.mem_cons.mp hr with rfl | hr
        · exact absurd (Option.some.inj (hrk.symm.trans hkey)) hk
        · exact hi.kept r hr k hrk hwin

/-- The reaper takes seconds for nanoseconds, and never comes early. -/
theorem reap_inv (hi : Inv blake2b ser s) : Inv blake2b ser (step blake2b ser s .reap) := by
  refine hi.filter ⟨?_, ?_⟩
  · intro key entry he
    unfold Cache.reap at he
    split at he
    · cases he
    · split at he
      · rename_i hold _; rw [hold]; exact he
      · cases he
  · intro key entry he hle
    obtain ⟨r, hr, -, hexp⟩ := hi.entry key entry he
    have hpast : (0 : Int) ≤ r.2.2 := (hi.past r hr).1
    have hclock : (0 : Int) ≤ s.clock := hi.clock
    have hle := Int.sub_nonneg.mpr hle
    have hsec : unix s.clock < entry.expiry := by
      unfold unix second
      simp only [gossipTimeoutMS, millisecond] at hexp
      omega
    simp only [Cache.reap, he, if_pos hsec]

theorem step_inv (s : Gossip D K) (e : Event D K) (hi : Inv blake2b ser s) : Inv blake2b ser (step blake2b ser s e) := by
  cases e with
  | tick now =>
    have hle : s.clock ≤ max s.clock now := Int.le_max_left _ _
    refine ⟨Int.le_trans hi.clock hle, ?_, hi.encodes, hi.entry, ?_⟩
    · intro r hr
      exact ⟨(hi.past r hr).1, Int.le_trans (hi.past r hr).2 hle⟩
    · intro r hr key hkey hwin
      exact hi.kept r hr key hkey (Int.le_trans hle hwin)
  | mux e => exact ⟨hi.clock, hi.past, hi.encodes, hi.entry, hi.kept⟩
  | receive peerID m => exact receive_inv hi peerID m
  | gossip m => exact gossip_inv hi m
  | reap => exact reap_inv hi

theorem run_inv (start : Nat) (es : List (Event D K)) : Inv blake2b ser (Machine.run (step blake2b ser) (new start) es) :=
  Machine.run_keeps _ step_inv es _ (inv_new start)

/-! ## Who a message goes to -/

omit [DecidableEq D] in
/-- A live key is a message of the peer with the same hash, received within the timeout. -/
theorem live_iff (hi : Inv blake2b ser s) (peerID h : D) :
    Live s.gossipFilter s.clock (peerID, h) ↔ s.Sent peerID fun m => hash blake2b ser m = some h := by
  constructor
  · intro ⟨entry, he, hle⟩
    obtain ⟨⟨id, m, t⟩, hr, hkey, hexp⟩ := hi.entry _ entry he
    obtain ⟨h', hh', hpair⟩ := Option.map_eq_some_iff.mp hkey
    obtain ⟨rfl, rfl⟩ := Prod.mk.inj hpair
    exact ⟨m, t, hr, hh', hexp ▸ hle⟩
  · intro ⟨m, t, hr, hh, hwin⟩
    have hkey : gossipKey blake2b ser peerID m = some (peerID, h) := by rw [gossipKey, hh]; rfl
    obtain ⟨entry, he, hle⟩ := hi.kept _ hr _ hkey hwin
    exact ⟨entry, he, Int.le_trans hwin hle⟩

/-- A message that encodes goes to the connected peers that have not, within the timeout, sent one
    with the same bytes. -/
theorem mem_gossipPeerIDs_iff (hinj : Function.Injective blake2b) (hi : Inv blake2b ser s) {m : Message Bytes32 K Bytes65}
    {buf : Bytes} (hm : m.encode ser = .ok buf) (peerID : D) :
    peerID ∈ (gossipAll blake2b ser s m).1 ↔
      peerID ∈ s.mux.peerIDs ∧ ¬ s.Sent peerID fun m' => m'.encode ser = .ok buf := by
  have hh : hash blake2b ser m = some (blake2b buf) := by simp only [hash, hm]
  have hsame : (fun m' => hash blake2b ser m' = some (blake2b buf)) = fun m' => m'.encode ser = .ok buf := by
    funext m'
    simp only [hash]
    cases m'.encode ser with
    | error e => simp
    | ok buf' => simp only [Option.some.injEq, Except.ok.injEq, hinj.eq_iff]
  obtain ⟨out, filter', hout, -, hmem⟩ := gossipPeerIDs_eq hh s.clock s.mux.peerIDs s.gossipFilter
  rw [gossipAll, hout]
  simp only [hmem, live_iff hi, hsame]

omit [DecidableEq D] in
theorem SameMessage.encode {m m' : Message Bytes32 K Bytes65} (h : SameMessage m m') : m'.encode ser = m.encode ser := by
  rw [← Message.encode_canonical ser m', h.2, Message.encode_canonical]

omit [DecidableEq D] in
theorem Sent.mono {peerID : D} {such such' : Message Bytes32 K Bytes65 → Prop} (h : s.Sent peerID such)
    (himp : ∀ m, such m → such' m) : s.Sent peerID such' := by
  obtain ⟨m, t, hr, hs, hwin⟩ := h
  exact ⟨m, t, hr, himp m hs, hwin⟩

section

variable {m : Message Bytes32 K Bytes65} {e : Dwire.EncodeErr}

omit [DecidableEq D] in
theorem Inv.not_sent (hi : Inv blake2b ser s) (peerID : D) : ¬ s.Sent peerID fun m' => m'.encode ser = .error e := by
  intro ⟨m', t, hr, hs, _⟩
  have hkey := hi.encodes _ hr
  simp only [gossipKey, hash, hs, Option.map_none, Option.isSome_none] at hkey
  cases hkey

theorem exact_iff_of_error (hi : Inv blake2b ser s) (hm : m.encode ser = .error e) :
    Exact blake2b ser s m ↔ Unaliased ser s m := by
  have hself : ∀ peerID, ¬ s.Sent peerID (SameMessage m) := fun peerID hs =>
    hi.not_sent peerID (hs.mono fun m' hs => hs.encode.trans hm)
  have hh : hash blake2b ser m = none := by simp only [hash, hm]
  unfold Exact Unaliased
  rw [gossipAll_panic hh]
  constructor
  · intro h
    refine ⟨.inr (List.eq_nil_iff_forall_not_mem.mpr fun peerID hp => ?_), fun peerID _ hs => ?_⟩
    · exact List.not_mem_nil ((h peerID).mpr ⟨hp, hself peerID⟩)
    · exact absurd (hs.mono fun m' hs => hs.2.trans hm) (hi.not_sent peerID)
  · intro ⟨h, _⟩ peerID
    rcases h with ⟨buf, hbuf⟩ | hnil
    · rw [hm] at hbuf; cases hbuf
    · simp [hnil]

theorem exact_iff_of_ok (hinj : Function.Injective blake2b) {parsePubKey : Bytes → Option K}
    (hkeys : ParsesBack ser parsePubKey) (hi : Inv blake2b ser s) {buf : Bytes} (hm : m.encode ser = .ok buf) :
    Exact blake2b ser s m ↔ Unaliased ser s m := by
  unfold Exact Unaliased
  simp only [mem_gossipPeerIDs_iff hinj hi hm, hm]
  constructor
  · intro h
    refine ⟨.inl ⟨buf, rfl⟩, fun peerID hp hs => ?_⟩
    by_contra hno
    exact ((h peerID).mpr ⟨hp, hno⟩).2 (hs.mono fun m' hs => hs.2)
  · intro ⟨_, h⟩ peerID
    refine and_congr_right fun hp => not_congr ⟨fun hs => ?_, fun hs => hs.mono fun m' hs => hs.encode.trans hm⟩
    -- the same bytes: the same message, unless the type is another
    obtain ⟨m', t, hr, henc, hwin⟩ := hs
    by_cases htype : m'.msgType = m.msgType
    · exact ⟨m', t, hr, ⟨htype, Message.encode_inj hkeys henc hm htype⟩, hwin⟩
    · exact h peerID hp ⟨m', t, hr, ⟨htype, henc⟩, hwin⟩

end

/-- After every run, whom a message goes to is exact if and only if no connected peer sent, within
    the timeout, a message of another type with its bytes, unless it sent the message too. -/
theorem gossip_exact_iff (hinj : Function.Injective blake2b) {parsePubKey : Bytes → Option K}
    (hkeys : ParsesBack ser parsePubKey) (start : Nat) (es : List (Event D K)) (m : Message Bytes32 K Bytes65) :
    Exact blake2b ser (Machine.run (step blake2b ser) (new start) es) m ↔
      Unaliased ser (Machine.run (step blake2b ser) (new start) es) m := by
  have hi : Inv blake2b ser (Machine.run (step blake2b ser) (new start) es) := run_inv start es
  cases hm : m.encode ser with
  | error e => exact exact_iff_of_error hi hm
  | ok buf => exact exact_iff_of_ok hinj hkeys hi hm

end

/-! ## Traces -/

def theUpdate : Message Bytes32 Key33 Bytes65 := .update ⟨[0x61], 7, 0⟩

/-- Two peers connect, and the first sends `m`. -/
def afterSending (m : Message Bytes32 Key33 Bytes65) : Gossip Bytes Key33 :=
  Machine.run (step id Subtype.val) (new 0)
    [.mux (.opened [1] ⟨0, .inbound, [10]⟩), .mux (.opened [2] ⟨1, .outbound, [11]⟩), .receive [1] m]

theorem received_afterSending {m : Message Bytes32 Key33 Bytes65} {buf : Bytes} (h : m.encode Subtype.val = .ok buf) :
    (afterSending m).received = [([1], m, 0)] := by
  simp [afterSending, step, gossipKey, hash, h, new]

/-- An update goes to the peer that does not have it. -/
theorem an_update_is_not_sent_back : Function.Injective (id : Bytes → Bytes) ∧ ParsesBack Subtype.val parse33 ∧
    (gossipAll id Subtype.val (afterSending theUpdate) theUpdate).1 = [[2]] ∧
    Exact id Subtype.val (afterSending theUpdate) theUpdate := by
  refine ⟨Function.injective_id, parse33_parsesBack, by decide +kernel, ?_⟩
  refine (gossip_exact_iff Function.injective_id parse33_parsesBack 0 _ theUpdate).mpr ⟨.inl ⟨_, rfl⟩, ?_⟩
  intro peerID _ ⟨m', t, hr, ⟨hty, _⟩, _⟩
  have hr : (peerID, m', t) ∈ (afterSending theUpdate).received := hr
  rw [received_afterSending rfl, List.mem_singleton] at hr
  cases hr
  exact absurd rfl hty

/-- A peer that asked for the blob at this epoch and size is not told of the update to it. -/
theorem a_request_suppresses_the_update :
    ¬ Exact id Subtype.val (afterSending (.blobReq ⟨[0x61], 7, 0⟩)) theUpdate := by
  intro h
  have hout : [1] ∉ (gossipAll id Subtype.val (afterSending (.blobReq ⟨[0x61], 7, 0⟩)) theUpdate).1 := by decide +kernel
  refine hout ((h [1]).mpr ⟨by decide +kernel, ?_⟩)
  intro ⟨m', t, hr, hs, _⟩
  rw [received_afterSending rfl, List.mem_singleton] at hr
  cases hr
  exact absurd hs.1 (by decide)

end Gossip

end Fnd.P2p

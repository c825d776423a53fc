/-
  Fnd.P2p.Handshake — the handshake (`p2p/incoming_handshake.go`, `outgoing_handshake.go`):
  any number of sessions against a network that delivers what it likes.

  A session is its function between two receives: a stage, and on an envelope the next
  stage and the envelope written, if any. `World` is all sessions and every envelope the
  holders of keys made. The network delivers any envelope it could have: signatures of
  honest keys are on hashes that the key's holder signed (`Unforged`), anything else is
  free, so envelopes are replayed, reordered and rebuilt at will.

  A returned peer ID means that its key's holder answered this session's nonce, as long as
  no body is put under another's signature (`handshake_authenticates`). Since the envelope
  hash leaves the body out the network can do just that, and a session ends with a peer
  that never saw its nonce (`a_spliced_ack_authenticates`).
-/

import Fnd.Lib.Machine
import Fnd.Wire.Envelope

namespace Fnd.P2p

open Wire

variable {D K S : Type}

inductive HandshakeErr where
  | receive
  | unexpectedMessage
  | invalidEnvelope (err : EnvelopeErr)
  | incompatibleProtocol
  | invalidNonce
  | encode (err : Dwire.EncodeErr)
  | send
  deriving DecidableEq

/-- `userAgent` is the package variable `version.UserAgent`. -/
structure HandshakeConfig (K : Type) where
  magic : UInt32
  protocolVersion : UInt32
  signer : K
  userAgent : Bytes

/-- Where a session waits: for a `Hello`, for the `HelloAck` of a peer, or it has returned. -/
inductive Stage (D : Type) where
  | hello
  | helloAck (theirPeerID : D)
  | returned (res : Except (Fault HandshakeErr) D)

def Stage.fail (err : HandshakeErr) : Stage D := .returned (.error (.err err))

section Sessions

variable [DecidableEq D] (C : EnvelopePrims D K S) (cfg : HandshakeConfig K)

/-- What both functions do with the peer's `Hello`. -/
def receiveHello (now : Time) (env : Envelope K S) : Except (Fault HandshakeErr) (Hello K) :=
  if env.messageType ≠ 0 then .error (.err .unexpectedMessage)
  else
    match env.message with
    | .hello msg =>
      match validateEnvelope C cfg.magic (hashPub C msg.publicKey) now env with
      | .error err => .error (.err (.invalidEnvelope err))
      | .ok () => if msg.protocolVersion > cfg.protocolVersion then .error (.err .incompatibleProtocol) else .ok msg
    -- the type assertion
    | _ => .error .panic

/-- `WriteEnvelope`, and the stage once it is sent. -/
def writeEnvelope (now : Time) (msg : Message Bytes32 K Bytes65) (sent : Bool) (next : Stage D) :
    Stage D × Option (Envelope K S) :=
  match newEnvelope C cfg.magic msg now cfg.signer with
  | .error err => (.fail (.encode err), none)
  | .ok env => (if sent then next else .fail .send, some env)

/-- `HandleIncomingHandshake` from one receive to the next. -/
def handleIncomingHandshake (localNonce : Bytes32) (now : Time) (env : Envelope K S) (sent : Bool) :
    Stage D → Stage D × Option (Envelope K S)
  | .hello =>
    match receiveHello C cfg now env with
    | .error f => (.returned (.error f), none)
    | .ok msg =>
      writeEnvelope C cfg now (.hello ⟨cfg.protocolVersion, localNonce, msg.localNonce, cfg.signer, []⟩) sent
        (.helloAck (hashPub C msg.publicKey))
  | .helloAck theirPeerID =>
    if env.messageType ≠ 1 then (.fail .unexpectedMessage, none)
    else
      match validateEnvelope C cfg.magic theirPeerID now env with
      | .error err => (.fail (.invalidEnvelope err), none)
      | .ok () =>
        match env.message with
        | .helloAck msg => (if msg.nonce ≠ localNonce then .fail .invalidNonce else .returned (.ok theirPeerID), none)
        | _ => (.returned (.error .panic), none)
  | .returned res => (.returned res, none)

/-- `HandleOutgoingHandshake` to its receive. -/
def sendHello (localNonce : Bytes32) (now : Time) (sent : Bool) : Stage D × Option (Envelope K S) :=
  writeEnvelope C cfg now
    (.hello ⟨cfg.protocolVersion, localNonce, ⟨List.replicate 32 0, List.length_replicate⟩, cfg.signer, cfg.userAgent⟩) sent
    .hello

/-- `HandleOutgoingHandshake` after it. -/
def handleOutgoingHandshake (localNonce : Bytes32) (now : Time) (env : Envelope K S) (sent : Bool) :
    Stage D → Stage D × Option (Envelope K S)
  | .hello =>
    match receiveHello C cfg now env with
    | .error f => (.returned (.error f), none)
    | .ok msg =>
      if msg.remoteNonce ≠ localNonce then (.fail .invalidNonce, none)
      else writeEnvelope C cfg now (.helloAck ⟨msg.localNonce⟩) sent (.returned (.ok (hashPub C msg.publicKey)))
  | stage => (stage, none)

end Sessions

/-! ## All sessions -/

inductive Role where
  | incoming
  | outgoing
  deriving DecidableEq

structure Session (D K : Type) where
  role : Role
  cfg : HandshakeConfig K
  localNonce : Bytes32
  stage : Stage D

/-- The sessions, and what the holders of keys signed. -/
structure World (D K S : Type) where
  sessions : Nat → Option (Session D K)
  signed : List (K × Envelope K S)

/-- `sign` is any other envelope the holder of a key makes. Every party reads a clock of
    its own; `sent` is whether the write succeeds. -/
inductive Event (K S : Type) where
  | incoming (i : Nat) (cfg : HandshakeConfig K) (localNonce : Bytes32)
  | outgoing (i : Nat) (cfg : HandshakeConfig K) (localNonce : Bytes32) (now : Time) (sent : Bool)
  | deliver (i : Nat) (now : Time) (env : Envelope K S) (sent : Bool)
  | interrupt (i : Nat)
  | sign (key : K) (magic : UInt32) (message : Message Bytes32 K Bytes65) (now : Time)

def World.start : World D K S := ⟨fun _ => none, []⟩

section Worlds

variable [DecidableEq D] (C : EnvelopePrims D K S)

def Session.receive (s : Session D K) (now : Time) (env : Envelope K S) (sent : Bool) : Stage D × Option (Envelope K S) :=
  match s.role with
  | .incoming => handleIncomingHandshake C s.cfg s.localNonce now env sent s.stage
  | .outgoing => handleOutgoingHandshake C s.cfg s.localNonce now env sent s.stage

/-- Session `i` moved to a stage, and the envelope it wrote. -/
def World.moved (w : World D K S) (i : Nat) (s : Session D K) (out : Stage D × Option (Envelope K S)) : World D K S :=
  ⟨Function.update w.sessions i (some { s with stage := out.1 }), out.2.toList.map (s.cfg.signer, ·) ++ w.signed⟩

def step (w : World D K S) : Event K S → World D K S
  | .incoming i cfg localNonce =>
    match w.sessions i with
    | some _ => w
    | none => w.moved i ⟨.incoming, cfg, localNonce, .hello⟩ (.hello, none)
  | .outgoing i cfg localNonce now sent =>
    match w.sessions i with
    | some _ => w
    | none => w.moved i ⟨.outgoing, cfg, localNonce, .hello⟩ (sendHello C cfg localNonce now sent)
  | .deliver i now env sent =>
    match w.sessions i with
    | none => w
    | some s => w.moved i s (s.receive C now env sent)
  | .interrupt i =>
    match w.sessions i with
    | none => w
    | some s =>
      match s.stage with
      | .returned _ => w
      | _ => w.moved i s (.fail .receive, none)
  | .sign key magic message now =>
    match newEnvelope C magic message now key with
    | .error _ => w
    | .ok env => { w with signed := (key, env) :: w.signed }

end Worlds

/-! ## What a returned peer ID means -/

def answers : Role → Bytes32 → Message Bytes32 K Bytes65 → Bool
  | .incoming, nonce, .helloAck msg => decide (msg.nonce = nonce)
  | .outgoing, nonce, .hello msg => decide (msg.remoteNonce = nonce)
  | _, _, _ => false

/-- A session that returned an honest key's peer ID was answered by that key's holder. -/
def Authenticated (C : EnvelopePrims D K S) (honest : K → Prop) (w : World D K S) : Prop :=
  ∀ i s id key, w.sessions i = some s → s.stage = .returned (.ok id) → honest key → hashPub C key = id →
    ∃ p ∈ w.signed, p.1 = key ∧ answers s.role s.localNonce p.2.message = true

/-- The key an envelope's signature recovers to, and the hash it is on. -/
def signedBy (C : EnvelopePrims D K S) (env : Envelope K S) : Option (K × D) :=
  match env.hash C with
  | .error _ => none
  | .ok hash => (C.recoverCompact env.signature hash).map (·, hash)

/-- The holder of `p.1` made an envelope with hash `p.2`, with a message as in `ok`. -/
def Signed (C : EnvelopePrims D K S) (w : World D K S) (p : K × D) (ok : Message Bytes32 K Bytes65 → Prop) : Prop :=
  ∃ q ∈ w.signed, q.1 = p.1 ∧ (q.2.hash C).toOption = some p.2 ∧ ok q.2.message

/-- The network cannot sign with honest keys: a delivered envelope with an honest key's
    signature has a hash that the key's holder signed. -/
def Unforged (C : EnvelopePrims D K S) (honest : K → Prop) (w : World D K S) : Event K S → Prop
  | .deliver _ _ env _ => ∀ p ∈ signedBy C env, honest p.1 → Signed C w p fun _ => True
  | _ => True

/-- It puts no other body under such a signature: where the holder of an honest key signed
    the delivered envelope's hash, the message is one they signed with it. -/
def Unspliced (C : EnvelopePrims D K S) (honest : K → Prop) (w : World D K S) : Event K S → Prop
  | .deliver _ _ env _ =>
    ∀ p ∈ signedBy C env, honest p.1 → (Signed C w p fun _ => True) → Signed C w p fun msg => msg = env.message
  | _ => True

instance [DecidableEq D] [DecidableEq K] (C : EnvelopePrims D K S) (w : World D K S) (p : K × D)
    (ok : Message Bytes32 K Bytes65 → Prop) [DecidablePred ok] : Decidable (Signed C w p ok) :=
  inferInstanceAs (Decidable (∃ q ∈ w.signed, _))

instance [DecidableEq D] [DecidableEq K] (C : EnvelopePrims D K S) (honest : K → Prop) [DecidablePred honest]
    (w : World D K S) : DecidablePred (Unforged C honest w)
  | .deliver _ _ env _ => inferInstanceAs (Decidable (∀ p ∈ signedBy C env, _))
  | .incoming .. | .outgoing .. | .interrupt .. | .sign .. => .isTrue trivial

instance [DecidableEq D] [DecidableEq K] (C : EnvelopePrims D K S) (honest : K → Prop) [DecidablePred honest]
    (w : World D K S) : DecidablePred (Unspliced C honest w)
  | .deliver _ _ env _ => inferInstanceAs (Decidable (∀ p ∈ signedBy C env, _))
  | .incoming .. | .outgoing .. | .interrupt .. | .sign .. => .isTrue trivial

section

variable [DecidableEq D] {C : EnvelopePrims D K S} {cfg : HandshakeConfig K} {nonce : Bytes32} {now : Time}
  {env : Envelope K S} {sent : Bool} {id : D}

theorem verifySigHashedPub_signedBy : verifySigHashedPub C id env = true ↔ ∃ p ∈ signedBy C env, hashPub C p.1 = id := by
  unfold verifySigHashedPub signedBy
  cases env.hash C with
  | error err => simp
  | ok hash => cases h : C.recoverCompact env.signature hash <;> simp [h]

omit [DecidableEq D] in
theorem writeEnvelope_returned {msg : Message Bytes32 K Bytes65} {next : Stage D}
    (h : (writeEnvelope C cfg now msg sent next).1 = .returned (.ok id)) : next = .returned (.ok id) := by
  unfold writeEnvelope at h
  split at h
  · cases h
  · cases sent with
    | false => cases h
    | true => exact h

theorem receiveHello_ok {msg : Hello K} (h : receiveHello C cfg now env = .ok msg) :
    env.message = .hello msg ∧ verifySigHashedPub C (hashPub C msg.publicKey) env = true := by
  unfold receiveHello at h
  split at h
  · cases h
  split at h
  · rename_i msg' hmsg
    split at h
    · cases h
    · rename_i hv
      split at h
      · cases h
      · cases h
        exact ⟨hmsg, (validateEnvelope_ok.mp hv).2.2.2⟩
  · cases h

/-- A session returns an ID on an envelope signed under it that answers the nonce. -/
theorem receive_returned {s : Session D K} (h : (s.receive C now env sent).1 = .returned (.ok id)) :
    s.stage = .returned (.ok id) ∨
      (verifySigHashedPub C id env = true ∧ answers s.role s.localNonce env.message = true) := by
  obtain ⟨role, cfg, nonce, stage⟩ := s
  cases role with
  | incoming =>
    cases stage with
    | hello =>
      simp only [Session.receive, handleIncomingHandshake] at h
      split at h
      · cases h
      · cases writeEnvelope_returned h
    | helloAck theirPeerID =>
      simp only [Session.receive, handleIncomingHandshake] at h
      split at h
      · cases h
      split at h
      · cases h
      · rename_i hv
        split at h
        · rename_i msg hmsg
          split at h
          · cases h
          · rename_i hnonce
            cases h
            exact .inr ⟨(validateEnvelope_ok.mp hv).2.2.2, by simpa [hmsg, answers] using hnonce⟩
        · cases h
    | returned res => exact .inl h
  | outgoing =>
    cases stage with
    | hello =>
      simp only [Session.receive, handleOutgoingHandshake] at h
      split at h
      · cases h
      · rename_i msg hr
        split at h
        · cases h
        · rename_i hnonce
          obtain ⟨hmsg, hv⟩ := receiveHello_ok hr
          cases writeEnvelope_returned h
          exact .inr ⟨hv, by simpa [hmsg, answers] using hnonce⟩
    | helloAck theirPeerID => exact .inl h
    | returned res => exact .inl h

/-! ## Every run -/

omit [DecidableEq D] in
/-- A session that moves keeps authentication, if an ID it returns now is accounted for. -/
theorem Authenticated.moved {honest : K → Prop} {w : World D K S} (hw : Authenticated C honest w) (i : Nat)
    (s : Session D K) (out : Stage D × Option (Envelope K S))
    (hout : ∀ id key, out.1 = .returned (.ok id) → honest key → hashPub C key = id →
      ∃ p ∈ w.signed, p.1 = key ∧ answers s.role s.localNonce p.2.message = true) :
    Authenticated C honest (w.moved i s out) := by
  intro j t id key ht hid hk hkey
  have grow : ∀ p ∈ w.signed, p ∈ (w.moved i s out).signed := fun p hp => List.mem_append_right _ hp
  by_cases hj : j = i
  · subst hj
    obtain rfl : { s with stage := out.1 } = t := by simpa [World.moved] using ht
    obtain ⟨p, hp, h⟩ := hout id key hid hk hkey
    exact ⟨p, grow p hp, h⟩
  · obtain ⟨p, hp, h⟩ := hw j t id key (by simpa [World.moved, hj] using ht) hid hk hkey
    exact ⟨p, grow p hp, h⟩

theorem step_authenticated (hinj : Function.Injective (hashPub C)) {honest : K → Prop} (w : World D K S) (e : Event K S)
    (hw : Authenticated C honest w) (hok : Unforged C honest w e ∧ Unspliced C honest w e) :
    Authenticated C honest (step C w e) := by
  cases e with
  | incoming i cfg nonce =>
    simp only [step]
    split
    · exact hw
    · exact hw.moved i _ _ (by intro id key h; cases h)
  | outgoing i cfg nonce now sent =>
    simp only [step]
    split
    · exact hw
    · refine hw.moved i _ _ fun id key h => ?_
      cases writeEnvelope_returned h
  | deliver i now env sent =>
    simp only [step]
    split
    · exact hw
    · rename_i s hs
      refine hw.moved i s _ fun id key h hk hkey => ?_
      rcases receive_returned h with h | ⟨hv, hans⟩
      · exact hw i s id key hs h hk hkey
      · obtain ⟨p, hp, hid⟩ := verifySigHashedPub_signedBy.mp hv
        obtain rfl := hinj (hid.trans hkey.symm)
        obtain ⟨q, hq, hqk, -, hmsg⟩ := hok.2 p hp hk (hok.1 p hp hk)
        exact ⟨q, hq, hqk, by rw [hmsg]; exact hans⟩
  | interrupt i =>
    simp only [step]
    split
    · exact hw
    · rename_i s hs
      split
      · exact hw
      · exact hw.moved i s _ (by intro id key h; cases h)
  | sign key magic message now =>
    simp only [step]
    split
    · exact hw
    · intro i s id key hs hid hk hkey
      obtain ⟨p, hp, h⟩ := hw i s id key hs hid hk hkey
      exact ⟨p, List.mem_cons_of_mem _ hp, h⟩

/-- In every run in which the network forges no signature and splices no body, every
    session that returned an honest key's peer ID was answered by the key's holder. -/
theorem handshake_authenticates (hinj : Function.Injective (hashPub C)) (honest : K → Prop) (es : List (Event K S))
    (hes : Machine.Along (step C) (fun w e => Unforged C honest w e ∧ Unspliced C honest w e) World.start es) :
    Authenticated C honest (Machine.run (step C) World.start es) :=
  Machine.run_inv (Authenticated C honest) (step_authenticated hinj) es _ (by intro i s id key hs; cases hs) hes

end

/-! ### Two runs, keys 1 and 2 honest -/

def cfgOf (key : UInt8) : HandshakeConfig UInt8 := ⟨1, 1, key, []⟩

/-- The message under the key's signature on its type, at time zero. -/
def sealed (key : UInt8) (msg : Message Bytes32 UInt8 Bytes65) : Envelope UInt8 (UInt8 × Bytes) :=
  ⟨1, msg.msgType, 0, msg, (key, preimage 1 msg.msgType 0)⟩

def peerOf (w : World Bytes UInt8 (UInt8 × Bytes)) (i : Nat) : Option Bytes :=
  match w.sessions i with
  | some ⟨_, _, _, .returned (.ok id)⟩ => some id
  | _ => none

theorem hashPub_symbolic_injective : Function.Injective (hashPub symbolic) :=
  symbolic_sound.blake2b.comp symbolic_sound.keys

/-- Key 1 shakes hands with key 2, the network passing every envelope on. -/
def relayed : List (Event UInt8 (UInt8 × Bytes)) :=
  [.incoming 0 (cfgOf 2) (nonceOf 10), .outgoing 1 (cfgOf 1) (nonceOf 11) 0 true,
    .deliver 0 0 (sealed 1 (.hello ⟨1, nonceOf 11, nonceOf 0, 1, []⟩)) true,
    .deliver 1 0 (sealed 2 (.hello ⟨1, nonceOf 10, nonceOf 11, 2, []⟩)) true,
    .deliver 0 0 (sealed 1 (ackOf 10)) true]

theorem a_relayed_handshake_authenticates :
    peerOf (Machine.run (step symbolic) World.start relayed) 0 = some (hashPub symbolic 1) ∧
    peerOf (Machine.run (step symbolic) World.start relayed) 1 = some (hashPub symbolic 2) ∧
    Authenticated symbolic (· < 3) (Machine.run (step symbolic) World.start relayed) :=
  ⟨by decide +kernel, by decide +kernel,
    handshake_authenticates hashPub_symbolic_injective (· < 3) relayed (by decide +kernel)⟩

/-- Key 1 shakes hands with the network's own key 3. Its acknowledgement of nonce 12 goes to
    key 2's session with that session's nonce 10 in its place. -/
def spliced : List (Event UInt8 (UInt8 × Bytes)) :=
  [.incoming 0 (cfgOf 2) (nonceOf 10), .outgoing 1 (cfgOf 1) (nonceOf 11) 0 true,
    .deliver 1 0 (sealed 3 (.hello ⟨1, nonceOf 12, nonceOf 11, 3, []⟩)) true,
    .deliver 0 0 (sealed 1 (.hello ⟨1, nonceOf 11, nonceOf 0, 1, []⟩)) true,
    .deliver 0 0 (sealed 1 (ackOf 10)) true]

theorem a_spliced_ack_authenticates :
    Function.Injective (hashPub symbolic) ∧
    Machine.Along (step symbolic) (Unforged symbolic (· < 3)) World.start spliced ∧
    peerOf (Machine.run (step symbolic) World.start spliced) 0 = some (hashPub symbolic 1) ∧
    ¬ Authenticated symbolic (· < 3) (Machine.run (step symbolic) World.start spliced) := by
  have hnone : ∀ p ∈ (Machine.run (step symbolic) World.start spliced).signed, p.1 = 1 →
      answers .incoming (nonceOf 10) p.2.message = false := by decide +kernel
  refine ⟨hashPub_symbolic_injective, by decide +kernel, by decide +kernel, fun h => ?_⟩
  obtain ⟨p, hp, hkey, hans⟩ := h 0 ⟨.incoming, cfgOf 2, nonceOf 10, .returned (.ok (hashPub symbolic 1))⟩ _ 1 rfl rfl
    (by decide) rfl
  rw [hnone p hp hkey] at hans
  cases hans

end Fnd.P2p

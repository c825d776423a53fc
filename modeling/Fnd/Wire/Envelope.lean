/-
  Fnd.Wire.Envelope — signed envelopes (`wire/envelope.go`), their check
  (`p2p.ValidateEnvelope`, `crypto.VerifySigHashedPub`) and what a signature covers.

  `Envelope.Hash` encodes the message into one buffer and then hashes another, into which
  it writes magic, type, timestamp and that second buffer's own contents, still empty. So
  the hash covers magic, type and the timestamp's seconds modulo 2^32, and nothing of the
  message (`hash_eq_iff`). A signature binds the message exactly when there is nothing to
  bind: for the two messages without a body (`signature_binds_iff_no_body`).
-/

import Mathlib.Logic.Function.Basic
import Mathlib.Tactic.ByContra
import Fnd.Wire.Messages

namespace Fnd.Wire

open Dwire

/-- The primitives behind an envelope. A key stands for its holder: `signCompact` is what
    the holder of the private key can compute. -/
structure EnvelopePrims (D K S : Type) where
  blake2b : Bytes → D
  serializeCompressed : K → Bytes
  signCompact : K → D → S
  recoverCompact : S → D → Option K

structure Envelope (K S : Type) where
  magic : UInt32
  messageType : MessageType
  timestamp : Time
  message : Message Bytes32 K Bytes65
  signature : S

inductive EnvelopeErr where
  | invalidMagic
  | invalidTimestamp
  | invalidSignature
  deriving DecidableEq, Repr

variable {D K S : Type} (C : EnvelopePrims D K S)

/-- `crypto.HashPub`: a key's peer ID. -/
def hashPub (pub : K) : D := C.blake2b (C.serializeCompressed pub)

/-- `Envelope.Hash`. The last field is the buffer the fields are written to, read before
    the first write; the encoded message is only checked for an error. -/
def envelopeHash (magic : UInt32) (messageType : MessageType) (timestamp : Time) (message : Message Bytes32 K Bytes65) :
    Except EncodeErr D :=
  match message.encode C.serializeCompressed with
  | .error err => .error err
  | .ok _ =>
    match encodeFields [.ok (putUint32 magic), .ok (putUint16 messageType), encodeTime timestamp, encodeBytes []] with
    | .error err => .error err
    | .ok buf => .ok (C.blake2b buf)

def Envelope.hash (e : Envelope K S) : Except EncodeErr D := envelopeHash C e.magic e.messageType e.timestamp e.message

/-- `NewEnvelope` at the instant `now`, signed by the holder of `key`. -/
def newEnvelope (magic : UInt32) (message : Message Bytes32 K Bytes65) (now : Time) (key : K) :
    Except EncodeErr (Envelope K S) :=
  match envelopeHash C magic message.msgType now message with
  | .error err => .error err
  | .ok hash => .ok ⟨magic, message.msgType, now, message, C.signCompact key hash⟩

/-- `Envelope.Encode`. -/
def Envelope.encode (ser : K → Bytes) (e : Envelope K Bytes65) : Except EncodeErr Bytes :=
  match e.message.encode ser with
  | .error err => .error err
  | .ok buf =>
    encodeFields [.ok (putUint32 e.magic), .ok (putUint16 e.messageType), encodeTime e.timestamp, encodeBytes buf,
      .ok e.signature.1]

def validMessageDeadline : Int := 2 * 3600 * second

variable [DecidableEq D]

def verifySigHashedPub (hashedPub : D) (e : Envelope K S) : Bool :=
  match e.hash C with
  | .error _ => false
  | .ok hash =>
    match C.recoverCompact e.signature hash with
    | none => false
    | some key => hashPub C key == hashedPub

def validateEnvelope (expMagic : UInt32) (expPeerID : D) (now : Time) (e : Envelope K S) : Except EnvelopeErr Unit :=
  if e.magic ≠ expMagic then .error .invalidMagic
  else if e.timestamp < now - validMessageDeadline ∨ e.timestamp > now + validMessageDeadline then .error .invalidTimestamp
  else if verifySigHashedPub C expPeerID e then .ok ()
  else .error .invalidSignature

/-! ## What the hash covers -/

omit [DecidableEq D]

/-- The message is of the envelope's type and encodes. -/
structure Envelope.Valid (e : Envelope K S) : Prop where
  type : e.messageType = e.message.msgType
  encodes : ∃ buf, e.message.encode C.serializeCompressed = .ok buf

/-- A valid envelope with a timestamp of the wire's range: 32-bit seconds. -/
structure Envelope.Wellformed (e : Envelope K S) : Prop extends e.Valid C where
  time : 0 ≤ unix e.timestamp ∧ unix e.timestamp < UInt32.size

/-- Same magic, type, timestamp in seconds and message encoding. -/
structure Same (e e' : Envelope K S) : Prop where
  magic : e.magic = e'.magic
  type : e.messageType = e'.messageType
  time : unix e.timestamp = unix e'.timestamp
  message : e.message.encode C.serializeCompressed = e'.message.encode C.serializeCompressed

def preimage (magic : UInt32) (messageType : MessageType) (timestamp : Time) : Bytes :=
  putUint32 magic ++ putUint16 messageType ++ putUint32 (UInt32.ofNat (unix timestamp).toNat) ++ [0]

variable {C}

theorem envelopeHash_ok {magic : UInt32} {type : MessageType} {t : Time} {m : Message Bytes32 K Bytes65} {hash : D} :
    envelopeHash C magic type t m = .ok hash ↔
      (∃ buf, m.encode C.serializeCompressed = .ok buf) ∧ 0 ≤ unix t ∧ C.blake2b (preimage magic type t) = hash := by
  unfold envelopeHash encodeTime
  have hempty : encodeBytes [] = .ok [0] := rfl
  cases m.encode C.serializeCompressed with
  | error err => simp
  | ok buf =>
    by_cases ht : unix t < 0
    · simp [ht, Int.not_le.mpr ht, Except.map]
    · simp [ht, Int.not_lt.mp ht, hempty, preimage, Except.map]

theorem Envelope.Wellformed.hash {e : Envelope K S} (h : e.Wellformed C) :
    e.hash C = .ok (C.blake2b (preimage e.magic e.messageType e.timestamp)) :=
  envelopeHash_ok.mpr ⟨h.encodes, h.time.1, rfl⟩

/-- The preimage tells magic, type and the seconds that fit in 32 bits. -/
theorem preimage_inj {magic magic' : UInt32} {type type' : MessageType} {t t' : Time}
    (h : preimage magic type t = preimage magic' type' t') :
    magic = magic' ∧ type = type' ∧ UInt32.ofNat (unix t).toNat = UInt32.ofNat (unix t').toNat := by
  obtain ⟨h, -⟩ := List.append_inj' h rfl
  obtain ⟨h, ht⟩ := List.append_inj' h (length_putUint32_eq _ _)
  obtain ⟨hm, hty⟩ := List.append_inj' h (length_putUint16_eq _ _)
  exact ⟨putUint32_inj hm, putUint16_inj hty, putUint32_inj ht⟩

/-- Two envelopes hash alike exactly when magic, type and timestamp agree, whatever their
    messages. -/
theorem hash_eq_iff (hinj : Function.Injective C.blake2b) {e e' : Envelope K S} (h : e.Wellformed C) (h' : e'.Wellformed C) :
    e.hash C = e'.hash C ↔
      e.magic = e'.magic ∧ e.messageType = e'.messageType ∧ unix e.timestamp = unix e'.timestamp := by
  rw [h.hash, h'.hash]
  constructor
  · intro he
    obtain ⟨hm, hty, ht⟩ := preimage_inj (hinj (Except.ok.inj he))
    refine ⟨hm, hty, ?_⟩
    have ht := congrArg UInt32.toNat ht
    obtain ⟨h0, h1⟩ := h.time
    obtain ⟨h0', h1'⟩ := h'.time
    simp only [UInt32.toNat_ofNat'] at ht
    simp only [UInt32.size] at h1 h1'
    omega
  · rintro ⟨hm, hty, ht⟩
    simp only [preimage, hm, hty, ht]

/-! ## What a signature binds -/

/-- The messages that encode to nothing. -/
def NoBody (m : Message Bytes32 K Bytes65) : Prop := m = .ping ∨ m = .peerReq

theorem add_one_ne (v : UInt16) : putUint16 v ≠ putUint16 (v + 1) := by
  intro h
  have h := congrArg UInt16.toNat (putUint16_inj h)
  have hv := v.toNat_lt
  rw [UInt16.toNat_add] at h
  simp only [UInt16.reduceToNat] at h
  omega

theorem add_one_ne_of_uint32 (v : UInt32) : putUint32 v ≠ putUint32 (v + 1) := by
  intro h
  have h := congrArg UInt32.toNat (putUint32_inj h)
  have hv := v.toNat_lt
  rw [UInt32.toNat_add] at h
  simp only [UInt32.reduceToNat] at h
  omega

theorem exists_other_bytes32 (x : Bytes32) : ∃ y : Bytes32, x.1 ≠ y.1 := by
  by_cases h : x.1 = List.replicate 32 0
  · exact ⟨⟨List.replicate 32 1, rfl⟩, by rw [h]; decide⟩
  · exact ⟨⟨List.replicate 32 0, rfl⟩, h⟩

theorem nilUpdate_encode (ser : K → Bytes) {m : NilUpdate} {buf : Bytes}
    (hm : Message.encode ser (.nilUpdate m) = .ok buf) : buf = byteField m.name := by
  have hlen : m.name.length ≤ maxByteFieldLen := by
    by_contra hc
    simp [Message.encode, NilUpdate.encode, encodeBytes, Nat.not_le.mp hc] at hm
  simp only [Message.encode, NilUpdate.encode, encodeBytes, Nat.not_lt.mpr hlen, if_false, encodeFields_ok,
    encodeFields_nil, Except.map, List.append_nil, Except.ok.injEq] at hm
  exact hm.symm

/-- A list with peers in it does not encode to the empty one's zero byte. -/
theorem peerRes_cons_ne (ser : K → Bytes) {p : Peer Bytes32} {ps : List (Peer Bytes32)} {buf : Bytes}
    (hm : Message.encode ser (.peerRes (p :: ps)) = .ok buf) : buf ≠ [0] := by
  intro hbuf
  subst hbuf
  have hm := encodePeerRes_ok hm
  cases hs : encodeSlice Peer.encode (p :: ps) with
  | error e => simp [hs] at hm
  | ok b =>
    obtain ⟨items, rfl⟩ := encodeSlice_ok hs
    simp only [hs, encodeFields_ok, encodeFields_nil, Except.map, List.append_nil, Except.ok.injEq] at hm
    exact putUvarint_succ_ne ps.length items hm

/-- Every message with a body has another of its type with another encoding. -/
theorem exists_other (ser : K → Bytes) {m : Message Bytes32 K Bytes65} {buf : Bytes} (hm : m.encode ser = .ok buf)
    (hb : ¬ NoBody m) : ∃ m' buf', m'.msgType = m.msgType ∧ Message.encode ser m' = .ok buf' ∧ buf ≠ buf' := by
  cases m with
  | hello m =>
    obtain ⟨y, hy, hxy⟩ := encodeFields_swap (add_one_ne_of_uint32 m.protocolVersion) (length_putUint32_eq _ _) _ [] hm
    exact ⟨.hello { m with protocolVersion := m.protocolVersion + 1 }, y, rfl, hy, hxy⟩
  | helloAck m =>
    obtain ⟨nonce, hnonce⟩ := exists_other_bytes32 m.nonce
    obtain ⟨y, hy, hxy⟩ := encodeFields_swap hnonce (m.nonce.2.trans nonce.2.symm) _ [] hm
    exact ⟨.helloAck ⟨nonce⟩, y, rfl, hy, hxy⟩
  | ping => exact absurd (.inl rfl) hb
  | update m =>
    obtain ⟨y, hy, hxy⟩ := encodeFields_swap (add_one_ne m.epochHeight) (length_putUint16_eq _ _) _ [encodeBytes m.name] hm
    exact ⟨.update { m with epochHeight := m.epochHeight + 1 }, y, rfl, hy, hxy⟩
  | nilUpdate m =>
    have hbuf := nilUpdate_encode ser hm
    by_cases h : m.name = []
    · refine ⟨.nilUpdate ⟨[0]⟩, byteField [0], rfl, rfl, ?_⟩
      rw [hbuf, h]
      decide
    · refine ⟨.nilUpdate ⟨[]⟩, byteField [], rfl, rfl, ?_⟩
      rw [hbuf]
      exact fun he => h (byteField_inj he)
  | blobReq m =>
    obtain ⟨y, hy, hxy⟩ := encodeFields_swap (add_one_ne m.epochHeight) (length_putUint16_eq _ _) _ [encodeBytes m.name] hm
    exact ⟨.blobReq { m with epochHeight := m.epochHeight + 1 }, y, rfl, hy, hxy⟩
  | blobRes m =>
    obtain ⟨y, hy, hxy⟩ := encodeFields_swap (add_one_ne m.epochHeight) (length_putUint16_eq _ _) _ [encodeBytes m.name] hm
    exact ⟨.blobRes { m with epochHeight := m.epochHeight + 1 }, y, rfl, hy, hxy⟩
  | peerReq => exact absurd (.inr rfl) hb
  | peerRes peers =>
    cases peers with
    | nil =>
      have hbuf : buf = [0] := (Except.ok.inj hm).symm
      refine ⟨.peerRes [⟨List.replicate 16 0, ⟨List.replicate 32 0, rfl⟩⟩], 1 :: List.replicate 48 0, rfl, rfl, ?_⟩
      rw [hbuf]
      decide
    | cons p ps => exact ⟨.peerRes [], [0], rfl, rfl, peerRes_cons_ne ser hm⟩
  | updateReq m =>
    obtain ⟨y, hy, hxy⟩ := encodeFields_swap (add_one_ne m.epochHeight) (length_putUint16_eq _ _) _ [encodeBytes m.name] hm
    exact ⟨.updateReq { m with epochHeight := m.epochHeight + 1 }, y, rfl, hy, hxy⟩
  | equivocationProof m =>
    obtain ⟨y, hy, hxy⟩ := encodeFields_swap (add_one_ne m.remoteEpochHeight) (length_putUint16_eq _ _) _ [encodeBytes m.name] hm
    exact ⟨.equivocationProof { m with remoteEpochHeight := m.remoteEpochHeight + 1 }, y, rfl, hy, hxy⟩

theorem NoBody.eq {m m' : Message Bytes32 K Bytes65} (h : NoBody m) (ht : m'.msgType = m.msgType) : m' = m := by
  rcases h with rfl | rfl <;> cases m' <;> first | rfl | simp [Message.msgType] at ht

/-- What is assumed of the primitives: no collisions of blake2b or of serialised keys; a
    signature recovers its signer, and recovers a given key from one hash only. -/
structure EnvelopePrims.Sound (C : EnvelopePrims D K S) : Prop where
  blake2b : Function.Injective C.blake2b
  keys : Function.Injective C.serializeCompressed
  recover_sign : ∀ key hash, C.recoverCompact (C.signCompact key hash) hash = some key
  recover_one : ∀ sig hash hash' key, C.recoverCompact sig hash = some key → C.recoverCompact sig hash' = some key →
    hash = hash'

theorem verifySigHashedPub_iff [DecidableEq D] {e : Envelope K S} {id : D} : verifySigHashedPub C id e = true ↔
    ∃ hash key, e.hash C = .ok hash ∧ C.recoverCompact e.signature hash = some key ∧ hashPub C key = id := by
  unfold verifySigHashedPub
  cases hh : e.hash C with
  | error err => simp
  | ok hash =>
    cases hr : C.recoverCompact e.signature hash with
    | none => simp [hr]
    | some key => simp [hr]

theorem validateEnvelope_ok [DecidableEq D] {magic : UInt32} {id : D} {now : Time} {e : Envelope K S} :
    validateEnvelope C magic id now e = .ok () ↔ e.magic = magic ∧ now - validMessageDeadline ≤ e.timestamp ∧
      e.timestamp ≤ now + validMessageDeadline ∧ verifySigHashedPub C id e = true := by
  unfold validateEnvelope
  constructor
  · intro h
    split at h
    · cases h
    rename_i hm
    split at h
    · cases h
    rename_i ht
    split at h
    · rename_i hv
      rw [not_or] at ht
      exact ⟨by simpa using hm, Int.not_lt.mp ht.1, Int.not_lt.mp ht.2, hv⟩
    · cases h
  · rintro ⟨rfl, h1, h2, hv⟩
    simp [Int.not_lt.mpr h1, Int.not_lt.mpr h2, hv]

theorem newEnvelope_ok {magic : UInt32} {m : Message Bytes32 K Bytes65} {now : Time} {key : K} {e : Envelope K S}
    (h : newEnvelope C magic m now key = .ok e) :
    e.message = m ∧ e.Valid C ∧ ∃ hash, e.hash C = .ok hash ∧ e.signature = C.signCompact key hash := by
  unfold newEnvelope at h
  split at h
  · cases h
  · rename_i hash hh
    cases h
    exact ⟨rfl, ⟨rfl, (envelopeHash_ok.mp hh).1⟩, hash, hh, rfl⟩

/-- A valid envelope with a body can be given another body: the hash stays. -/
theorem Envelope.Valid.exists_other {e : Envelope K S} (h : e.Valid C) (hb : ¬ NoBody e.message) :
    ∃ m', ({ e with message := m' } : Envelope K S).Valid C ∧ ({ e with message := m' } : Envelope K S).hash C = e.hash C ∧
      e.message.encode C.serializeCompressed ≠ m'.encode C.serializeCompressed := by
  obtain ⟨buf, hbuf⟩ := h.encodes
  obtain ⟨m', buf', hty, hm', hne⟩ := Wire.exists_other _ hbuf hb
  refine ⟨m', ⟨h.type.trans hty.symm, ⟨buf', hm'⟩⟩, ?_, ?_⟩
  · simp only [Envelope.hash, envelopeHash, hbuf, hm']
  · rw [hbuf, hm']
    exact fun he => hne (Except.ok.inj he)

theorem Envelope.Valid.message_eq (hinj : Function.Injective C.blake2b) {e e' : Envelope K S} (h : e.Valid C)
    (h' : e'.Valid C) (hb : NoBody e.message) {hash : D} (hh : e.hash C = .ok hash) (hh' : e'.hash C = .ok hash) :
    e'.message = e.message := by
  obtain ⟨-, -, hp⟩ := envelopeHash_ok.mp hh
  obtain ⟨-, -, hp'⟩ := envelopeHash_ok.mp hh'
  obtain ⟨-, hty, -⟩ := preimage_inj (hinj (hp'.trans hp.symm))
  exact hb.eq (by rw [← h'.type, hty, h.type])

/-- Equal hashes mean equal envelopes, for an envelope without a body and for no other;
    and the message accepted with a signature made by `NewEnvelope` is the one signed, for
    a message without a body and for no other. -/
theorem signature_binds_iff_no_body [DecidableEq D] (hC : C.Sound) :
    (∀ e : Envelope K S, e.Wellformed C →
      ((∀ e' : Envelope K S, e'.Wellformed C → e.hash C = e'.hash C → Same C e e') ↔ NoBody e.message)) ∧
    (∀ magic m now key (e : Envelope K S), newEnvelope C magic m now key = .ok e →
      ∀ later, validateEnvelope C magic (hashPub C key) later e = .ok () →
      ((∀ e' : Envelope K S, e'.Valid C → e'.signature = e.signature →
        validateEnvelope C magic (hashPub C key) later e' = .ok () →
        e'.message.encode C.serializeCompressed = m.encode C.serializeCompressed) ↔ NoBody m)) := by
  constructor
  · intro e he
    constructor
    · intro h
      by_contra hb
      obtain ⟨m', hv, hh, hne⟩ := he.exists_other hb
      exact hne (h _ { hv with time := he.time } hh.symm).message
    · intro hb e' he' hh
      obtain ⟨hm, hty, ht⟩ := (hash_eq_iff hC.blake2b he he').mp hh
      have hmsg := he.message_eq hC.blake2b he'.toValid hb he.hash (hh ▸ he.hash)
      exact ⟨hm, hty, ht, by rw [hmsg]⟩
  · intro magic m now key e hnew later hval
    obtain ⟨rfl, he, hash, hhash, hsig⟩ := newEnvelope_ok hnew
    constructor
    · intro h
      by_contra hb
      obtain ⟨m', hv, hh, hne⟩ := he.exists_other hb
      obtain ⟨hmagic, hlow, hhigh, hver⟩ := validateEnvelope_ok.mp hval
      obtain ⟨d, k, hd, hk, hid⟩ := verifySigHashedPub_iff.mp hver
      have hver' := verifySigHashedPub_iff.mpr ⟨d, k, hh.trans hd, hk, hid⟩
      exact hne (h _ hv rfl (validateEnvelope_ok.mpr ⟨hmagic, hlow, hhigh, hver'⟩)).symm
    · intro hb e' he' hsig' hval'
      -- the key recovered from the other envelope is the signer's, so the hashes agree
      obtain ⟨-, -, -, hver'⟩ := validateEnvelope_ok.mp hval'
      obtain ⟨hash', key', hhash', hrec, hid⟩ := verifySigHashedPub_iff.mp hver'
      obtain rfl := hC.keys (hC.blake2b hid)
      rw [hsig', hsig] at hrec
      obtain rfl := hC.recover_one _ _ _ _ (hC.recover_sign key' hash) hrec
      rw [he.message_eq hC.blake2b he' hb hhash hhash']

/-- Symbolic primitives: a hash is its preimage and a signature shows its signer. -/
def symbolic : EnvelopePrims Bytes UInt8 (UInt8 × Bytes) where
  blake2b := id
  serializeCompressed key := List.replicate 33 key
  signCompact key hash := (key, hash)
  recoverCompact sig hash := if sig.2 = hash then some sig.1 else none

theorem symbolic_sound : symbolic.Sound where
  blake2b := Function.injective_id
  keys _ _ h := (List.cons.inj h).1
  recover_sign _ _ := if_pos rfl
  recover_one := by
    rintro ⟨signer, signed⟩ hash hash' key h h'
    simp only [symbolic, Option.ite_none_right_eq_some] at h h'
    exact h.1.symm.trans h'.1

/-- `signature_binds_iff_no_body` at a signed `Ping`. -/
theorem a_signed_ping_binds : ∃ e, newEnvelope symbolic 1 .ping 0 7 = .ok e ∧
    ∀ e' : Envelope UInt8 (UInt8 × Bytes), e'.Valid symbolic → e'.signature = e.signature →
      validateEnvelope symbolic 1 (hashPub symbolic 7) 0 e' = .ok () →
      e'.message.encode symbolic.serializeCompressed = Message.encode symbolic.serializeCompressed .ping :=
  ⟨_, rfl, ((signature_binds_iff_no_body symbolic_sound).2 1 .ping 0 7 _ rfl 0 rfl).mpr (.inl rfl)⟩

def nonceOf (x : UInt8) : Bytes32 := ⟨List.replicate 32 x, List.length_replicate⟩

def ackOf (x : UInt8) : Message Bytes32 UInt8 Bytes65 := .helloAck ⟨nonceOf x⟩

/-- A signed `HelloAck` given another nonce keeps its hash and is accepted. -/
theorem a_signed_ack_is_accepted_with_another_nonce : symbolic.Sound ∧
    ∃ e, newEnvelope symbolic 1 (ackOf 1) 0 7 = .ok e ∧ e.Wellformed symbolic ∧
      ({ e with message := ackOf 2 } : Envelope UInt8 (UInt8 × Bytes)).Wellformed symbolic ∧
      e.hash symbolic = ({ e with message := ackOf 2 } : Envelope UInt8 (UInt8 × Bytes)).hash symbolic ∧
      ¬ Same symbolic e { e with message := ackOf 2 } ∧
      validateEnvelope symbolic 1 (hashPub symbolic 7) 0 { e with message := ackOf 2 } = .ok () ∧
      (ackOf 2).encode symbolic.serializeCompressed ≠ (ackOf 1).encode symbolic.serializeCompressed := by
  have hne : (ackOf 2).encode symbolic.serializeCompressed ≠ (ackOf 1).encode symbolic.serializeCompressed := by
    intro h
    exact absurd (List.cons.inj (Except.ok.inj h)).1 (by decide)
  have htime : 0 ≤ unix 0 ∧ unix 0 < UInt32.size := by decide
  have hw : ∀ x sig, (⟨1, 1, 0, ackOf x, sig⟩ : Envelope UInt8 (UInt8 × Bytes)).Wellformed symbolic :=
    fun x _ => { type := rfl, encodes := ⟨List.replicate 32 x, rfl⟩, time := htime }
  exact ⟨symbolic_sound, _, rfl, hw 1 _, hw 2 _, rfl, fun h => hne h.message.symm, rfl, hne⟩

end Fnd.Wire

/-
  Fnd.Wire.Codec — the decoders of the eleven messages and of the envelope (`wire/*.go`), and
  the round trip.

  `RoundTrips enc d a`: `enc` succeeds, and wherever its bytes stand `d` takes exactly them off
  the stream as `a`. It composes field by field, so a message's `Decode` is checked against its
  `Encode` one field at a time, and an envelope's body is a byte field that the message's decoder
  reads back. `envelopes_roundtrip`: envelopes written one after another are
  read back in order, down to the second and with 16-byte IPs, and nothing of what follows them
  is touched. `Message.encode_inj` is what that says of two messages of one type.
-/

import Mathlib.Algebra.Group.Nat.Defs
import Fnd.Lib.Each
import Fnd.Wire.Decode
import Fnd.Wire.Envelope

namespace Fnd.Dwire

open Decoder (Reads)

/-- `BigEndian.Uint32`. -/
def uint32 : { bs : Bytes // bs.length = 4 } → UInt32
  | ⟨[b0, b1, b2, b3], _⟩ => b0.toUInt32 <<< 24 ||| b1.toUInt32 <<< 16 ||| b2.toUInt32 <<< 8 ||| b3.toUInt32

def getUint32 : Reader UInt32 := do
  let b ← readFull 4
  return uint32 b

/-- `DecodeTime`. -/
def decodeTime : Reader Time := do
  let unixTs ← getUint32
  return unixTs.toNat * second

theorem or_bytes {a b c d : Nat} (ha : a < 256) (hb : b < 256) (hc : c < 256) (hd : d < 256) :
    a <<< 24 % 2 ^ 32 ||| b <<< 16 % 2 ^ 32 ||| c <<< 8 % 2 ^ 32 ||| d = 2 ^ 24 * a + (2 ^ 16 * b + (2 ^ 8 * c + d)) := by
  have h1 : a <<< 24 % 2 ^ 32 = 2 ^ 24 * a := by rw [Nat.shiftLeft_eq, Nat.mul_comm, Nat.mod_eq_of_lt (by omega)]
  have h2 : b <<< 16 % 2 ^ 32 = 2 ^ 16 * b := by rw [Nat.shiftLeft_eq, Nat.mul_comm, Nat.mod_eq_of_lt (by omega)]
  have h3 : c <<< 8 % 2 ^ 32 = 2 ^ 8 * c := by rw [Nat.shiftLeft_eq, Nat.mul_comm, Nat.mod_eq_of_lt (by omega)]
  have e3 := Nat.two_pow_add_eq_or_of_lt (show d < 2 ^ 8 from hd) c
  have e2 := Nat.two_pow_add_eq_or_of_lt (show 2 ^ 8 * c + d < 2 ^ 16 by omega) b
  have e1 := Nat.two_pow_add_eq_or_of_lt (show 2 ^ 16 * b + (2 ^ 8 * c + d) < 2 ^ 24 by omega) a
  rw [h1, h2, h3, Nat.or_assoc, Nat.or_assoc, ← e3, ← e2, ← e1]

theorem uint32_putUint32 (v : UInt32) : uint32 ⟨putUint32 v, length_putUint32 v⟩ = v := by
  have hv := v.toNat_lt
  have h24 : UInt32.toNat 24 % 32 = 24 := by decide
  have h16 : UInt32.toNat 16 % 32 = 16 := by decide
  have h8 : UInt32.toNat 8 % 32 = 8 := by decide
  apply UInt32.toNat_inj.mp
  simp only [uint32, putUint32, UInt32.toNat_or, UInt32.toNat_shiftLeft, UInt8.toNat_toUInt32, UInt32.toNat_toUInt8,
    UInt32.toNat_shiftRight, h24, h16, h8]
  rw [or_bytes (by omega) (by omega) (by omega) (by omega)]
  simp only [Nat.shiftRight_eq_div_pow]
  omega

theorem getUint32_reads (v : UInt32) : Reads getUint32 (putUint32 v) v := by
  refine (readFull_reads ⟨putUint32 v, length_putUint32 v⟩).then ?_
  rw [uint32_putUint32]
  exact Reads.pure v

/-! ## Field by field -/

variable {α γ : Type}

/-- What is encoded does encode, and `d` reads it back as `a`. -/
def RoundTrips (enc : Except EncodeErr Bytes) (d : Reader α) (a : α) : Prop := ∃ buf, enc = .ok buf ∧ Reads d buf a

theorem RoundTrips.nil (a : α) : RoundTrips (encodeFields []) (pure a) a := ⟨[], rfl, Reads.pure a⟩

theorem RoundTrips.cons {f : Except EncodeErr Bytes} {fs : List (Except EncodeErr Bytes)} {d : Reader α} {g : α → Reader γ}
    {a : α} {r : γ} (hf : RoundTrips f d a) (h : RoundTrips (encodeFields fs) (g a) r) :
    RoundTrips (encodeFields (f :: fs)) (d >>= g) r := by
  obtain ⟨b, rfl, hb⟩ := hf
  obtain ⟨buf, hbuf, hr⟩ := h
  exact ⟨b ++ buf, by rw [encodeFields_ok, hbuf]; rfl, hb.bind hr⟩

theorem RoundTrips.single {f : Except EncodeErr Bytes} {d : Reader α} {a : α} (h : RoundTrips f d a) :
    RoundTrips (encodeFields [f]) d a := by
  obtain ⟨b, rfl, hb⟩ := h
  exact ⟨b, by rw [encodeFields_ok, encodeFields_nil]; exact congrArg Except.ok (List.append_nil b), hb⟩

theorem trips_uint16 (v : UInt16) : RoundTrips (.ok (putUint16 v)) getUint16 v := ⟨_, rfl, getUint16_reads v⟩

theorem trips_uint32 (v : UInt32) : RoundTrips (.ok (putUint32 v)) getUint32 v := ⟨_, rfl, getUint32_reads v⟩

theorem trips_array {n : Nat} (b : { bs : Bytes // bs.length = n }) : RoundTrips (.ok b.1) (readFull n) b :=
  ⟨_, rfl, readFull_reads b⟩

theorem trips_bytes {b : Bytes} (h : b.length ≤ maxByteFieldLen) : RoundTrips (encodeBytes b) decodeBytes b :=
  ⟨_, if_neg (Nat.not_lt.mpr h), decodeBytes_reads h⟩

theorem trips_time {t : Time} (h : 0 ≤ unix t ∧ unix t < UInt32.size) :
    RoundTrips (encodeTime t) decodeTime (unix t * second) := by
  refine ⟨_, if_neg (Int.not_lt.mpr h.1), (getUint32_reads _).then ?_⟩
  have hnat : ((UInt32.ofNat (unix t).toNat).toNat : Int) = unix t := by
    have := h.2
    simp only [UInt32.size] at this
    rw [UInt32.toNat_ofNat']
    omega
  rw [hnat]
  exact Reads.pure _

theorem trips_slice {enc : γ → Except EncodeErr Bytes} {f : γ → Bytes} {c : γ → α} {dec : Reader α} {xs : List γ}
    (hlen : xs.length ≤ maxVariableArrayLen) (henc : ∀ x ∈ xs, enc x = .ok (f x) ∧ Reads dec (f x) (c x)) :
    RoundTrips (encodeSlice enc xs) (decodeSlice dec) (xs.map c) := by
  refine ⟨_, ?_, decodeSlice_reads_map (fun x hx => (henc x hx).2) hlen⟩
  rw [encodeSlice, if_neg (Nat.not_lt.mpr hlen), Each.mapM_ok fun x hx => (henc x hx).1]
  rfl

/-! ## What encodes is within the limits -/

theorem encodeFields_mem {fs : List (Except EncodeErr Bytes)} : ∀ {buf : Bytes}, encodeFields fs = .ok buf →
    ∀ f ∈ fs, ∃ b, f = .ok b := by
  induction fs with
  | nil => intro _ _ f hf; cases hf
  | cons g fs ih =>
    intro buf h f hf
    cases g with
    | error e => rw [encodeFields_error] at h; cases h
    | ok b =>
      rcases List.mem_cons.mp hf with rfl | hf
      · exact ⟨b, rfl⟩
      · cases hrest : encodeFields fs with
        | error e => rw [encodeFields_ok, hrest] at h; cases h
        | ok rest => exact ih hrest f hf

theorem length_le_of_encodeBytes {b : Bytes} (h : ∃ buf, encodeBytes b = .ok buf) : b.length ≤ maxByteFieldLen := by
  obtain ⟨buf, h⟩ := h
  unfold encodeBytes at h
  split at h
  · cases h
  · rename_i hle; exact Nat.not_lt.mp hle

theorem mem_of_mapM {enc : γ → Except EncodeErr Bytes} {xs : List γ} : ∀ {bufs : List Bytes}, xs.mapM enc = .ok bufs →
    ∀ x ∈ xs, ∃ b, enc x = .ok b := by
  induction xs with
  | nil => intro _ _ x hx; cases hx
  | cons y xs ih =>
    intro bufs h x hx
    rw [List.mapM_cons] at h
    cases hy : enc y with
    | error e => rw [hy] at h; cases h
    | ok b =>
      cases hxs : xs.mapM enc with
      | error e => rw [hy, hxs] at h; cases h
      | ok bs =>
        rcases List.mem_cons.mp hx with rfl | hx
        · exact ⟨b, hy⟩
        · exact ih hxs x hx

theorem of_encodeSlice {enc : γ → Except EncodeErr Bytes} {xs : List γ} (h : ∃ buf, encodeSlice enc xs = .ok buf) :
    xs.length ≤ maxVariableArrayLen ∧ ∀ x ∈ xs, ∃ b, enc x = .ok b := by
  obtain ⟨buf, h⟩ := h
  unfold encodeSlice at h
  split at h
  · cases h
  · rename_i hle
    refine ⟨Nat.not_lt.mp hle, ?_⟩
    cases hm : xs.mapM enc with
    | error e => rw [hm] at h; cases h
    | ok bufs => exact mem_of_mapM hm

end Fnd.Dwire

namespace Fnd.Wire

open Dwire
open Decoder (Reads)
open Blob (Sector sectorBytes)

variable {K : Type}

/-! ## Decoders -/

section

variable (parsePubKey : Bytes → Option K)

/-- `PublicKeyEncoder.Decode`. -/
def decodePublicKey : Reader K := do
  let buf ← readFull 33
  match parsePubKey buf.1 with
  | none => throw .publicKey
  | some key => return key

def Hello.decode : Reader (Hello K) := do
  let protocolVersion ← getUint32
  let localNonce ← readFull 32
  let remoteNonce ← readFull 32
  let publicKey ← decodePublicKey parsePubKey
  let userAgent ← decodeBytes
  return ⟨protocolVersion, localNonce, remoteNonce, publicKey, userAgent⟩

def HelloAck.decode : Reader HelloAck := do
  let nonce ← readFull 32
  return ⟨nonce⟩

def Update.decode : Reader Update := do
  let name ← decodeBytes
  let epochHeight ← getUint16
  let sectorSize ← getUint16
  return ⟨name, epochHeight, sectorSize⟩

def NilUpdate.decode : Reader NilUpdate := do
  let name ← decodeBytes
  return ⟨name⟩

def BlobReq.decode : Reader BlobReq := do
  let name ← decodeBytes
  let epochHeight ← getUint16
  let sectorSize ← getUint16
  return ⟨name, epochHeight, sectorSize⟩

def UpdateReq.decode : Reader UpdateReq := do
  let name ← decodeBytes
  let epochHeight ← getUint16
  let sectorSize ← getUint16
  return ⟨name, epochHeight, sectorSize⟩

def BlobRes.decode : Reader (BlobRes Bytes32 Bytes65) := do
  let name ← decodeBytes
  let epochHeight ← getUint16
  let payloadPosition ← getUint16
  let prevHash ← readFull 32
  let reservedRoot ← readFull 32
  let payload ← decodePayload
  let signature ← readFull 65
  return ⟨name, epochHeight, payloadPosition, prevHash, reservedRoot, payload, signature⟩

def Peer.decode : Reader (Peer Bytes32) := do
  let ip ← readFull 16
  let id ← readFull 32
  return ⟨ip.1, id⟩

def decodePeerRes : Reader (List (Peer Bytes32)) := decodeSlice Peer.decode

/-- `msg.Decode` of the message that `Envelope.Decode` makes for the type. -/
def Message.decode (messageType : MessageType) : Reader (Message Bytes32 K Bytes65) :=
  match messageType with
  | 0 => return .hello (← Hello.decode parsePubKey)
  | 1 => return .helloAck (← HelloAck.decode)
  | 2 => return .ping
  | 3 => return .update (← Update.decode)
  | 4 => return .nilUpdate (← NilUpdate.decode)
  | 5 => return .blobReq (← BlobReq.decode)
  | 6 => return .blobRes (← BlobRes.decode)
  | 7 => return .peerReq
  | 8 => return .peerRes (← decodePeerRes)
  | 9 => return .updateReq (← UpdateReq.decode)
  | 11 => return .equivocationProof (← EquivocationProof.decode)
  | _ => throw .invalidMessageType

/-- `Envelope.Decode`: bytes of the body that the message leaves unread are dropped. -/
def Envelope.decode : Reader (Envelope K Bytes65) := do
  let magic ← getUint32
  let messageType ← getUint16
  let timestamp ← decodeTime
  let msgBuf ← decodeBytes
  let signature ← readFull 65
  match Message.decode parsePubKey messageType msgBuf with
  | .error err => throw err
  | .ok (message, _) => return ⟨magic, messageType, timestamp, message, signature⟩

end

/-! ## What the limits admit -/

/-- `SerializeCompressed` gives 33 bytes that `ParsePubKey` reads back. -/
structure ParsesBack (ser : K → Bytes) (parsePubKey : Bytes → Option K) : Prop where
  length : ∀ key, (ser key).length = 33
  parse : ∀ key, parsePubKey (ser key) = some key

/-- The field sizes are within the encoder's limits, and IPs have 4 or 16 bytes. -/
def Message.Fits : Message Bytes32 K Bytes65 → Prop
  | .hello m => m.userAgent.length ≤ maxByteFieldLen
  | .helloAck _ => True
  | .ping => True
  | .update m => m.name.length ≤ maxByteFieldLen
  | .nilUpdate m => m.name.length ≤ maxByteFieldLen
  | .blobReq m => m.name.length ≤ maxByteFieldLen
  | .blobRes m => m.name.length ≤ maxByteFieldLen ∧ m.payload.length ≤ maxVariableArrayLen
  | .peerReq => True
  | .peerRes peers => peers.length ≤ maxVariableArrayLen ∧ ∀ p ∈ peers, p.ip.length = 4 ∨ p.ip.length = 16
  | .updateReq m => m.name.length ≤ maxByteFieldLen
  | .equivocationProof m => m.name.length ≤ maxByteFieldLen ∧ m.remotePayload.length ≤ maxVariableArrayLen

/-- The IP in its 16-byte form. -/
def Peer.canonical (p : Peer Bytes32) : Peer Bytes32 := { p with ip := (to16 p.ip).getD p.ip }

def Message.canonical : Message Bytes32 K Bytes65 → Message Bytes32 K Bytes65
  | .peerRes peers => .peerRes (peers.map Peer.canonical)
  | m => m

theorem Message.fits_of_encode {ser : K → Bytes} {m : Message Bytes32 K Bytes65} {buf : Bytes} (h : m.encode ser = .ok buf) :
    m.Fits := by
  cases m with
  | hello m => exact length_le_of_encodeBytes (encodeFields_mem h _ (by simp))
  | helloAck m => trivial
  | ping => trivial
  | update m => exact length_le_of_encodeBytes (encodeFields_mem h _ (by simp))
  | nilUpdate m => exact length_le_of_encodeBytes (encodeFields_mem h _ (by simp))
  | blobReq m => exact length_le_of_encodeBytes (encodeFields_mem h _ (by simp))
  | blobRes m =>
    refine ⟨length_le_of_encodeBytes (encodeFields_mem h _ (by simp)), ?_⟩
    have hpayload : ∃ b, encodePayload m.payload = .ok b := encodeFields_mem h _ (by simp)
    exact (of_encodeSlice hpayload).1
  | peerReq => trivial
  | peerRes peers =>
    have hpeers : ∃ b, encodeSlice Peer.encode peers = .ok b := encodeFields_mem (encodePeerRes_ok h) _ (by simp)
    obtain ⟨hlen, hmem⟩ := of_encodeSlice hpeers
    refine ⟨hlen, fun p hp => ?_⟩
    obtain ⟨b, hb⟩ := hmem p hp
    obtain ⟨ip, hip⟩ := encodeFields_mem hb _ List.mem_cons_self
    unfold to16 at hip
    split at hip
    · rename_i h16
      split at h16
      · exact .inl ‹_›
      · split at h16
        · exact .inr ‹_›
        · cases h16
    · cases hip
  | updateReq m => exact length_le_of_encodeBytes (encodeFields_mem h _ (by simp))
  | equivocationProof m =>
    refine ⟨length_le_of_encodeBytes (encodeFields_mem h _ (by simp [EquivocationProof.fields])), ?_⟩
    have hpayload : ∃ b, encodePayload m.remotePayload = .ok b := encodeFields_mem h _ (by simp [EquivocationProof.fields])
    exact (of_encodeSlice hpayload).1

/-! ## Each message -/

theorem Hello.roundtrips {ser : K → Bytes} {parsePubKey : Bytes → Option K} (hkeys : ParsesBack ser parsePubKey)
    (m : Hello K) (h : m.userAgent.length ≤ maxByteFieldLen) :
    RoundTrips (m.encode ser) (Hello.decode parsePubKey) m := by
  have hkey : RoundTrips (.ok (ser m.publicKey)) (decodePublicKey parsePubKey) m.publicKey := by
    refine ⟨_, rfl, (readFull_reads ⟨ser m.publicKey, hkeys.length _⟩).then ?_⟩
    simp only [hkeys.parse]
    exact Reads.pure _
  exact .cons (trips_uint32 _) <| .cons (trips_array _) <| .cons (trips_array _) <| .cons hkey <| .cons (trips_bytes h) <|
    .nil m

theorem HelloAck.roundtrips (m : HelloAck) : RoundTrips m.encode HelloAck.decode m :=
  .cons (trips_array _) (.nil m)

theorem Update.roundtrips (m : Update) (h : m.name.length ≤ maxByteFieldLen) :
    RoundTrips m.encode Update.decode m :=
  .cons (trips_bytes h) <| .cons (trips_uint16 _) <| .cons (trips_uint16 _) <| .nil m

theorem NilUpdate.roundtrips (m : NilUpdate) (h : m.name.length ≤ maxByteFieldLen) :
    RoundTrips m.encode NilUpdate.decode m :=
  .cons (trips_bytes h) (.nil m)

theorem BlobReq.roundtrips (m : BlobReq) (h : m.name.length ≤ maxByteFieldLen) :
    RoundTrips m.encode BlobReq.decode m :=
  .cons (trips_bytes h) <| .cons (trips_uint16 _) <| .cons (trips_uint16 _) <| .nil m

theorem UpdateReq.roundtrips (m : UpdateReq) (h : m.name.length ≤ maxByteFieldLen) :
    RoundTrips m.encode UpdateReq.decode m :=
  .cons (trips_bytes h) <| .cons (trips_uint16 _) <| .cons (trips_uint16 _) <| .nil m

theorem trips_payload {xs : List Sector} (h : xs.length ≤ maxVariableArrayLen) :
    RoundTrips (encodePayload xs) decodePayload xs := by
  have hslice : RoundTrips (encodePayload xs) decodePayload (xs.map id) :=
    trips_slice h fun x _ => ⟨rfl, readFull_reads x⟩
  rwa [List.map_id] at hslice

theorem BlobRes.roundtrips (m : BlobRes Bytes32 Bytes65) (hname : m.name.length ≤ maxByteFieldLen)
    (hpayload : m.payload.length ≤ maxVariableArrayLen) : RoundTrips m.encode BlobRes.decode m :=
  .cons (trips_bytes hname) <| .cons (trips_uint16 _) <| .cons (trips_uint16 _) <| .cons (trips_array _) <|
    .cons (trips_array _) <| .cons (trips_payload hpayload) <| .cons (trips_array _) <| .nil m

theorem Peer.roundtrips (p : Peer Bytes32) (h : p.ip.length = 4 ∨ p.ip.length = 16) :
    RoundTrips p.encode Peer.decode p.canonical := by
  obtain ⟨b, hb, hlen⟩ : ∃ b, to16 p.ip = some b ∧ b.length = 16 := by
    unfold to16
    rcases h with h | h
    · exact ⟨_, if_pos h, by simp [h]⟩
    · exact ⟨p.ip, by rw [if_neg (by omega), if_pos h], h⟩
  have henc : p.encode = encodeFields [.ok b, .ok p.id.1] := by simp only [encode, hb]
  have hip : RoundTrips (.ok b) (readFull 16) ⟨b, hlen⟩ := ⟨b, rfl, readFull_reads ⟨b, hlen⟩⟩
  have hcanon : p.canonical = ⟨b, p.id⟩ := by simp only [canonical, hb, Option.getD_some]
  rw [henc, hcanon]
  exact .cons hip <| .cons (trips_array _) <| .nil _

theorem peerRes_roundtrips (peers : List (Peer Bytes32)) (hlen : peers.length ≤ maxVariableArrayLen)
    (hip : ∀ p ∈ peers, p.ip.length = 4 ∨ p.ip.length = 16) :
    RoundTrips (encodePeerRes peers) decodePeerRes (peers.map Peer.canonical) := by
  let bytes (p : Peer Bytes32) : Bytes := p.encode.toOption.getD []
  have hpeer : ∀ p ∈ peers, p.encode = .ok (bytes p) ∧ Reads Peer.decode (bytes p) p.canonical := by
    intro p hp
    obtain ⟨buf, henc, hread⟩ := p.roundtrips (hip p hp)
    have hbytes : bytes p = buf := by simp only [bytes, henc]; rfl
    rw [hbytes]
    exact ⟨henc, hread⟩
  obtain ⟨buf, henc, hread⟩ := RoundTrips.single (trips_slice hlen hpeer)
  refine ⟨buf, ?_, hread⟩
  rw [encodePeerRes, Each.mapM_ok fun p hp => (hpeer p hp).1]
  exact henc

theorem EquivocationProof.roundtrips (m : EquivocationProof Bytes32 Bytes65) (hname : m.name.length ≤ maxByteFieldLen)
    (hpayload : m.remotePayload.length ≤ maxVariableArrayLen) :
    RoundTrips m.encode EquivocationProof.decode m :=
  .cons (trips_bytes hname) <| .cons (trips_uint16 _) <| .cons (trips_uint16 _) <| .cons (trips_array _) <|
    .cons (trips_array _) <| .cons (trips_payload hpayload) <| .cons (trips_array _) <| .cons (trips_uint16 _) <|
    .cons (trips_uint16 _) <| .cons (trips_array _) <| .cons (trips_array _) <| .cons (trips_array _) <| .nil m

variable {ser : K → Bytes} {parsePubKey : Bytes → Option K}

theorem wraps {α : Type} {enc : Except EncodeErr Bytes} {d : Reader α} {a : α}
    (h : RoundTrips enc d a) (f : α → Message Bytes32 K Bytes65) :
    RoundTrips enc (do return f (← d)) (f a) := by
  obtain ⟨buf, henc, hread⟩ := h
  exact ⟨buf, henc, hread.then (Reads.pure _)⟩

/-- A message within the limits encodes, and the decoder for its type reads it back. -/
theorem Message.roundtrips (hkeys : ParsesBack ser parsePubKey) (m : Message Bytes32 K Bytes65) (h : m.Fits) :
    RoundTrips (m.encode ser) (Message.decode parsePubKey m.msgType) m.canonical := by
  cases m with
  | hello m => exact wraps (m.roundtrips hkeys h) .hello
  | helloAck m => exact wraps m.roundtrips .helloAck
  | ping => exact ⟨[], rfl, Reads.pure _⟩
  | update m => exact wraps (m.roundtrips h) .update
  | nilUpdate m => exact wraps (m.roundtrips h) .nilUpdate
  | blobReq m => exact wraps (m.roundtrips h) .blobReq
  | blobRes m => exact wraps (m.roundtrips h.1 h.2) .blobRes
  | peerReq => exact ⟨[], rfl, Reads.pure _⟩
  | peerRes peers => exact wraps (peerRes_roundtrips peers h.1 h.2) .peerRes
  | updateReq m => exact wraps (m.roundtrips h) .updateReq
  | equivocationProof m => exact wraps (m.roundtrips h.1 h.2) .equivocationProof

/-- Two messages of one type with the same encoding have the same content. -/
theorem Message.encode_inj (hkeys : ParsesBack ser parsePubKey) {m m' : Message Bytes32 K Bytes65} {body : Bytes}
    (h : m.encode ser = .ok body) (h' : m'.encode ser = .ok body) (htype : m.msgType = m'.msgType) :
    m.canonical = m'.canonical := by
  obtain ⟨buf, henc, hread⟩ := m.roundtrips hkeys (fits_of_encode h)
  obtain ⟨buf', henc', hread'⟩ := m'.roundtrips hkeys (fits_of_encode h')
  obtain rfl : body = buf := Except.ok.inj (h.symm.trans henc)
  obtain rfl : body = buf' := Except.ok.inj (h'.symm.trans henc')
  rw [htype] at hread
  have heq := (hread []).symm.trans (hread' [])
  exact congrArg Prod.fst (Except.ok.inj heq)

theorem to16_to16 {ip b : Bytes} (h : to16 ip = some b) : to16 b = some b := by
  unfold to16 at h
  have hb : b.length = 16 := by
    split at h
    · cases h; simp [*]
    · split at h
      · cases h; assumption
      · cases h
  rw [to16, if_neg (by omega), if_pos hb]

theorem Peer.encode_canonical (p : Peer Bytes32) : p.canonical.encode = p.encode := by
  unfold Peer.encode Peer.canonical
  cases h : to16 p.ip with
  | none => simp [h]
  | some b => simp [to16_to16 h]

/-- The 4-byte form of an IP is encoded like its 16-byte form. -/
theorem Message.encode_canonical (ser : K → Bytes) (m : Message Bytes32 K Bytes65) : m.canonical.encode ser = m.encode ser := by
  cases m with
  | peerRes peers =>
    have hitems : (peers.map Peer.canonical).mapM Peer.encode = peers.mapM Peer.encode := by
      induction peers with
      | nil => rfl
      | cons p ps ih => rw [List.map_cons, List.mapM_cons, List.mapM_cons, ih, Peer.encode_canonical]
    simp only [canonical, encode, encodePeerRes, encodeSlice, List.length_map, hitems]
  | _ => rfl

/-! ## Envelopes -/

/-- The envelope is of its message's type, its fields are within the limits, the encoded message
    too, and its time is one of the wire's. -/
structure Envelope.Fits (ser : K → Bytes) (e : Envelope K Bytes65) : Prop where
  type : e.messageType = e.message.msgType
  message : e.message.Fits
  body : ∀ buf, e.message.encode ser = .ok buf → buf.length ≤ maxByteFieldLen
  time : 0 ≤ unix e.timestamp ∧ unix e.timestamp < UInt32.size

/-- To the second, and with 16-byte IPs. -/
def Envelope.canonical (e : Envelope K Bytes65) : Envelope K Bytes65 :=
  { e with timestamp := unix e.timestamp * second, message := e.message.canonical }

theorem Envelope.roundtrips (hkeys : ParsesBack ser parsePubKey) (e : Envelope K Bytes65) (h : e.Fits ser) :
    RoundTrips (e.encode ser) (Envelope.decode parsePubKey) e.canonical := by
  obtain ⟨body, hbody, hread⟩ := e.message.roundtrips hkeys h.message
  have hmsg : Message.decode parsePubKey e.messageType body = .ok (e.message.canonical, []) := by
    have := hread []
    rwa [List.append_nil, ← h.type] at this
  have htail : RoundTrips (encodeFields []) (match Message.decode parsePubKey e.messageType body with
      | .error err => throw err
      | .ok (message, _) => return ⟨e.magic, e.messageType, unix e.timestamp * second, message, e.signature⟩)
      e.canonical := by
    rw [hmsg]
    exact .nil _
  simp only [Envelope.encode, hbody]
  exact .cons (trips_uint32 _) <| .cons (trips_uint16 _) <| .cons (trips_time h.time) <|
    .cons (trips_bytes (h.body body hbody)) <|
    .cons (trips_array _) htail

/-- `Encode` of one after another into a stream. -/
def encodeEnvelopes (ser : K → Bytes) (es : List (Envelope K Bytes65)) : Except EncodeErr Bytes := do
  let bufs ← es.mapM (Envelope.encode ser)
  return bufs.flatten

/-- Any number of envelopes is read back, envelope by envelope, off any stream that starts with
    them. -/
theorem envelopes_roundtrip (hkeys : ParsesBack ser parsePubKey) (es : List (Envelope K Bytes65))
    (h : ∀ e ∈ es, e.Fits ser) : ∃ stream, encodeEnvelopes ser es = .ok stream ∧
      Reads ((Envelope.decode parsePubKey).times es.length) stream (es.map Envelope.canonical) := by
  let bytes (e : Envelope K Bytes65) : Bytes := (e.encode ser).toOption.getD []
  have henv : ∀ e ∈ es, e.encode ser = .ok (bytes e) ∧ Reads (Envelope.decode parsePubKey) (bytes e) e.canonical := by
    intro e he
    obtain ⟨buf, henc, hread⟩ := e.roundtrips hkeys (h e he)
    have hbytes : bytes e = buf := by simp only [bytes, henc]; rfl
    rw [hbytes]
    exact ⟨henc, hread⟩
  refine ⟨(es.map bytes).flatten, ?_, Reads.times_map fun e he => (henv e he).2⟩
  rw [encodeEnvelopes, Each.mapM_ok fun e he => (henv e he).1]
  rfl

abbrev Key33 := { bs : Bytes // bs.length = 33 }

def parse33 (bs : Bytes) : Option Key33 := if h : bs.length = 33 then some ⟨bs, h⟩ else none

theorem parse33_parsesBack : ParsesBack Subtype.val parse33 :=
  ⟨fun key => key.2, fun key => by simp only [parse33, dif_pos key.2]⟩

def filled (n : Nat) (b : UInt8) : { bs : Bytes // bs.length = n } := ⟨List.replicate n b, List.length_replicate⟩

/-- A list of peers with both kinds of IP, and an update, half a second after 1970. -/
def twoEnvelopes : List (Envelope Key33 Bytes65) :=
  [⟨1, 8, 500000000, .peerRes [⟨[10, 0, 0, 1], filled 32 1⟩, ⟨(filled 16 2).1, filled 32 3⟩], filled 65 4⟩,
    ⟨1, 3, 500000000, .update ⟨[0x61], 7, 4096⟩, filled 65 5⟩]

theorem twoEnvelopes_fit : ∀ e ∈ twoEnvelopes, e.Fits Subtype.val := by
  intro e he
  simp only [twoEnvelopes, List.mem_cons, List.not_mem_nil, or_false] at he
  rcases he with rfl | rfl
  · refine ⟨rfl, ⟨by decide, ?_⟩, ?_, by decide⟩
    · intro p hp
      simp only [List.mem_cons, List.not_mem_nil, or_false] at hp
      rcases hp with rfl | rfl
      · exact .inl rfl
      · exact .inr rfl
    · intro buf h
      cases h
      decide
  · refine ⟨rfl, by simp [Message.Fits, maxByteFieldLen], ?_, by decide⟩
    intro buf h
    cases h
    decide

theorem twoEnvelopes_roundtrip : ∃ stream, encodeEnvelopes Subtype.val twoEnvelopes = .ok stream ∧
    Reads ((Envelope.decode parse33).times twoEnvelopes.length) stream (twoEnvelopes.map Envelope.canonical) :=
  envelopes_roundtrip parse33_parsesBack twoEnvelopes twoEnvelopes_fit

end Fnd.Wire

/-
  Fnd.Wire.Equals — `Equals` of the eleven messages (`wire/*.go`), against the equality of
  their encodings.

  Each `Equals` casts its argument to its own type and compares fields by hand. Eight of them
  compare all that is encoded. `BlobRes` and `EquivocationProof` leave the payload out;
  `PeerRes` runs over its own peers and indexes the other's by the same counter, so a longer
  list runs out of range and a shorter one is equal to every extension of it. Two messages
  that encode are compared like their encodings exactly when neither happens
  (`equals_encoding_iff`, `two_payloads_are_equal_and_a_longer_list_panics`).
-/

import Fnd.Wire.Codec

namespace Fnd.Wire

open Blob (Sector)

variable {H K G : Type} [DecidableEq H] [DecidableEq K] [DecidableEq G]

/-! ## The comparisons -/

def Hello.equals (h : Hello K) : Message H K G → Bool
  | .hello cast =>
    h.protocolVersion = cast.protocolVersion && h.localNonce = cast.localNonce && h.remoteNonce = cast.remoteNonce &&
      h.publicKey = cast.publicKey && h.userAgent = cast.userAgent
  | _ => false

def HelloAck.equals (h : HelloAck) : Message H K G → Bool
  | .helloAck cast => h.nonce = cast.nonce
  | _ => false

/-- `Ping.Equals`. -/
def pingEquals : Message H K G → Bool
  | .ping => true
  | _ => false

def Update.equals (u : Update) : Message H K G → Bool
  | .update cast => u.name = cast.name && u.epochHeight = cast.epochHeight && u.sectorSize = cast.sectorSize
  | _ => false

def NilUpdate.equals (n : NilUpdate) : Message H K G → Bool
  | .nilUpdate cast => n.name = cast.name
  | _ => false

def BlobReq.equals (u : BlobReq) : Message H K G → Bool
  | .blobReq cast => u.name = cast.name && u.epochHeight = cast.epochHeight && u.sectorSize = cast.sectorSize
  | _ => false

/-- The payload is not compared. -/
def BlobRes.equals (s : BlobRes H G) : Message H K G → Bool
  | .blobRes cast =>
    s.name = cast.name && s.epochHeight = cast.epochHeight && s.payloadPosition = cast.payloadPosition &&
      s.prevHash = cast.prevHash && s.reservedRoot = cast.reservedRoot && s.signature = cast.signature
  | _ => false

/-- `PeerReq.Equals`. -/
def peerReqEquals : Message H K G → Bool
  | .peerReq => true
  | _ => false

def UpdateReq.equals (n : UpdateReq) : Message H K G → Bool
  | .updateReq cast => n.name = cast.name && n.epochHeight = cast.epochHeight && n.sectorSize = cast.sectorSize
  | _ => false

/-- The payload is not compared. -/
def EquivocationProof.equals (s : EquivocationProof H G) : Message H K G → Bool
  | .equivocationProof cast =>
    s.name = cast.name && s.remoteEpochHeight = cast.remoteEpochHeight &&
      s.remotePayloadPosition = cast.remotePayloadPosition && s.remotePrevHash = cast.remotePrevHash &&
      s.remoteReservedRoot = cast.remoteReservedRoot && s.remoteSignature = cast.remoteSignature &&
      s.localEpochHeight = cast.localEpochHeight && s.localSectorSize = cast.localSectorSize &&
      s.localSectorTipHash = cast.localSectorTipHash && s.localReservedRoot = cast.localReservedRoot &&
      s.localSignature = cast.localSignature
  | _ => false

/-- The first twelve bytes of an IPv4 address in sixteen. -/
def v4InV6 : Bytes := [0, 0, 0, 0, 0, 0, 0, 0, 0, 0, 0xff, 0xff]

/-- `net.IP.Equal`: an IPv4 address and its IPv6 form are equal. -/
def ipEqual (ip x : Bytes) : Bool :=
  if ip.length = x.length then ip = x
  else if ip.length = 4 ∧ x.length = 16 then x.take 12 = v4InV6 && ip = x.drop 12
  else if ip.length = 16 ∧ x.length = 4 then ip.take 12 = v4InV6 && ip.drop 12 = x
  else false

/-- The loop of `PeerRes.Equals` over its own peers; indexing past the other's panics. -/
def equalPeers : List (Peer H) → List (Peer H) → Except (Fault Empty) Bool
  | [], _ => .ok true
  | _ :: _, [] => .error .panic
  | peerA :: as, peerB :: bs => if ipEqual peerA.ip peerB.ip && peerA.id = peerB.id then equalPeers as bs else .ok false

/-- `PeerRes.Equals`. -/
def peerResEquals (peers : List (Peer H)) : Message H K G → Except (Fault Empty) Bool
  | .peerRes cast => equalPeers peers cast
  | _ => .ok false

def Message.equals : Message H K G → Message H K G → Except (Fault Empty) Bool
  | .hello h, other => .ok (h.equals other)
  | .helloAck h, other => .ok (h.equals other)
  | .ping, other => .ok (pingEquals other)
  | .update u, other => .ok (u.equals other)
  | .nilUpdate n, other => .ok (n.equals other)
  | .blobReq u, other => .ok (u.equals other)
  | .blobRes s, other => .ok (s.equals other)
  | .peerReq, other => .ok (peerReqEquals other)
  | .peerRes peers, other => peerResEquals peers other
  | .updateReq n, other => .ok (n.equals other)
  | .equivocationProof s, other => .ok (s.equals other)

/-! ## What each compares -/

omit [DecidableEq K] in
theorem BlobRes.equals_iff (m : BlobRes H G) (other : Message H K G) :
    m.equals other = true ↔ ∃ payload, .blobRes { m with payload := payload } = other := by
  cases other with
  | blobRes m' =>
    cases m; cases m'
    simp [BlobRes.equals, and_assoc]
  | _ => simp [BlobRes.equals]

omit [DecidableEq K] in
theorem EquivocationProof.equals_iff (m : EquivocationProof H G) (other : Message H K G) :
    m.equals other = true ↔ ∃ payload, .equivocationProof { m with remotePayload := payload } = other := by
  cases other with
  | equivocationProof m' =>
    cases m; cases m'
    simp [EquivocationProof.equals, and_assoc]
  | _ => simp [EquivocationProof.equals]

/-- The messages whose `Equals` compares every field. -/
def Message.comparesAll : Message H K G → Bool
  | .blobRes _ => false
  | .peerRes _ => false
  | .equivocationProof _ => false
  | _ => true

theorem Message.equals_exact {m : Message H K G} (h : m.comparesAll = true) (other : Message H K G) :
    m.equals other = .ok (decide (m = other)) := by
  cases m with
  | hello m =>
    refine congrArg Except.ok (Bool.eq_iff_iff.mpr ?_)
    cases m
    cases other with
    | hello m' => cases m'; simp [Hello.equals, and_assoc]
    | _ => simp [Hello.equals]
  | helloAck m =>
    refine congrArg Except.ok (Bool.eq_iff_iff.mpr ?_)
    cases m
    cases other with
    | helloAck m' => cases m'; simp [HelloAck.equals]
    | _ => simp [HelloAck.equals]
  | ping => cases other <;> rfl
  | update m =>
    refine congrArg Except.ok (Bool.eq_iff_iff.mpr ?_)
    cases m
    cases other with
    | update m' => cases m'; simp [Update.equals, and_assoc]
    | _ => simp [Update.equals]
  | nilUpdate m =>
    refine congrArg Except.ok (Bool.eq_iff_iff.mpr ?_)
    cases m
    cases other with
    | nilUpdate m' => cases m'; simp [NilUpdate.equals]
    | _ => simp [NilUpdate.equals]
  | blobReq m =>
    refine congrArg Except.ok (Bool.eq_iff_iff.mpr ?_)
    cases m
    cases other with
    | blobReq m' => cases m'; simp [BlobReq.equals, and_assoc]
    | _ => simp [BlobReq.equals]
  | blobRes m => cases h
  | peerReq => cases other <;> rfl
  | peerRes peers => cases h
  | updateReq m =>
    refine congrArg Except.ok (Bool.eq_iff_iff.mpr ?_)
    cases m
    cases other with
    | updateReq m' => cases m'; simp [UpdateReq.equals, and_assoc]
    | _ => simp [UpdateReq.equals]
  | equivocationProof m => cases h

/-! ## Lists of peers -/

theorem v4InV6_append_eq {ip x : Bytes} : v4InV6 ++ ip = x ↔ x.take 12 = v4InV6 ∧ ip = x.drop 12 := by
  constructor
  · rintro rfl
    exact ⟨rfl, rfl⟩
  · rintro ⟨htake, rfl⟩
    rw [← htake, List.take_append_drop]

theorem to16_eq {ip : Bytes} (h : ip.length = 4 ∨ ip.length = 16) :
    to16 ip = some (if ip.length = 4 then v4InV6 ++ ip else ip) := by
  rcases h with h | h <;> simp [to16, v4InV6, h]

/-- IPs of 4 or 16 bytes are equal exactly when their 16-byte forms are. -/
theorem ipEqual_iff {ip x : Bytes} (hip : ip.length = 4 ∨ ip.length = 16) (hx : x.length = 4 ∨ x.length = 16) :
    ipEqual ip x = true ↔ to16 ip = to16 x := by
  rw [to16_eq hip, to16_eq hx, Option.some.injEq]
  rcases hip with hi | hi <;> rcases hx with hx | hx
  · simp [ipEqual, hi, hx]
  · simp [ipEqual, hi, hx, v4InV6_append_eq]
  · have hswap : v4InV6 ++ x = ip ↔ ip.take 12 = v4InV6 ∧ x = ip.drop 12 := v4InV6_append_eq
    rw [eq_comm, eq_comm (a := x)] at hswap
    simp [ipEqual, hi, hx, hswap]
  · simp [ipEqual, hi, hx]

/-- `Encode` takes such IPs only. -/
def Peer.HasIP (p : Peer H) : Prop := p.ip.length = 4 ∨ p.ip.length = 16

theorem Peer.equal_iff {p q : Peer Bytes32} (hp : p.HasIP) (hq : q.HasIP) :
    (ipEqual p.ip q.ip && p.id = q.id) = true ↔ p.canonical = q.canonical := by
  rw [Bool.and_eq_true, decide_eq_true_eq, ipEqual_iff hp hq, to16_eq hp, to16_eq hq, Option.some.injEq]
  simp only [canonical, to16_eq hp, to16_eq hq, Option.getD_some, Peer.mk.injEq]

/-- A run of the loop: to the end of its own list, out of range, or to a pair that differs. -/
theorem equalPeers_eq : ∀ {ps qs : List (Peer Bytes32)}, (∀ p ∈ ps, p.HasIP) → (∀ q ∈ qs, q.HasIP) →
    equalPeers ps qs =
      if ps.map Peer.canonical <+: qs.map Peer.canonical then .ok true
      else if qs.map Peer.canonical <+: ps.map Peer.canonical then .error .panic
      else .ok false := by
  intro ps
  induction ps with
  | nil => intro qs _ _; simp [equalPeers]
  | cons p ps ih =>
    intro qs hps hqs
    cases qs with
    | nil => simp [equalPeers]
    | cons q qs =>
      have hpair := Peer.equal_iff (hps p List.mem_cons_self) (hqs q List.mem_cons_self)
      have hrest := ih (fun x hx => hps x (List.mem_cons_of_mem _ hx)) fun x hx => hqs x (List.mem_cons_of_mem _ hx)
      simp only [equalPeers, hpair, List.map_cons, List.cons_prefix_cons]
      by_cases hc : p.canonical = q.canonical
      · simp only [hrest, hc, true_and, if_true]
      · simp only [hc, Ne.symm hc, false_and, if_false]

/-! ## Against the encodings -/

/-- Where `Equals` goes by the encodings: the payloads do not make the difference, and neither
    list of peers goes on after the other's end. -/
def Comparable : Message Bytes32 K Bytes65 → Message Bytes32 K Bytes65 → Prop
  | .blobRes m, .blobRes m' => { m with payload := m'.payload } = m' → m.payload = m'.payload
  | .equivocationProof m, .equivocationProof m' =>
    { m with remotePayload := m'.remotePayload } = m' → m.remotePayload = m'.remotePayload
  | .peerRes ps, .peerRes qs =>
    ps.map Peer.canonical <+: qs.map Peer.canonical ∨ qs.map Peer.canonical <+: ps.map Peer.canonical →
      ps.length = qs.length
  | _, _ => True

omit [DecidableEq K] in
theorem Message.msgType_canonical (m : Message Bytes32 K Bytes65) : m.canonical.msgType = m.msgType := by
  cases m <;> rfl

section

variable {ser : K → Bytes} {parsePubKey : Bytes → Option K} {a b : Message Bytes32 K Bytes65} {bufA bufB : Bytes}

omit [DecidableEq K] in
theorem Message.same_iff (hkeys : ParsesBack ser parsePubKey) (ha : a.encode ser = .ok bufA) (hb : b.encode ser = .ok bufB) :
    a.msgType = b.msgType ∧ bufA = bufB ↔ a.canonical = b.canonical := by
  constructor
  · rintro ⟨htype, rfl⟩
    exact Message.encode_inj hkeys ha hb htype
  · intro h
    constructor
    · rw [← a.msgType_canonical, h, b.msgType_canonical]
    · rw [← a.encode_canonical, h, b.encode_canonical, hb] at ha
      exact (Except.ok.inj ha).symm

omit [DecidableEq K] in
theorem Message.canonical_eq_iff (hp : ∀ ps, a ≠ .peerRes ps) : a.canonical = b.canonical ↔ a = b := by
  have ha : a.canonical = a := by
    cases a with
    | peerRes ps => exact absurd rfl (hp ps)
    | _ => rfl
  rw [ha]
  cases b with
  | peerRes ps => exact ⟨fun h => absurd h (hp _), fun h => absurd h (hp _)⟩
  | _ => rfl

theorem Message.equals_of_type_ne (h : a.msgType ≠ b.msgType) : a.equals b = .ok false ∧ Comparable a b := by
  cases a <;> cases b <;> first | exact absurd rfl h | exact ⟨rfl, trivial⟩

theorem ok_eq_decide {c : Bool} {p : Prop} [Decidable p] :
    (Except.ok c : Except (Fault Empty) Bool) = .ok (decide p) ↔ (c = true ↔ p) := by
  rw [Except.ok.injEq, Bool.eq_iff_iff, decide_eq_true_eq]

omit [DecidableEq K] in
theorem equalPeers_exact_iff {ps qs : List (Peer Bytes32)} (hps : ∀ p ∈ ps, p.HasIP) (hqs : ∀ q ∈ qs, q.HasIP) :
    equalPeers ps qs = .ok (decide (ps.map Peer.canonical = qs.map Peer.canonical)) ↔
      (ps.map Peer.canonical <+: qs.map Peer.canonical ∨ qs.map Peer.canonical <+: ps.map Peer.canonical →
        ps.length = qs.length) := by
  have hlen (l : List (Peer Bytes32)) : l.length = (l.map Peer.canonical).length := (List.length_map _).symm
  rw [equalPeers_eq hps hqs, hlen ps, hlen qs]
  by_cases hpq : ps.map Peer.canonical <+: qs.map Peer.canonical
  · rw [if_pos hpq, ok_eq_decide]
    constructor
    · intro h _
      rw [h.mp rfl]
    · intro h
      exact iff_of_true rfl (hpq.eq_of_length (h (.inl hpq)))
  · have hne : ps.map Peer.canonical ≠ qs.map Peer.canonical := fun h => hpq (h ▸ List.prefix_rfl)
    by_cases hqp : qs.map Peer.canonical <+: ps.map Peer.canonical
    · rw [if_neg hpq, if_pos hqp]
      constructor
      · intro h; cases h
      · intro h
        exact absurd (hqp.eq_of_length (h (.inr hqp)).symm).symm hne
    · rw [if_neg hpq, if_neg hqp, ok_eq_decide]
      constructor
      · rintro - (h | h)
        · exact absurd h hpq
        · exact absurd h hqp
      · intro _
        exact iff_of_false Bool.false_ne_true hne

/-- For every two messages that encode, of whatever types: `Equals` returns, and returns whether
    type and encoding are the same, exactly when the two are comparable. -/
theorem equals_encoding_iff (hkeys : ParsesBack ser parsePubKey) (ha : a.encode ser = .ok bufA) (hb : b.encode ser = .ok bufB) :
    a.equals b = .ok (decide (a.msgType = b.msgType ∧ bufA = bufB)) ↔ Comparable a b := by
  have hsame := Message.same_iff hkeys ha hb
  by_cases htype : a.msgType ≠ b.msgType
  · obtain ⟨hfalse, hcomp⟩ := Message.equals_of_type_ne htype
    simp [hfalse, hcomp, htype]
  by_cases hall : a.comparesAll = true
  · have hp : ∀ ps, a ≠ .peerRes ps := by rintro ps rfl; cases hall
    have hcomp : Comparable a b := by
      cases a with
      | blobRes => cases hall
      | equivocationProof => cases hall
      | _ => trivial
    rw [Message.equals_exact hall, ok_eq_decide, decide_eq_true_eq, hsame, Message.canonical_eq_iff hp]
    exact iff_of_true Iff.rfl hcomp
  cases a with
  | blobRes m =>
    cases b with
    | blobRes m' =>
      rw [Message.canonical_eq_iff (fun _ h => by cases h), Message.blobRes.injEq] at hsame
      have hother : (∃ payload, { m with payload := payload } = m') ↔ { m with payload := m'.payload } = m' :=
        ⟨by rintro ⟨_, rfl⟩; rfl, fun h => ⟨_, h⟩⟩
      have heq : m = m' ↔ { m with payload := m'.payload } = m' ∧ m.payload = m'.payload :=
        ⟨by rintro rfl; exact ⟨rfl, rfl⟩, by rintro ⟨h, hp⟩; rw [← hp] at h; exact h⟩
      simp only [Message.equals, ok_eq_decide, hsame, BlobRes.equals_iff, Message.blobRes.injEq, Comparable, hother]
      rw [heq, iff_self_and]
    | _ => exact absurd (fun h => by cases h) htype
  | equivocationProof m =>
    cases b with
    | equivocationProof m' =>
      rw [Message.canonical_eq_iff (fun _ h => by cases h), Message.equivocationProof.injEq] at hsame
      have hother : (∃ payload, { m with remotePayload := payload } = m') ↔
          { m with remotePayload := m'.remotePayload } = m' :=
        ⟨by rintro ⟨_, rfl⟩; rfl, fun h => ⟨_, h⟩⟩
      have heq : m = m' ↔ { m with remotePayload := m'.remotePayload } = m' ∧ m.remotePayload = m'.remotePayload :=
        ⟨by rintro rfl; exact ⟨rfl, rfl⟩, by rintro ⟨h, hp⟩; rw [← hp] at h; exact h⟩
      simp only [Message.equals, ok_eq_decide, hsame, EquivocationProof.equals_iff, Message.equivocationProof.injEq,
        Comparable, hother]
      rw [heq, iff_self_and]
    | _ => exact absurd (fun h => by cases h) htype
  | peerRes ps =>
    cases b with
    | peerRes qs =>
      rw [Message.canonical, Message.canonical, Message.peerRes.injEq] at hsame
      rw [decide_eq_decide.mpr hsame]
      exact equalPeers_exact_iff (Message.fits_of_encode ha).2 (Message.fits_of_encode hb).2
    | _ => exact absurd (fun h => by cases h) htype
  | _ => exact absurd rfl hall

end

/-! ## Two pairs -/

/-- A list of one peer, by the 4-byte and by the 16-byte form of its IP. -/
def peerByForm (ip : Bytes) : Message Bytes32 Key33 Bytes65 := .peerRes [⟨ip, filled 32 1⟩]

theorem a_peer_is_equal_in_both_forms :
    (peerByForm [10, 0, 0, 1]).equals (peerByForm (v4InV6 ++ [10, 0, 0, 1])) =
      .ok (decide ((peerByForm [10, 0, 0, 1]).msgType = (peerByForm (v4InV6 ++ [10, 0, 0, 1])).msgType ∧
        [1] ++ v4InV6 ++ [10, 0, 0, 1] ++ List.replicate 32 1 = [1] ++ v4InV6 ++ [10, 0, 0, 1] ++ List.replicate 32 1)) :=
  (equals_encoding_iff parse33_parsesBack rfl rfl).mpr fun _ => rfl

/-- A sector response of a name with the given payload. -/
def resWith (payload : List Sector) : Message Bytes32 Key33 Bytes65 :=
  .blobRes ⟨[0x61], 7, 0, filled 32 0, filled 32 0, payload, filled 65 1⟩

def peersOf (ids : List UInt8) : Message Bytes32 Key33 Bytes65 := .peerRes (ids.map fun i => ⟨[10, 0, 0, i], filled 32 i⟩)

/-- Two sector responses with different payloads are equal; a list of one peer is equal to a
    list of two, which, asked the other way round, panics. -/
theorem two_payloads_are_equal_and_a_longer_list_panics :
    (∃ bufA bufB, (resWith []).encode Subtype.val = .ok bufA ∧
      (resWith [Blob.zeroSector]).encode Subtype.val = .ok bufB ∧ bufA ≠ bufB) ∧
    (resWith []).equals (resWith [Blob.zeroSector]) = .ok true ∧
    (∃ bufA bufB, (peersOf [1]).encode Subtype.val = .ok bufA ∧
      (peersOf [1, 2]).encode Subtype.val = .ok bufB ∧ bufA ≠ bufB) ∧
    (peersOf [1]).equals (peersOf [1, 2]) = .ok true ∧
    (peersOf [1, 2]).equals (peersOf [1]) = .error .panic :=
  ⟨⟨_, _, rfl, rfl, by decide +kernel⟩, rfl, ⟨_, _, rfl, rfl, by decide +kernel⟩, rfl, rfl⟩

end Fnd.Wire

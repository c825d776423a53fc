/-
  Fnd.P2p.Seeds — hashes as text (`crypto/hash.go`) and the seed peers of the configuration
  (`ParseSeedPeers` of `p2p/seeds.go`).

  A seed peer is written `<ID>@<address>`. `NewHashFromHex` refuses digits of the wrong number,
  but text that is not hexadecimal at all, or of odd length, is the zero hash, without an error.
  So the text of a hash is read strictly exactly when it is an even number of digits, and a list
  of seed peers exactly when it has another fault or no such ID (`seeds_strict_iff`).
-/

import Fnd.Lib.Each
import Fnd.Lib.Hex
import Fnd.Protocol.BanList
import Fnd.Wire.Messages

namespace Fnd.P2p

open Protocol (split split_append split_of_not_mem split_join)
open Wire (Bytes32 zeroHash)

/-! ## Hashes -/

inductive HashErr where
  /-- `hash must be 32 bytes`. -/
  | length
  deriving DecidableEq, Repr

def newHashFromBytes (b : Bytes) : Except HashErr Bytes32 :=
  if h : b.length = 32 then .ok ⟨b, h⟩ else .error .length

def newHashFromHex (text : Bytes) : Except HashErr Bytes32 :=
  match Hex.decode text with
  -- the decoder's error is dropped here
  | none => .ok zeroHash
  | some b => newHashFromBytes b

/-- `Hash.String`. -/
def hashString (h : Bytes32) : Bytes := Hex.encode h.1

/-! ## Seed peers -/

structure SeedPeer where
  id : Bytes32
  ip : Bytes
  deriving DecidableEq

inductive SeedErr where
  /-- `seed peer must specify both a peer ID and address`. -/
  | pieces
  /-- `mal-formed peer ID`. -/
  | peerID (e : HashErr)
  deriving DecidableEq, Repr

/-- The body of the loop. -/
def parseSeedPeer (seed : Bytes) : Except SeedErr SeedPeer :=
  match split 0x40 seed with
  | (id, [ip]) =>
    match newHashFromHex id with
    | .error e => .error (.peerID e)
    | .ok peerID => .ok ⟨peerID, ip⟩
  | _ => .error .pieces

def parseSeedPeers (seedPeers : List Bytes) : Except SeedErr (List SeedPeer) := seedPeers.mapM parseSeedPeer

/-! ## Reading strictly -/

/-- Sixty-four hexadecimal digits. -/
def IsHash (text : Bytes) : Prop := text.length = 64 ∧ ∀ c ∈ text, Hex.IsDigit c

/-- Hashes are read, with their digits, and nothing else is. -/
def Strict (text : Bytes) : Prop :=
  ((∃ h, newHashFromHex text = .ok h) ↔ IsHash text) ∧
  ∀ h, newHashFromHex text = .ok h → hashString h = text.map Hex.lower

/-- An ID and an address around a single `@`. -/
def Written (seed id ip : Bytes) : Prop := seed = id ++ 0x40 :: ip ∧ 0x40 ∉ id ∧ 0x40 ∉ ip

def WellFormed (seed : Bytes) : Prop := ∃ id ip, Written seed id ip ∧ IsHash id

/-- The ID and the address written there. -/
def Says (seed : Bytes) (p : SeedPeer) : Prop :=
  ∃ id, Written seed id p.ip ∧ IsHash id ∧ hashString p.id = id.map Hex.lower

/-- Lists of seed peers are read, in order, and nothing else is. -/
def ParsesStrictly (seedPeers : List Bytes) : Prop :=
  ((∃ peers, parseSeedPeers seedPeers = .ok peers) ↔ ∀ seed ∈ seedPeers, WellFormed seed) ∧
  ∀ peers, parseSeedPeers seedPeers = .ok peers → List.Forall₂ Says seedPeers peers

/-- Not one `@`, or an ID of too few or too many bytes. -/
def Refused (seed : Bytes) : Prop := ∀ id ip, Written seed id ip → Hex.IsText id ∧ id.length ≠ 64

/-- One `@`, after something that is not an even number of hexadecimal digits. -/
def Mistyped (seed : Bytes) : Prop := ∃ id ip, Written seed id ip ∧ ¬ Hex.IsText id

theorem IsHash.isText {text : Bytes} (h : IsHash text) : Hex.IsText text := ⟨by rw [h.1], h.2⟩

theorem newHashFromHex_cases (text : Bytes) :
    (¬ Hex.IsText text ∧ newHashFromHex text = .ok zeroHash) ∨
    (IsHash text ∧ ∃ h, newHashFromHex text = .ok h ∧ hashString h = text.map Hex.lower) ∨
    (Hex.IsText text ∧ text.length ≠ 64 ∧ newHashFromHex text = .error .length) := by
  cases hb : Hex.decode text with
  | none => exact .inl ⟨(Hex.decode_eq_none_iff text).mp hb, by simp only [newHashFromHex, hb]⟩
  | some b =>
    have htext : Hex.IsText text := Decidable.not_not.mp fun h => by
      rw [(Hex.decode_eq_none_iff text).mpr h] at hb
      cases hb
    obtain ⟨hlen, henc⟩ := Hex.encode_decode hb
    by_cases h32 : b.length = 32
    · refine .inr (.inl ⟨⟨by omega, htext.2⟩, ⟨b, h32⟩, ?_, henc⟩)
      simp only [newHashFromHex, hb, newHashFromBytes, dif_pos h32]
    · refine .inr (.inr ⟨htext, by omega, ?_⟩)
      simp only [newHashFromHex, hb, newHashFromBytes, dif_neg h32]

theorem strict_iff (text : Bytes) : Strict text ↔ Hex.IsText text := by
  rcases newHashFromHex_cases text with ⟨hno, hzero⟩ | ⟨hhash, h, hh, hstring⟩ | ⟨htext, hlen, herr⟩
  · refine iff_of_false (fun hstrict => hno ?_) hno
    exact (hstrict.1.mp ⟨_, hzero⟩).isText
  · refine iff_of_true ⟨iff_of_true ⟨h, hh⟩ hhash, fun h' hh' => ?_⟩ hhash.isText
    rw [hh] at hh'
    cases hh'
    exact hstring
  · refine iff_of_true ⟨iff_of_false ?_ fun h => hlen h.1, fun h hh => ?_⟩ htext
    · rintro ⟨h, hh⟩
      rw [herr] at hh
      cases hh
    · rw [herr] at hh
      cases hh

/-! ## One seed peer -/

theorem not_mem_split (sep : UInt8) (s : Bytes) : sep ∉ (split sep s).1 ∧ ∀ part ∈ (split sep s).2, sep ∉ part := by
  induction s with
  | nil => exact ⟨List.not_mem_nil, fun part h => absurd h List.not_mem_nil⟩
  | cons b bs ih =>
    obtain ⟨hfirst, hrest⟩ := ih
    simp only [split]
    split
    · exact ⟨List.not_mem_nil, List.forall_mem_cons.mpr ⟨hfirst, hrest⟩⟩
    · rename_i hb
      exact ⟨List.not_mem_cons_of_ne_of_not_mem (Ne.symm hb) hfirst, hrest⟩

theorem split_eq_iff {seed id ip : Bytes} : split 0x40 seed = (id, [ip]) ↔ Written seed id ip := by
  refine ⟨fun h => ?_, ?_⟩
  · have hjoin := split_join 0x40 seed
    have hparts := not_mem_split 0x40 seed
    rw [h] at hjoin hparts
    refine ⟨hjoin.trans (by rw [List.flatMap_singleton]), hparts.1, hparts.2 ip (List.mem_singleton_self ip)⟩
  · rintro ⟨rfl, hid, hip⟩
    rw [split_append hid, split_of_not_mem hip]

theorem Written.unique {seed id ip id' ip' : Bytes} (h : Written seed id ip) (h' : Written seed id' ip') :
    id = id' ∧ ip = ip' := by
  rw [← split_eq_iff] at h h'
  rw [h] at h'
  cases h'
  exact ⟨rfl, rfl⟩

theorem parseSeedPeer_cases (seed : Bytes) :
    (Mistyped seed ∧ ∃ p, parseSeedPeer seed = .ok p ∧ p.id = zeroHash) ∨
    (WellFormed seed ∧ ∃ p, parseSeedPeer seed = .ok p ∧ Says seed p) ∨
    (Refused seed ∧ ∃ e, parseSeedPeer seed = .error e) := by
  by_cases hwritten : ∃ id ip, Written seed id ip
  · obtain ⟨id, ip, hw⟩ := hwritten
    have hsplit := split_eq_iff.mpr hw
    rcases newHashFromHex_cases id with ⟨hno, hzero⟩ | ⟨hhash, h, hh, hstring⟩ | ⟨htext, hlen, herr⟩
    · exact .inl ⟨⟨id, ip, hw, hno⟩, ⟨zeroHash, ip⟩, by simp only [parseSeedPeer, hsplit, hzero], rfl⟩
    · exact .inr (.inl ⟨⟨id, ip, hw, hhash⟩, ⟨h, ip⟩, by simp only [parseSeedPeer, hsplit, hh], id, hw, hhash, hstring⟩)
    · refine .inr (.inr ⟨fun id' ip' hw' => ?_, .peerID .length, by simp only [parseSeedPeer, hsplit, herr]⟩)
      obtain ⟨rfl, -⟩ := hw.unique hw'
      exact ⟨htext, hlen⟩
  · refine .inr (.inr ⟨fun id ip hw => absurd ⟨id, ip, hw⟩ hwritten, .pieces, ?_⟩)
    rw [parseSeedPeer]
    split
    · rename_i id ip hsplit
      exact absurd ⟨id, ip, split_eq_iff.mp hsplit⟩ hwritten
    · rfl

theorem Refused.not_mistyped {seed : Bytes} (h : Refused seed) : ¬ Mistyped seed := by
  rintro ⟨id, ip, hw, hno⟩
  exact hno (h id ip hw).1

theorem Refused.not_wellFormed {seed : Bytes} (h : Refused seed) : ¬ WellFormed seed := by
  rintro ⟨id, ip, hw, hhash⟩
  exact (h id ip hw).2 hhash.1

theorem Mistyped.not_wellFormed {seed : Bytes} (h : Mistyped seed) : ¬ WellFormed seed := by
  obtain ⟨id, ip, hw, hno⟩ := h
  rintro ⟨id', ip', hw', hhash⟩
  obtain ⟨rfl, -⟩ := hw.unique hw'
  exact hno hhash.isText

/-! ## Lists of them -/

theorem parses_iff (seedPeers : List Bytes) :
    (∃ peers, parseSeedPeers seedPeers = .ok peers) ↔ ∀ seed ∈ seedPeers, ¬ Refused seed := by
  simp only [parseSeedPeers, Each.mapM_eq_ok_iff]
  refine ⟨fun ⟨peers, h⟩ seed hseed hrefused => ?_, fun h => Each.exists_forall₂ fun seed hseed => ?_⟩
  · obtain ⟨p, hp⟩ := Each.exists_of_forall₂ h seed hseed
    rcases parseSeedPeer_cases seed with ⟨hmis, -⟩ | ⟨hwell, -⟩ | ⟨-, e, he⟩
    · exact hrefused.not_mistyped hmis
    · exact hrefused.not_wellFormed hwell
    · rw [hp] at he
      cases he
  · rcases parseSeedPeer_cases seed with ⟨-, p, hp, -⟩ | ⟨-, p, hp, -⟩ | ⟨hrefused, -⟩
    · exact ⟨p, hp⟩
    · exact ⟨p, hp⟩
    · exact absurd hrefused (h seed hseed)

theorem parsed_says {seedPeers : List Bytes} {peers : List SeedPeer} (h : parseSeedPeers seedPeers = .ok peers) :
    List.Forall₂ (fun seed p => Says seed p ∨ Mistyped seed ∧ p.id = zeroHash) seedPeers peers := by
  refine (Each.mapM_eq_ok_iff.mp h).imp fun seed p hp => ?_
  rcases parseSeedPeer_cases seed with ⟨hmis, p', hp', hzero⟩ | ⟨-, p', hp', hsays⟩ | ⟨-, e, he⟩
  · rw [hp] at hp'
    cases hp'
    exact .inr ⟨hmis, hzero⟩
  · rw [hp] at hp'
    cases hp'
    exact .inl hsays
  · rw [hp] at he
    cases he

theorem Says.wellFormed {seed : Bytes} {p : SeedPeer} (h : Says seed p) : WellFormed seed :=
  let ⟨id, hw, hhash, _⟩ := h
  ⟨id, p.ip, hw, hhash⟩

theorem wellFormed_of_not {seed : Bytes} (hrefused : ¬ Refused seed) (hmis : ¬ Mistyped seed) : WellFormed seed := by
  rcases parseSeedPeer_cases seed with ⟨h, -⟩ | ⟨h, -⟩ | ⟨h, -⟩
  · exact absurd h hmis
  · exact h
  · exact absurd h hrefused

theorem parsesStrictly_iff (seedPeers : List Bytes) : ParsesStrictly seedPeers ↔
    (∃ seed ∈ seedPeers, Refused seed) ∨ ∀ seed ∈ seedPeers, ¬ Mistyped seed := by
  refine ⟨fun ⟨hiff, _⟩ => ?_, fun h => ?_⟩
  · by_cases hrefused : ∃ seed ∈ seedPeers, Refused seed
    · exact .inl hrefused
    · have hparses := (parses_iff seedPeers).mpr fun seed hseed h => hrefused ⟨seed, hseed, h⟩
      exact .inr fun seed hseed hmis => hmis.not_wellFormed (hiff.mp hparses seed hseed)
  · rcases h with ⟨seed, hseed, hrefused⟩ | hnone
    · have hno : ¬ ∃ peers, parseSeedPeers seedPeers = .ok peers := fun h => (parses_iff seedPeers).mp h seed hseed hrefused
      exact ⟨iff_of_false hno fun h => hrefused.not_wellFormed (h seed hseed), fun peers h => absurd ⟨peers, h⟩ hno⟩
    · refine ⟨(parses_iff seedPeers).trans (forall₂_congr fun seed hseed => ?_), fun peers h => ?_⟩
      · exact ⟨fun h => wellFormed_of_not h (hnone seed hseed), fun hwell hrefused => hrefused.not_wellFormed hwell⟩
      · -- no entry of the list is mistyped, so none of the peers has the zero ID for that
        have hsays := parsed_says h
        clear h
        induction hsays with
        | nil => exact .nil
        | cons hp _ ih =>
          obtain ⟨hseed, hrest⟩ := List.forall_mem_cons.mp hnone
          exact .cons (hp.resolve_right fun h => hseed h.1) (ih hrest)

/-- Text is read strictly exactly when it is an even number of hexadecimal digits; a list of seed
peers exactly when it is refused anyway or no ID in it is anything else. In the lists that are
accepted all the same, such an ID has become the zero ID. -/
theorem seeds_strict_iff (text : Bytes) (seedPeers : List Bytes) :
    (Strict text ↔ Hex.IsText text) ∧
    (ParsesStrictly seedPeers ↔ (∃ seed ∈ seedPeers, Refused seed) ∨ ∀ seed ∈ seedPeers, ¬ Mistyped seed) ∧
    ∀ peers, parseSeedPeers seedPeers = .ok peers →
      List.Forall₂ (fun seed p => Says seed p ∨ Mistyped seed ∧ p.id = zeroHash) seedPeers peers :=
  ⟨strict_iff text, parsesStrictly_iff seedPeers, fun _ => parsed_says⟩

/-- An ID one digit short is the zero hash. -/
theorem a_mistyped_id_is_the_zero_id :
    ¬ Strict (utf8 "abc") ∧ newHashFromHex (utf8 "abc") = .ok zeroHash ∧
    ¬ ParsesStrictly [utf8 "abc@1.2.3.4"] ∧
    parseSeedPeers [utf8 "abc@1.2.3.4"] = .ok [⟨zeroHash, utf8 "1.2.3.4"⟩] := by
  have htext : newHashFromHex (utf8 "abc") = .ok zeroHash := by decide +kernel
  have hseeds : parseSeedPeers [utf8 "abc@1.2.3.4"] = .ok [⟨zeroHash, utf8 "1.2.3.4"⟩] := by decide +kernel
  refine ⟨fun h => ?_, htext, fun h => ?_, hseeds⟩
  · have hhash := h.1.mp ⟨_, htext⟩
    exact absurd hhash.1 (by decide +kernel)
  · obtain ⟨id, ip, hw, hhash⟩ := h.1.mp ⟨_, hseeds⟩ _ (List.mem_singleton_self _)
    have hlen := congrArg List.length hw.1
    rw [List.length_append, hhash.1] at hlen
    have hshort : (utf8 "abc@1.2.3.4").length = 11 := by decide +kernel
    omega

end Fnd.P2p

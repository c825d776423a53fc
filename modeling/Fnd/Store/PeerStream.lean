/-
  Fnd.Store.PeerStream — the two views of a peer's ban (`store/peers.go`): `IsBanned` of an IP,
  and the stream of stored peers, which works out the ban of each peer's IP itself and skips
  the banned ones on request.

  `IsBanned` answers for a whitelisted IP before it looks at a ban. The stream decodes both
  bans first and looks at the whitelist after that, and `mustDecodeTime` panics on a ban that
  ended before 1970 (a negative duration, or a clock that is off). A stream ends at such a
  peer, whitelisted or not. Over every run of the store's writes the two views agree exactly
  when no stored peer has an IP with such a ban, in particular when every ban that was written
  ends in 1970 or later; and what is done to one IP never matters to another
  (`ban_views_agree_iff`).
-/

import Fnd.Store.Times

namespace Fnd.Store

variable {H K G D : Type}

/-! ## The stream -/

/-- `Peer`, with what the stream adds. -/
structure StreamedPeer (D : Type) extends Peer D where
  inboundBannedUntil : Time
  outboundBannedUntil : Time
  whitelisted : Bool

/-- `Peer.IsBanned`, at a clock reading. -/
def StreamedPeer.isBanned (p : StreamedPeer D) (now : Time) : Bool :=
  !p.whitelisted && (decide (now < p.inboundBannedUntil) || decide (now < p.outboundBannedUntil))

def StreamedPeer.kept (includeBanned : Bool) (now : Time) (p : StreamedPeer D) : Bool := includeBanned || !p.isBanned now

theorem StreamedPeer.kept_iff {includeBanned : Bool} {now : Time} {p : StreamedPeer D} :
    p.kept includeBanned now = true ↔ ¬ (!includeBanned && p.isBanned now) = true := by
  cases includeBanned <;> simp [StreamedPeer.kept]

/-- How a peer is read back: `mustUnmarshalJSON`, which panics on `none`. Of the IP, JSON keeps
    `text`: what is not UTF-8 is replaced. -/
structure UnmarshalPeer (C : Codec H K G D) where
  peer : Bytes → Option (Peer D)
  text : Bytes → Bytes
  peer_marshal : ∀ p : Peer D, ∃ p', peer (C.peer p) = some p' ∧ p'.id = p.id ∧ p'.ip = text p.ip

namespace Flat

variable {C : Codec H K G D} (U : UnmarshalPeer C) (db : Flat)

/-- `IsBanned`, inbound and outbound; `none` is a panic. -/
def isBanned (now : Time) (ip : Bytes) : Option (Bool × Bool) :=
  if db.has (whitelistPrefix [ip]) then some (false, false)
  else
    match mustDecodeTime (db.get (peerInBanPrefix [ip])), mustDecodeTime (db.get (peerOutBanPrefix [ip])) with
    | some inUntil, some outUntil => some (decide (now < inUntil), decide (now < outUntil))
    | _, _ => none

def load (value : Bytes) : Option (StreamedPeer D) :=
  match U.peer value with
  | none => none
  | some peer =>
    match mustDecodeTime (db.get (peerInBanPrefix [peer.ip])), mustDecodeTime (db.get (peerOutBanPrefix [peer.ip])) with
    | some inUntil, some outUntil => some ⟨peer, inUntil, outUntil, db.has (whitelistPrefix [peer.ip])⟩
    | _, _ => none

variable (includeBanned : Bool) (now : Time)

/-- `PeerStream.Next`, with what its iterator has left: a peer, or nil at the end; `none` is a
    panic. -/
def nextPeer : List (Bytes × Bytes) → Option (Option (StreamedPeer D) × List (Bytes × Bytes))
  | [] => some (none, [])
  | e :: es =>
    match db.load U e.2 with
    | none => none
    | some peer => if !includeBanned && peer.isBanned now then nextPeer es else some (some peer, es)

/-- `Next` until it returns nil, at most this often: the peers, and whether it came to that. -/
def nextPeers : Nat → List (Bytes × Bytes) → List (StreamedPeer D) × Bool
  | 0, _ => ([], false)
  | calls + 1, es =>
    match db.nextPeer U includeBanned now es with
    | none => ([], false)
    | some (none, _) => ([], true)
    | some (some peer, es) =>
      let rest := nextPeers calls es
      (peer :: rest.1, rest.2)

/-- `StreamPeers`, read to its end: there is a call for each entry, and the one that returns nil. -/
def peers : List (StreamedPeer D) × Bool := db.nextPeers U includeBanned now (db.streamPeers.length + 1) db.streamPeers

/-! ## Reading to the end -/

theorem isBanned_of_load {value : Bytes} {p : StreamedPeer D} (h : db.load U value = some p) :
    p.isBanned now = false ↔ db.isBanned now p.ip = some (false, false) := by
  unfold load at h
  split at h
  · cases h
  · split at h
    · rename_i hin hout
      cases h
      simp only [StreamedPeer.isBanned, isBanned, hin, hout]
      cases db.has (whitelistPrefix [_]) <;> simp
    · cases h

variable {includeBanned now}

/-- With enough calls and every peer loaded: all of them but those that are skipped. -/
theorem nextPeers_eq {es : List (Bytes × Bytes)} (h : ∀ e ∈ es, ∃ p, db.load U e.2 = some p) :
    ∀ {calls : Nat}, es.length < calls → db.nextPeers U includeBanned now calls es =
      ((es.filterMap fun e => db.load U e.2).filter (·.kept includeBanned now), true) := by
  induction es with
  | nil =>
    intro calls hcalls
    obtain ⟨calls, rfl⟩ : ∃ c, calls = c + 1 := ⟨calls - 1, by omega⟩
    rfl
  | cons e es ih =>
    intro calls hcalls
    obtain ⟨calls, rfl⟩ : ∃ c, calls = c + 1 := ⟨calls - 1, by omega⟩
    rw [List.length_cons] at hcalls
    obtain ⟨⟨p, hload⟩, hrest⟩ := List.forall_mem_cons.mp h
    rw [List.filterMap_cons_some (f := fun e : Bytes × Bytes => db.load U e.2) hload]
    by_cases hskip : (!includeBanned && p.isBanned now) = true
    · -- this call goes on to the next entry
      have hnext : db.nextPeer U includeBanned now (e :: es) = db.nextPeer U includeBanned now es := by
        simp only [nextPeer, hload, hskip, if_true]
      have hkept : ¬ p.kept includeBanned now = true := fun h => StreamedPeer.kept_iff.mp h hskip
      rw [List.filter_cons_of_neg hkept, ← ih hrest (show es.length < calls + 1 by omega)]
      simp only [nextPeers, hnext]
    · have hnext : db.nextPeer U includeBanned now (e :: es) = some (some p, es) := by
        simp only [nextPeer, hload, if_neg hskip]
      rw [List.filter_cons_of_pos (StreamedPeer.kept_iff.mpr hskip)]
      simp only [nextPeers, hnext, ih hrest (show es.length < calls by omega)]

theorem nextPeers_fails {es : List (Bytes × Bytes)} {e : Bytes × Bytes} (he : e ∈ es) (hload : db.load U e.2 = none) :
    ∀ calls : Nat, (db.nextPeers U includeBanned now calls es).2 = false := by
  induction es with
  | nil => cases he
  | cons e' es ih =>
    intro calls
    cases calls with
    | zero => rfl
    | succ calls =>
      rcases List.mem_cons.mp he with rfl | hes
      · simp only [nextPeers, nextPeer, hload]
      · cases hload' : db.load U e'.2 with
        | none => simp only [nextPeers, nextPeer, hload']
        | some p =>
          by_cases hskip : (!includeBanned && p.isBanned now) = true
          · have hnext : db.nextPeer U includeBanned now (e' :: es) = db.nextPeer U includeBanned now es := by
              simp only [nextPeer, hload', hskip, if_true]
            have hsame : db.nextPeers U includeBanned now (calls + 1) (e' :: es) =
                db.nextPeers U includeBanned now (calls + 1) es := by
              simp only [nextPeers, hnext]
            rw [hsame]
            exact ih hes (calls + 1)
          · simp only [nextPeers, nextPeer, hload', if_neg hskip]
            exact ih hes calls

end Flat

/-! ## Agreement -/

/-- The peers stored, by the row of each. -/
def Flat.StoredPeer {C : Codec H K G D} (U : UnmarshalPeer C) (db : Flat) (row : Bytes) (p : Peer D) : Prop :=
  ∃ v, db.get (peerDataPrefix [row]) = some v ∧ U.peer v = some p

/-- With the stored peers in key order, each once: the stream with banned peers gives all of
    them, and the stream without those that `IsBanned` reports as neither inbound- nor
    outbound-banned. -/
def Agrees {C : Codec H K G D} (U : UnmarshalPeer C) (db : Flat) (now : Time) : Prop :=
  ∃ rows : List (Bytes × Peer D), rows.Pairwise (·.1 < ·.1) ∧ (∀ row p, (row, p) ∈ rows ↔ db.StoredPeer U row p) ∧
    (db.peers U true now).2 = true ∧ (db.peers U true now).1.map StreamedPeer.toPeer = rows.map Prod.snd ∧
    (db.peers U false now).2 = true ∧ (db.peers U false now).1.map StreamedPeer.toPeer =
      (rows.filter fun r => decide (db.isBanned now r.2.ip = some (false, false))).map Prod.snd

/-- A time from 1970 on, with Unix seconds that fit in `int64`. -/
def From1970 (t : Int) : Prop := 0 ≤ t ∧ unix t < 2 ^ 63

/-- The bans stored for an IP, if any, end in 1970 or later. -/
def Flat.BansFrom1970 (db : Flat) (ip : Bytes) : Prop :=
  ∀ k ∈ [peerInBanPrefix [ip], peerOutBanPrefix [ip]], ∀ v, db.get k = some v → ∃ t, From1970 t ∧ v = Flat.encodeTime t

theorem mustDecodeTime_isSome_iff {v : Bytes} (hv : ∃ t, v = Flat.encodeTime t) :
    (Flat.mustDecodeTime (some v)).isSome = true ↔ ∃ t, From1970 t ∧ v = Flat.encodeTime t := by
  obtain ⟨t, rfl⟩ := hv
  refine ⟨fun h => ?_, ?_⟩
  · rw [Flat.mustDecodeTime, Flat.encodeTime, uint64_putUint64, Option.bind_some] at h
    by_cases hbig : (UInt64.ofInt (unix t)).toNat > 9223372036854775807
    · rw [if_pos hbig] at h
      cases h
    · -- the same eight bytes as those of a time in range
      have hunix : unix ((UInt64.ofInt (unix t)).toNat * second) = (UInt64.ofInt (unix t)).toNat :=
        Int.mul_ediv_cancel _ (by decide)
      refine ⟨(UInt64.ofInt (unix t)).toNat * second, ⟨by unfold second; omega, by omega⟩, ?_⟩
      rw [Flat.encodeTime, Flat.encodeTime, hunix, UInt64.toNat_inj.mp (toNat_ofInt (UInt64.ofInt (unix t)).toNat_lt)]
  · rintro ⟨t', ⟨h0, h63⟩, heq⟩
    rw [heq, mustDecodeTime_encodeTime (by unfold unix second; omega) h63, if_pos h0]
    rfl

/-! ## What a run writes -/

/-- The values of the rows of peers and bans, with bans that end at times in `q`. -/
def Wrote (C : Codec H K G D) (q : Time → Prop) : Key → Bytes → Prop
  | .peerData _, v => ∃ p, v = C.peer p
  | .peerInBan _, v => ∃ t, q t ∧ v = Flat.encodeTime t
  | .peerOutBan _, v => ∃ t, q t ∧ v = Flat.encodeTime t
  | _, _ => True

/-- A ban that is written ends at a time in `q`. -/
def Op.Bans (q : Time → Prop) : Op H K G D → Prop
  | .banOutboundPeerTx now _ duration => q (now + duration)
  | .banInboundPeerTx now _ duration => q (now + duration)
  | _ => True

/-- Every value in the tables satisfies `P` at its row. -/
def Tables.Rows (P : Key → Bytes → Prop) (ts : Tables) : Prop := ∀ k v, ts k = some v → P k v

theorem Tables.Rows.run {C : Codec H K G D} {q : Time → Prop} {ops : List (Op H K G D)} (hops : ∀ op ∈ ops, op.Bans q) :
    Tables.Rows (Wrote C q) (Machine.run (Tables.step C) (fun _ => none) ops) := by
  intro k v hv
  obtain ⟨op, hop, hputs⟩ := Tables.run_row hv
  cases hputs with
  | peer now id ip verify => exact ⟨_, rfl⟩
  | outboundBan now ip duration => exact ⟨_, hops _ hop, rfl⟩
  | inboundBan now ip duration => exact ⟨_, hops _ hop, rfl⟩
  | _ => trivial

section Run

variable {C : Codec H K G D} (U : UnmarshalPeer C) {db : Flat} {ts : Tables}

theorem mustDecodeTime_get_isSome_iff {k : Bytes} (hk : ∀ v, db.get k = some v → ∃ t, v = Flat.encodeTime t) :
    (Flat.mustDecodeTime (db.get k)).isSome = true ↔ ∀ v, db.get k = some v → ∃ t, From1970 t ∧ v = Flat.encodeTime t := by
  cases hv : db.get k with
  | none => exact iff_of_true rfl fun _ h => by cases h
  | some v =>
    rw [mustDecodeTime_isSome_iff (hk v hv)]
    exact ⟨fun h _ heq => Option.some.inj heq ▸ h, fun h => h v rfl⟩

theorem load_cases (h : Refines db ts) (hw : ts.Rows (Wrote C fun _ => True)) {v : Bytes} {p : Peer D} (hp : U.peer v = some p) :
    (∃ sp, db.load U v = some sp ∧ sp.toPeer = p) ∧ db.BansFrom1970 p.ip ∨ db.load U v = none ∧ ¬ db.BansFrom1970 p.ip := by
  have hin : ∀ v, db.get (peerInBanPrefix [p.ip]) = some v → ∃ t, v = Flat.encodeTime t := by
    intro v hv
    obtain ⟨t, -, ht⟩ := hw (.peerInBan p.ip) v ((h.get (.peerInBan p.ip)).symm.trans hv)
    exact ⟨t, ht⟩
  have hout : ∀ v, db.get (peerOutBanPrefix [p.ip]) = some v → ∃ t, v = Flat.encodeTime t := by
    intro v hv
    obtain ⟨t, -, ht⟩ := hw (.peerOutBan p.ip) v ((h.get (.peerOutBan p.ip)).symm.trans hv)
    exact ⟨t, ht⟩
  rw [Flat.BansFrom1970, List.forall_mem_cons, List.forall_mem_singleton, ← mustDecodeTime_get_isSome_iff hin,
    ← mustDecodeTime_get_isSome_iff hout]
  cases hi : Flat.mustDecodeTime (db.get (peerInBanPrefix [p.ip])) with
  | none => exact .inr ⟨by simp only [Flat.load, hp, hi], fun h => Bool.false_ne_true h.1⟩
  | some inUntil =>
    cases ho : Flat.mustDecodeTime (db.get (peerOutBanPrefix [p.ip])) with
    | none => exact .inr ⟨by simp only [Flat.load, hp, hi, ho], fun h => Bool.false_ne_true h.2⟩
    | some outUntil =>
      refine .inl ⟨⟨⟨p, inUntil, outUntil, db.has (whitelistPrefix [p.ip])⟩, ?_, rfl⟩, rfl, rfl⟩
      simp only [Flat.load, hp, hi, ho]

/-- The entries of the stream by their IDs, and the peer of each. -/
structure PeerRows (db : Flat) (rows : List (Bytes × Bytes)) : Prop where
  entries : db.streamPeers = rows.map fun r => (peerDataPrefix [r.1], r.2)
  sorted : rows.Pairwise (·.1 < ·.1)
  mem : ∀ row v, (row, v) ∈ rows ↔ db.get (peerDataPrefix [row]) = some v
  read : ∀ r ∈ rows, ∃ p, U.peer r.2 = some p

theorem exists_peerRows (h : Refines db ts) (hw : ts.Rows (Wrote C fun _ => True)) : ∃ rows, PeerRows U db rows := by
  have hlists : Lists db.streamPeers peerDataPrefix (fun id => ts (.peerData id)) (fun _ => True) := by
    refine h.lists .peerData (fun _ => rfl) (fun _ => rfl) (fun _ => rfl) fun k => ?_
    rw [peerDataPrefix_scan, List.contains_iff_mem, List.mem_singleton, and_true]
  obtain ⟨rows, hentries, hsorted, hmem⟩ := hlists
  refine ⟨rows, hentries, hsorted, fun row v => ?_, ?_⟩
  · rw [hmem, and_true]
    exact iff_of_eq (congrArg (· = some v) (h.get (.peerData row)).symm)
  · rintro ⟨row, v⟩ hr
    obtain ⟨p, rfl⟩ := hw (.peerData row) v ((hmem row v).mp hr).1
    obtain ⟨p', hp', -⟩ := U.peer_marshal p
    exact ⟨p', hp'⟩

/-- Each of these rows is loaded, as the peer it is. -/
def Loaded (db : Flat) (rows : List (Bytes × Bytes)) : Prop :=
  ∀ r ∈ rows, ∃ p sp, U.peer r.2 = some p ∧ db.load U r.2 = some sp ∧ sp.toPeer = p

theorem map_toPeer {rows : List (Bytes × Bytes)} (hload : Loaded U db rows)
    {k : StreamedPeer D → Bool} {q : Peer D → Bool} (hq : ∀ v sp, db.load U v = some sp → k sp = q sp.toPeer) :
    ((rows.filterMap fun r => db.load U r.2).filter k).map StreamedPeer.toPeer =
      ((rows.filterMap fun r => (U.peer r.2).map (Prod.mk r.1)).filter fun r => q r.2).map Prod.snd := by
  induction rows with
  | nil => rfl
  | cons r rows ih =>
    obtain ⟨⟨p, sp, hp, hsp, rfl⟩, hrest⟩ := List.forall_mem_cons.mp hload
    have hrow : (U.peer r.2).map (Prod.mk r.1) = some (r.1, sp.toPeer) := by rw [hp]; rfl
    rw [List.filterMap_cons_some (f := fun r : Bytes × Bytes => db.load U r.2) hsp,
      List.filterMap_cons_some (f := fun r : Bytes × Bytes => (U.peer r.2).map (Prod.mk r.1)) hrow, List.filter_cons,
      List.filter_cons, hq r.2 sp hsp]
    cases q sp.toPeer with
    | true => exact congrArg (sp.toPeer :: ·) (ih hrest)
    | false => exact ih hrest

section Rows

variable {U} {rows : List (Bytes × Bytes)} (hrows : PeerRows U db rows)
include hrows

theorem PeerRows.mem_peers (row : Bytes) (p : Peer D) :
    (row, p) ∈ (rows.filterMap fun r => (U.peer r.2).map (Prod.mk r.1)) ↔ db.StoredPeer U row p := by
  rw [List.mem_filterMap]
  refine ⟨?_, ?_⟩
  · rintro ⟨⟨row', v⟩, hr, heq⟩
    obtain ⟨p', hp', heq⟩ := Option.map_eq_some_iff.mp heq
    cases heq
    exact ⟨v, (hrows.mem row' v).mp hr, hp'⟩
  · rintro ⟨v, hv, hp⟩
    exact ⟨(row, v), (hrows.mem row v).mpr hv, by rw [hp]; rfl⟩

theorem PeerRows.sorted_peers :
    (rows.filterMap fun r => (U.peer r.2).map (Prod.mk r.1)).Pairwise (·.1 < ·.1) := by
  refine hrows.sorted.filterMap _ fun r r' hlt b hb b' hb' => ?_
  obtain ⟨_, -, rfl⟩ := Option.map_eq_some_iff.mp hb
  obtain ⟨_, -, rfl⟩ := Option.map_eq_some_iff.mp hb'
  exact hlt

theorem PeerRows.fails {row v : Bytes} (hv : db.get (peerDataPrefix [row]) = some v) (hnone : db.load U v = none)
    (includeBanned : Bool) (now : Time) : (db.peers U includeBanned now).2 = false := by
  have he : (peerDataPrefix [row], v) ∈ db.streamPeers := by
    rw [hrows.entries]
    exact List.mem_map.mpr ⟨(row, v), (hrows.mem row v).mpr hv, rfl⟩
  rw [Flat.peers, db.nextPeers_fails U he hnone]

theorem PeerRows.peers_eq (hload : Loaded U db rows) (includeBanned : Bool) (now : Time) :
    db.peers U includeBanned now = ((rows.filterMap fun r => db.load U r.2).filter (·.kept includeBanned now), true) := by
  have hloads : ∀ e ∈ db.streamPeers, ∃ p, db.load U e.2 = some p := by
    rw [hrows.entries]
    intro e he
    obtain ⟨r, hr, rfl⟩ := List.mem_map.mp he
    obtain ⟨_, sp, -, hsp, -⟩ := hload r hr
    exact ⟨sp, hsp⟩
  rw [Flat.peers, db.nextPeers_eq U hloads (Nat.lt_succ_self _), hrows.entries, List.filterMap_map]
  rfl

end Rows

theorem agrees_iff (h : Refines db ts) (hw : ts.Rows (Wrote C fun _ => True)) (now : Time) :
    Agrees U db now ↔ ∀ row p, db.StoredPeer U row p → db.BansFrom1970 p.ip := by
  obtain ⟨rows, hrows⟩ := exists_peerRows U h hw
  refine ⟨?_, fun hbans => ?_⟩
  · -- the peer of such a ban is an entry, and it is not loaded
    rintro ⟨_, _, _, hend, _⟩ row p ⟨v, hv, hp⟩
    rcases load_cases U h hw hp with ⟨-, hbans⟩ | ⟨hnone, -⟩
    · exact hbans
    · rw [hrows.fails hv hnone] at hend
      cases hend
  · have hload : Loaded U db rows := by
      intro r hr
      obtain ⟨p, hp⟩ := hrows.read r hr
      rcases load_cases U h hw hp with ⟨⟨sp, hsp, htop⟩, -⟩ | ⟨-, hnot⟩
      · exact ⟨p, sp, hp, hsp, htop⟩
      · exact absurd (hbans r.1 p ⟨r.2, (hrows.mem r.1 r.2).mp hr, hp⟩) hnot
    refine ⟨_, hrows.sorted_peers, hrows.mem_peers, ?_, ?_, ?_, ?_⟩
    · rw [hrows.peers_eq hload]
    · have hall := map_toPeer U hload (k := (·.kept true now)) (q := fun _ => true) fun _ _ _ => rfl
      rw [hrows.peers_eq hload, hall, List.filter_true]
    · rw [hrows.peers_eq hload]
    · rw [hrows.peers_eq hload]
      refine map_toPeer U hload (q := fun p => decide (db.isBanned now p.ip = some (false, false))) fun v sp hsp => ?_
      have hban := db.isBanned_of_load U now hsp
      rw [StreamedPeer.kept, Bool.false_or, Bool.eq_iff_iff, Bool.not_eq_true', decide_eq_true_iff]
      exact hban

end Run

def Op.ip : Op H K G D → Option Bytes
  | .setPeerTx _ _ ip _ | .banOutboundPeerTx _ ip _ | .banInboundPeerTx _ ip _ | .unbanOutboundPeerTx ip
  | .unbanInboundPeerTx ip | .whitelistPeerTx ip | .unwhitelistPeerTx ip => some ip
  | _ => none

theorem Op.not_touches_of_ip {C : Codec H K G D} {op : Op H K G D} {ip ip' : Bytes} (hop : op.ip = some ip) (hne : ip' ≠ ip) :
    ∀ k ∈ (Query.isBanned ip').keys, op.touches C k = false := by
  cases op <;> cases hop <;> simp [Query.keys, Op.touches, hne]

theorem isBanned_congr {db db' : Flat} {ip : Bytes} (h : db.reads (.isBanned ip) = db'.reads (.isBanned ip)) (now : Time) :
    db.isBanned now ip = db'.isBanned now ip := by
  simp only [Flat.reads, List.cons.injEq, and_true] at h
  obtain ⟨hwhite, hin, hout⟩ := h
  rw [Flat.isBanned, Flat.isBanned, OrderedMap.has, OrderedMap.has, hwhite, hin, hout]

/-- Over every run of the store's writes, at every query time. -/
theorem ban_views_agree_iff {C : Codec H K G D} (U : UnmarshalPeer C) (ops : List (Op H K G D)) (now : Time) :
    let db : Flat := Machine.run (Flat.step C) OrderedMap.empty ops
    (Agrees U db now ↔ ∀ row p, db.StoredPeer U row p → db.BansFrom1970 p.ip) ∧
    ((∀ op ∈ ops, op.Bans From1970) → Agrees U db now) ∧
    ∀ (op : Op H K G D) (ip ip' : Bytes), op.ip = some ip → ip' ≠ ip →
      (db.step C op).isBanned now ip' = db.isBanned now ip' := by
  intro db
  let ts : Tables := Machine.run (Tables.step C) (fun _ => none) ops
  have h : Refines db ts := Machine.run_sim Refines (fun db ts op h => h.step C op) ops _ _ .empty
  have hall : ∀ op ∈ ops, op.Bans fun _ => True := fun op _ => by cases op <;> trivial
  have hiff := agrees_iff U h (Tables.Rows.run hall) now
  refine ⟨hiff, fun hops => hiff.mpr fun _ p _ => ?_, fun op ip ip' hop hne => ?_⟩
  · have hw : ts.Rows (Wrote C From1970) := Tables.Rows.run hops
    rw [Flat.BansFrom1970, List.forall_mem_cons, List.forall_mem_singleton]
    exact ⟨fun v hv => hw (.peerInBan p.ip) v ((h.get (.peerInBan p.ip)).symm.trans hv),
      fun v hv => hw (.peerOutBan p.ip) v ((h.get (.peerOutBan p.ip)).symm.trans hv)⟩
  · refine isBanned_congr ?_ now
    rw [(h.step C op).reads, h.reads]
    exact List.map_congr_left fun k hk => ts.step_of_not_touches C (op.not_touches_of_ip hop hne k hk)

def bareIp : Codec Unit Unit Unit Unit :=
  ⟨fun h => h.name, fun _ => [], fun i => i.name, fun p => p.ip, fun _ => [], fun _ => []⟩

def readBareIp : UnmarshalPeer bareIp where
  peer b := some ⟨(), b, 0, false⟩
  text b := b
  peer_marshal _ := ⟨_, rfl, rfl, rfl⟩

/-- A peer is stored in 2020, banned for minus sixty years and whitelisted: it is not banned, and
    the stream panics. -/
theorem a_whitelisted_peer_is_not_streamed :
    let now : Time := 1600000000 * second
    let db : Flat := Machine.run (Flat.step bareIp) OrderedMap.empty
      [.setPeerTx now () (utf8 "10.0.0.1") true, .banInboundPeerTx now (utf8 "10.0.0.1") (-(60 * 365 * 86400 * second)),
        .whitelistPeerTx (utf8 "10.0.0.1")]
    db.isBanned now (utf8 "10.0.0.1") = some (false, false) ∧ ¬ Agrees readBareIp db now := by
  intro now db
  refine ⟨by decide +kernel, fun ⟨_, _, _, hend, _⟩ => ?_⟩
  have hpanic : (db.peers readBareIp true now).2 = false := by decide +kernel
  rw [hpanic] at hend
  cases hend

end Fnd.Store

/-
  Fnd.P2p.PeerBans — what a ban of an IP keeps out (`BanPeer` of `rpc/server.go`, the gates of
  `p2p/peer_manager.go`, `store/peers.go`).

  `BanPeer` stores an inbound and an outbound ban, then closes the peers of the IP. The gates read
  the bans, once; a call that is past its gate is not looked at again. So from the ban on the IP
  gets in only by calls that were past their gates, at most as many as the semaphores hold
  (`ban_keeps_out`), whatever else goes on.

  How long this lasts differs. The inbound ban lasts as it was set, to the second. The outbound ban
  is written by the manager too: a dial that fails bans its IP for an hour, over whatever ban is
  there. A dial that was under way when the operator banned the IP leaves an hour of the ban, so
  that only the shorter of the two is certain.

  The bans do not hold for an IP that is whitelisted, and a read of them that fails lets the call
  pass.
-/

import Fnd.P2p.Admission
import Fnd.Store.PeerStream

namespace Fnd.P2p

open Store (Flat Op Tables Refines Query Codec)

variable {H K G D : Type}

/-- The IP that the gate looks up. -/
def Attempt.ip : Attempt D → Bytes
  | .accept addr => addr.ip
  | .dial _ ip _ => ip

/-- A write of the manager, at a clock reading. -/
def Write.op (now : Time) : Write D → Op H K G D
  | .banOutboundPeer ip duration => .banOutboundPeerTx now ip duration
  | .setPeer id ip verify => .setPeerTx now id ip verify

/-- `PeersByIP`. -/
def PeerMuxer.peersByIP (p : PeerMuxer D) (ip : Bytes) : List Conn :=
  (p.inboundPeersByIP ip).toList ++ (p.outboundPeersByIP ip).toList

/-- A manager with its store. `closing` is what `BanPeer` has closed, `registered` the calls that
    have registered a peer. -/
structure Guarded (D : Type) where
  clock : Time
  manager : PeerManager D
  db : Flat
  closing : List Conn
  registered : List (Attempt D)

namespace Guarded

def new (opts : PeerManagerOpts D) (start : Time) : Guarded D := ⟨start, .new opts, OrderedMap.empty, [], []⟩

inductive Event (H K G D : Type) where
  | clock (now : Time)
  /-- a call passes its gate or not; `IsBanned` may fail -/
  | gate (a : Attempt D) (reads : Bool)
  /-- any other step of the manager -/
  | manager (e : PeerManager.Event D)
  /-- the transaction of `BanPeer` -/
  | banPeer (ip : Bytes) (duration : Int)
  /-- the rest of `BanPeer` -/
  | closePeers (ip : Bytes)
  | unbanPeer (ip : Bytes)
  /-- any other write to the store -/
  | store (op : Op H K G D)

variable [DecidableEq D] (C : Codec H K G D)

def write (s : Guarded D) (ops : List (Op H K G D)) : Guarded D := { s with db := Machine.run (Flat.step C) s.db ops }

def registering (before after : PeerManager D) : PeerManager.Event D → List (Attempt D)
  | .completes a _ _ => if before.made < after.made then [a] else []
  | _ => []

def written (before after : PeerManager D) : List (Write D) :=
  (after.writes.take (after.writes.length - before.writes.length)).reverse

def act (s : Guarded D) (e : PeerManager.Event D) : Guarded D :=
  let manager := s.manager.step e
  { s with manager := manager, registered := s.registered ++ registering s.manager manager e }.write C
    ((written s.manager manager).map (Write.op s.clock))

/-- What `IsBanned` says of a direction. -/
def banned (d : PeerDirection) (r : Bool × Bool) : Bool :=
  match d with
  | .inbound => r.1
  | .outbound => r.2

def step (s : Guarded D) : Event H K G D → Guarded D
  | .clock now => { s with clock := max s.clock now }
  | .gate a false => s.act C (.gates a none)
  | .gate a true =>
    match s.db.isBanned s.clock a.ip with
    | none => s
    | some r => s.act C (.gates a (some (banned a.direction r)))
  | .manager (.gates _ _) => s
  | .manager e => s.act C e
  | .banPeer ip duration => s.write C [.banInboundPeerTx s.clock ip duration, .banOutboundPeerTx s.clock ip duration]
  | .closePeers ip => { s with closing := s.closing ++ s.manager.mux.peersByIP ip }
  | .unbanPeer ip => s.write C [.unbanInboundPeerTx ip, .unbanOutboundPeerTx ip]
  | .store op => s.write C [op]

/-! ## Calls past the gate -/

/-- The calls for an IP that have registered a peer. -/
def got (s : Guarded D) (d : PeerDirection) (ip : Bytes) : Nat := s.registered.countP fun a => a.direction = d ∧ a.ip = ip

end Guarded

namespace PeerManager

variable [DecidableEq D] {s : PeerManager D}

theorem gate_banned (s : PeerManager D) (a : Attempt D) : ∃ err, s.gate a (some true) = .error err := by
  cases a with
  | accept addr =>
    simp only [gate, gateInboundPeer]
    split_ifs
    all_goals exact ⟨_, rfl⟩
  | dial peerID ip verifyPeerID =>
    simp only [gate, gateOutboundPeer]
    split_ifs
    all_goals exact ⟨_, rfl⟩

/-- A step writes nothing, or one thing; a ban it writes is for an hour or a year. -/
theorem step_writes (s : PeerManager D) (e : Event D) :
    (s.step e).writes = s.writes ∨
    ∃ w, (s.step e).writes = w :: s.writes ∧
      ∀ ip duration, w = .banOutboundPeer ip duration → duration = hour ∨ duration = yearBan := by
  have hgiveUp : ∀ (a : Attempt D) (before after : CallStage D), ((s.giveUp a).advance a before after).writes = s.writes ∨
      ∃ w, ((s.giveUp a).advance a before after).writes = w :: s.writes ∧
        ∀ ip duration, w = .banOutboundPeer ip duration → duration = hour ∨ duration = yearBan := by
    intro a before after
    cases a with
    | accept addr => exact .inl rfl
    | dial peerID ip verifyPeerID =>
      refine .inr ⟨.banOutboundPeer ip hour, rfl, ?_⟩
      rintro ip' duration ⟨⟩
      exact .inl rfl
  cases e with
  | starts a =>
    simp only [step]
    split
    · exact .inl rfl
    · exact .inl rfl
  | gates a isBanned =>
    simp only [step]
    split
    · cases hgate : s.gate a isBanned with
      | error err => exact .inl rfl
      | ok s' =>
        obtain ⟨rfl, -⟩ := gate_ok hgate
        exact .inl rfl
    · exact .inl rfl
  | fails a =>
    simp only [step]
    split
    · exact hgiveUp _ _ _
    · exact .inl rfl
  | shakes a theirPeerID reached =>
    simp only [step]
    split
    · split
      · exact hgiveUp _ _ _
      · exact .inl rfl
    · exact .inl rfl
  | cleans a theirPeerID remoteIP =>
    simp only [step]
    split
    · rw [cleanup_eq]
      exact .inl rfl
    · exact .inl rfl
  | completes a theirPeerID remoteIP =>
    simp only [step]
    split
    · simp only [complete, advance]
      split
      · cases a.direction with
        | inbound => exact .inl rfl
        | outbound =>
          refine .inr ⟨.banOutboundPeer remoteIP yearBan, rfl, ?_⟩
          rintro ip duration ⟨⟩
          exact .inr rfl
      · split
        · exact .inl rfl
        · refine .inr ⟨.setPeer theirPeerID remoteIP a.verify, rfl, ?_⟩
          rintro ip duration ⟨⟩
    · exact .inl rfl
  | returns a err =>
    simp only [step]
    split
    · exact .inl rfl
    · exact .inl rfl
  | closes id => exact .inl rfl

/-- Whether a call is for an IP, in a direction, and past the gate. -/
def may (d : PeerDirection) (ip : Bytes) (c : Call D) : Bool :=
  c.attempt.direction = d ∧ c.attempt.ip = ip ∧ Call.pastGate c = true

/-- A call goes on; of its stages the first is past the gate if the second is. -/
theorem may_advance {a : Attempt D} {before : CallStage D} (mem : ⟨a, before⟩ ∈ s.calls) {after : CallStage D}
    (hstage : Call.pastGate (⟨a, after⟩ : Call D) = true → Call.pastGate (⟨a, before⟩ : Call D) = true) (d : PeerDirection)
    (ip : Bytes) :
    (s.advance a before after).calls.countP (may d ip) ≤ s.calls.countP (may d ip) := by
  have hcount := countP_advance mem after (may d ip)
  have hle : (if may d ip (⟨a, after⟩ : Call D) then 1 else 0) ≤ if may d ip (⟨a, before⟩ : Call D) then 1 else 0 := by
    by_cases hafter : may d ip (⟨a, after⟩ : Call D) = true
    · have hall := of_decide_eq_true hafter
      have hbefore : may d ip (⟨a, before⟩ : Call D) = true := decide_eq_true ⟨hall.1, hall.2.1, hstage hall.2.2⟩
      rw [if_pos hafter, if_pos hbefore]
    · rw [if_neg hafter]
      exact Nat.zero_le _
  omega

theorem may_returning {a : Attempt D} {before : CallStage D} (mem : ⟨a, before⟩ ∈ s.calls) (err : Option PeerErr)
    (d : PeerDirection)
    (ip : Bytes) : (s.advance a before (.returning err)).calls.countP (may d ip) ≤ s.calls.countP (may d ip) := by
  refine may_advance mem (fun hpast => ?_) d ip
  cases hpast

/-- Peers of the IP are registered at the cost of calls past the gate. -/
def Pays (d : PeerDirection) (ip : Bytes) (s s' : PeerManager D) (e : Event D) : Prop :=
  (Guarded.registering s s' e).countP (fun a => a.direction = d ∧ a.ip = ip) + s'.calls.countP (may d ip) ≤
    s.calls.countP (may d ip)

omit [DecidableEq D] in
theorem Pays.of_made {d : PeerDirection} {ip : Bytes} {s' : PeerManager D} {e : Event D} (hmade : s'.made = s.made)
    (hle : s'.calls.countP (may d ip) ≤ s.calls.countP (may d ip)) : Pays d ip s s' e := by
  have hnone : Guarded.registering s s' e = [] := by
    cases e with
    | completes a theirPeerID remoteIP => exact if_neg (by omega)
    | _ => rfl
  rw [Pays, hnone, List.countP_nil, Nat.zero_add]
  exact hle

theorem step_pays (s : PeerManager D) (e : Event D) {d : PeerDirection} {ip : Bytes}
    (hgate : ∀ a isBanned, e = .gates a isBanned → a.direction = d → a.ip = ip → isBanned = some true) :
    Pays d ip s (s.step e) e := by
  by_cases hbanned : ∃ a, e = .gates a (some true)
  · obtain ⟨a, rfl⟩ := hbanned
    obtain ⟨err, herr⟩ := s.gate_banned a
    simp only [step, herr]
    split
    · rename_i mem
      exact .of_made rfl (may_returning mem _ d ip)
    · exact .of_made rfl (Nat.le_refl _)
  · have he := step_effect s e
    generalize s.step e = s' at he
    cases he with
    | skips => exact .of_made rfl (Nat.le_refl _)
    | starts =>
      refine .of_made rfl ?_
      rw [List.countP_cons_of_neg (by simp [may, Call.pastGate])]
    | refused mem => exact .of_made rfl (may_returning mem _ d ip)
    | @passed a isBanned mem =>
      refine .of_made rfl ?_
      have hcount := countP_advance (s := s.setPending a.direction a.address true) mem .gated (may d ip)
      have hnot : ¬ may d ip (⟨a, .gated⟩ : Call D) = true := by
        intro hmay
        have hall := of_decide_eq_true hmay
        exact hbanned ⟨a, by rw [hgate a isBanned rfl hall.1 hall.2.1]⟩
      rw [if_neg hnot] at hcount
      exact Nat.le_trans (Nat.le_add_right _ _) (Nat.le_of_eq hcount)
    | gaveUp mem => exact .of_made rfl (may_returning (s := (s.setPending _ _ false).journal _) mem _ d ip)
    | shook mem => exact .of_made rfl (may_advance mem (fun _ => rfl) d ip)
    | cleaned mem => exact .of_made rfl (may_advance (s := s.setPending _ _ false) mem (fun _ => rfl) d ip)
    | turnedAway mem => exact .of_made rfl (may_returning (s := s.journal _) mem _ d ip)
    | @registered a theirPeerID remoteIP writes registers =>
      -- the call that registers its peer is no longer one that may
      have hcount := countP_calls registers.mem (may d ip)
      have hmay : may d ip (⟨a, .cleaned theirPeerID remoteIP⟩ : Call D) = decide (a.direction = d ∧ a.ip = ip) := by
        simp [may, Call.pastGate]
      have hreg : ∀ {s' : PeerManager D}, s'.made = s.made + 1 →
          Guarded.registering s s' (.completes a theirPeerID remoteIP) = [a] := fun hmade => if_pos (by omega)
      rw [hmay] at hcount
      rw [Pays, hreg rfl, List.countP_singleton]
      show _ + (⟨a, .returning none⟩ :: s.calls.erase ⟨a, .cleaned theirPeerID remoteIP⟩ : List (Call D)).countP (may d ip) ≤ _
      rw [List.countP_cons_of_neg (by simp [may, Call.pastGate])]
      omega
    | returned mem => exact .of_made rfl (List.Sublist.countP_le List.erase_sublist)
    | closed => exact .of_made rfl (Nat.le_refl _)

end PeerManager

/-! ## The bans in the store -/

section Held

variable {ip : Bytes} {inUntil low high : Time} {db : Flat}

/-- Both bans of the IP: inbound until a time, outbound until one between two. -/
def Held (ip : Bytes) (inUntil low high : Time) (db : Flat) : Prop :=
  ∃ ts, Refines db ts ∧ ts (.whitelist ip) = none ∧ ts (.peerInBan ip) = some (Flat.encodeTime inUntil) ∧
    ∃ outUntil, low ≤ outUntil ∧ outUntil ≤ high ∧ ts (.peerOutBan ip) = some (Flat.encodeTime outUntil)

/-- The write is not about the bans of the IP, or bans it outbound until a time between the two. -/
def Spared (C : Codec H K G D) (ip : Bytes) (low high : Time) (op : Op H K G D) : Prop :=
  (∀ k ∈ (Query.isBanned ip).keys, op.touches C k = false) ∨
  ∃ now duration, op = .banOutboundPeerTx now ip duration ∧ low ≤ now + duration ∧ now + duration ≤ high

theorem Held.step {C : Codec H K G D} (h : Held ip inUntil low high db) {op : Op H K G D} (hop : Spared C ip low high op) :
    Held ip inUntil low high (db.step C op) := by
  obtain ⟨ts, href, hwhite, hin, outUntil, hlow, hhigh, hout⟩ := h
  refine ⟨ts.step C op, href.step C op, ?_⟩
  rcases hop with hspared | ⟨now, duration, rfl, hlow', hhigh'⟩
  · have hsame : ∀ k ∈ (Query.isBanned ip).keys, ts.step C op k = ts k := fun k hk => ts.step_of_not_touches C (hspared k hk)
    rw [hsame _ (by simp [Query.keys]), hsame _ (by simp [Query.keys]), hsame _ (by simp [Query.keys])]
    exact ⟨hwhite, hin, outUntil, hlow, hhigh, hout⟩
  · have hsame : ∀ k, k ≠ .peerOutBan ip → ts.step C (.banOutboundPeerTx now ip duration) k = ts k :=
      fun k hk => Function.update_of_ne hk _ ts
    rw [hsame _ Store.Key.noConfusion, hsame _ Store.Key.noConfusion]
    exact ⟨hwhite, hin, now + duration, hlow', hhigh', Function.update_self _ _ _⟩

theorem Held.run {C : Codec H K G D} (h : Held ip inUntil low high db) {ops : List (Op H K G D)}
    (hops : ∀ op ∈ ops, Spared C ip low high op) :
    Held ip inUntil low high (Machine.run (Flat.step C) db ops) :=
  Machine.run_inv (Held ip inUntil low high) (fun _ _ h hop => h.step hop.2) ops db h ((Machine.along_true ops db).and_mem hops)

theorem Held.isBanned (h : Held ip inUntil low high db) (hin : 0 ≤ inUntil) (hin' : unix inUntil < 2 ^ 63) (hlow : 0 ≤ low)
    (hhigh : unix high < 2 ^ 63) {now : Time} {r : Bool × Bool} (hr : db.isBanned now ip = some r) :
    (now < unix inUntil * second → r.1 = true) ∧ (now < unix low * second → r.2 = true) := by
  obtain ⟨ts, href, hwhite, hgetin, outUntil, hle, hle', hgetout⟩ := h
  have hhas : db.has (Store.whitelistPrefix [ip]) = false := congrArg Option.isSome ((href.get (.whitelist ip)).trans hwhite)
  have hrowin : db.get (Store.peerInBanPrefix [ip]) = some (Flat.encodeTime inUntil) := (href.get (.peerInBan ip)).trans hgetin
  have hrowout : db.get (Store.peerOutBanPrefix [ip]) = some (Flat.encodeTime outUntil) :=
    (href.get (.peerOutBan ip)).trans hgetout
  have hunix : unix low ≤ unix outUntil ∧ unix outUntil ≤ unix high :=
    ⟨Int.ediv_le_ediv (by decide) hle, Int.ediv_le_ediv (by decide) hle'⟩
  have hpos : 0 ≤ unix inUntil ∧ 0 ≤ unix low := ⟨Int.ediv_nonneg hin (by decide), Int.ediv_nonneg hlow (by decide)⟩
  have hdecin : Flat.mustDecodeTime (db.get (Store.peerInBanPrefix [ip])) = some (unix inUntil * second) := by
    rw [hrowin, Store.mustDecodeTime_encodeTime (by omega) hin', if_pos hin]
  have hdecout : Flat.mustDecodeTime (db.get (Store.peerOutBanPrefix [ip])) = some (unix outUntil * second) := by
    rw [hrowout, Store.mustDecodeTime_encodeTime (by omega) (by omega), if_pos (le_trans hlow hle)]
  rw [Flat.isBanned, hhas, if_neg Bool.false_ne_true, hdecin, hdecout] at hr
  cases hr
  refine ⟨fun hlt => decide_eq_true hlt, fun hlt => decide_eq_true (lt_of_lt_of_le hlt ?_)⟩
  exact Int.mul_le_mul_of_nonneg_right hunix.1 (by decide)

end Held

namespace Guarded

variable {C : Codec H K G D} {s : Guarded D} {ip : Bytes}

/-! ## Any run -/

structure Ok (s : Guarded D) : Prop where
  clock : 0 ≤ s.clock
  tables : ∃ ts, Refines s.db ts
  inv : PeerManager.Inv s.manager
  semaphores : PeerManager.Semaphores s.manager

theorem Ok.write (h : Ok s) (ops : List (Op H K G D)) : Ok (s.write C ops) := by
  refine { h with tables := ?_ }
  obtain ⟨ts, href⟩ := h.tables
  exact ⟨_, Machine.run_sim Refines (fun _ _ op href => href.step C op) ops _ ts href⟩

theorem may_le_maxPending (h : Ok s) (d : PeerDirection) (ip : Bytes) :
    s.manager.calls.countP (PeerManager.may d ip) ≤ maxPending d := by
  have hle : s.manager.calls.countP (PeerManager.may d ip) ≤ s.manager.underWay d :=
    List.countP_mono_left fun c _ hmay => decide_eq_true (of_decide_eq_true hmay).1
  have hsem := h.semaphores.sem d
  have hroom := h.semaphores.room d
  omega

section

variable [DecidableEq D]

theorem Ok.act (h : Ok s) (e : PeerManager.Event D) : Ok (s.act C e) := by
  have hmanager : Ok { s with
      manager := s.manager.step e, registered := s.registered ++ registering s.manager (s.manager.step e) e } :=
    ⟨h.clock, h.tables, PeerManager.step_inv _ e h.inv, h.semaphores.step e⟩
  exact hmanager.write _

theorem Ok.step (h : Ok s) (e : Event H K G D) : Ok (s.step C e) := by
  cases e with
  | clock now => exact { h with clock := le_trans h.clock (le_max_left _ _) }
  | gate a reads =>
    cases reads with
    | false => exact h.act _
    | true =>
      simp only [Guarded.step]
      split
      · exact h
      · exact h.act _
  | manager e =>
    cases e with
    | gates => exact h
    | _ => exact h.act _
  | banPeer ip duration => exact h.write _
  | closePeers ip => exact { h with }
  | unbanPeer ip => exact h.write _
  | store op => exact h.write _

theorem ok_run (opts : PeerManagerOpts D) {start : Time} (hstart : 0 ≤ start) (es : List (Event H K G D)) :
    Ok (Machine.run (step C) (new opts start) es) :=
  Machine.run_keeps Ok (fun _ e h => h.step e) es _
    ⟨hstart, ⟨_, .empty⟩, PeerManager.inv_new opts, PeerManager.semaphores_new opts⟩

end

/-! ## A run after a ban -/

/-- The event leaves the bans of the IP to the manager: the operator does not ban or unban it again,
    nobody whitelists it, and the gates can read. -/
def Event.Spares (C : Codec H K G D) (ip : Bytes) : Event H K G D → Prop
  | .gate _ reads => reads = true
  | .banPeer ip' _ | .unbanPeer ip' => ip' ≠ ip
  | .store op => ∀ k ∈ (Query.isBanned ip).keys, op.touches C k = false
  | _ => True

/-- Until when an IP is kept out that was banned at `t`. -/
def keptOut (t : Time) (duration : Int) : PeerDirection → Time
  | .inbound => unix (t + duration) * second
  | .outbound => unix (t + min duration hour) * second

/-- The bans of the IP since `t`, and the peers registered for it against the calls there were. -/
structure After (t : Time) (duration : Int) (ip : Bytes) (calls : PeerDirection → Nat) (s : Guarded D) : Prop where
  clock : t ≤ s.clock
  held : s.clock ≤ t + duration → Held ip (t + duration) (t + min duration hour) (t + duration + yearBan) s.db
  paid : ∀ d, s.clock < keptOut t duration d → s.got d ip + s.manager.calls.countP (PeerManager.may d ip) ≤ calls d

variable {t : Time} {duration : Int} {calls : PeerDirection → Nat}

theorem keptOut_le (t : Time) (duration : Int) (d : PeerDirection) : keptOut t duration d ≤ t + duration := by
  have hmul : ∀ u : Int, unix u * second ≤ u := fun u => Int.ediv_mul_le u (by decide)
  cases d with
  | inbound => exact hmul _
  | outbound => exact le_trans (hmul _) (Int.add_le_add_left (min_le_left _ _) t)

theorem After.write (h : After t duration ip calls s) {ops : List (Op H K G D)}
    (hops : s.clock ≤ t + duration → ∀ op ∈ ops, Spared C ip (t + min duration hour) (t + duration + yearBan) op) :
    After t duration ip calls (s.write C ops) :=
  { h with held := fun hle => (h.held hle).run (hops hle) }

/-- What the manager writes is no shorter a ban of the IP than an hour. -/
theorem spared_of_write (C : Codec H K G D) (hclock : t ≤ s.clock) (hle : s.clock ≤ t + duration) {w : Write D}
    (hw : ∀ ip duration, w = .banOutboundPeer ip duration → duration = hour ∨ duration = yearBan) :
    Spared C ip (t + min duration hour) (t + duration + yearBan) (w.op s.clock) := by
  cases w with
  | setPeer id ip' verify => exact .inl (by simp [Query.keys, Write.op, Op.touches])
  | banOutboundPeer ip' duration' =>
    by_cases hip : ip = ip'
    · subst hip
      have hmin : min duration hour ≤ hour := min_le_right _ _
      have hyear : hour ≤ yearBan ∧ 0 ≤ hour := by decide
      have hbounds : hour ≤ duration' ∧ duration' ≤ yearBan := by
        rcases hw ip duration' rfl with rfl | rfl
        · exact ⟨le_refl _, hyear.1⟩
        · exact ⟨hyear.1, le_refl _⟩
      refine .inr ⟨s.clock, duration', rfl, ?_, ?_⟩
      · exact Int.add_le_add hclock (le_trans hmin hbounds.1)
      · exact Int.add_le_add hle hbounds.2
    · exact .inl (Store.Op.not_touches_of_ip rfl hip)

theorem written_of_same {m m' : PeerManager D} (h : m'.writes = m.writes) : written m m' = [] := by
  rw [written, h, Nat.sub_self]
  rfl

theorem written_of_cons {m m' : PeerManager D} {w : Write D} (h : m'.writes = w :: m.writes) : written m m' = [w] := by
  rw [written, h, List.length_cons, Nat.add_sub_cancel_left]
  rfl

variable [DecidableEq D]

theorem After.act (h : After t duration ip calls s) {e : PeerManager.Event D}
    (hgate : ∀ d, s.clock < keptOut t duration d → ∀ a isBanned, e = .gates a isBanned → a.direction = d → a.ip = ip →
      isBanned = some true) : After t duration ip calls (s.act C e) := by
  have hmanager : After t duration ip calls { s with
      manager := s.manager.step e, registered := s.registered ++ registering s.manager (s.manager.step e) e } := by
    refine ⟨h.clock, h.held, fun d hlt => ?_⟩
    have hpaid := h.paid d hlt
    have hpays := PeerManager.step_pays s.manager e (hgate d hlt)
    rw [PeerManager.Pays] at hpays
    simp only [got, List.countP_append] at hpaid ⊢
    omega
  refine hmanager.write fun hle op hop => ?_
  obtain ⟨w, hw, rfl⟩ := List.mem_map.mp hop
  rcases PeerManager.step_writes s.manager e with hsame | ⟨w', hcons, hbans⟩
  · rw [written_of_same hsame] at hw
    cases hw
  · rw [written_of_cons hcons, List.mem_singleton] at hw
    subst hw
    exact spared_of_write C h.clock hle hbans

theorem After.step (h : After t duration ip calls s) (ht : 0 ≤ t) (hduration : 0 ≤ duration)
    (hfits : unix (t + duration + yearBan) < 2 ^ 63) {e : Event H K G D} (he : e.Spares C ip) :
    After t duration ip calls (s.step C e) := by
  cases e with
  | clock now =>
    have hle : s.clock ≤ max s.clock now := le_max_left _ _
    exact ⟨le_trans h.clock hle, fun hmax => h.held (le_trans hle hmax), fun d hlt => h.paid d (lt_of_le_of_lt hle hlt)⟩
  | gate a reads =>
    cases he
    simp only [Guarded.step]
    split
    · exact h
    · rename_i r hr
      refine h.act fun d hlt a' isBanned heq hd hip => ?_
      cases heq
      subst hip
      have hunix : unix (t + duration) ≤ unix (t + duration + yearBan) :=
        Int.ediv_le_ediv (by decide) (Int.le_add_of_nonneg_right (by decide))
      have hheld := h.held (le_of_lt (lt_of_lt_of_le hlt (keptOut_le t duration d)))
      have hbanned := hheld.isBanned (Int.add_nonneg ht hduration) (lt_of_le_of_lt hunix hfits)
        (Int.add_nonneg ht (le_min hduration (by decide))) hfits hr
      rw [hd]
      cases d with
      | inbound => exact congrArg some (hbanned.1 hlt)
      | outbound => exact congrArg some (hbanned.2 hlt)
  | manager e =>
    cases e with
    | gates => exact h
    | _ => exact h.act nofun
  | banPeer ip' duration' =>
    refine h.write fun _ op hop => .inl ?_
    simp only [List.mem_cons, List.not_mem_nil, or_false] at hop
    rcases hop with rfl | rfl
    · exact Store.Op.not_touches_of_ip rfl (Ne.symm he)
    · exact Store.Op.not_touches_of_ip rfl (Ne.symm he)
  | closePeers ip' => exact { h with }
  | unbanPeer ip' =>
    refine h.write fun _ op hop => .inl ?_
    simp only [List.mem_cons, List.not_mem_nil, or_false] at hop
    rcases hop with rfl | rfl
    · exact Store.Op.not_touches_of_ip rfl (Ne.symm he)
    · exact Store.Op.not_touches_of_ip rfl (Ne.symm he)
  | store op =>
    refine h.write fun _ op' hop => .inl ?_
    rw [List.mem_singleton.mp hop]
    exact he

theorem After.of_banPeer (hok : Ok s) (hwhite : s.db.has (Store.whitelistPrefix [ip]) = false) (duration : Int) :
    After s.clock duration ip (fun d => s.got d ip + s.manager.calls.countP (PeerManager.may d ip))
      (s.step C (.banPeer ip duration)) := by
  refine ⟨le_refl _, fun _ => ?_, fun d _ => Nat.le_refl _⟩
  obtain ⟨ts, href⟩ := hok.tables
  have hnone : ts (.whitelist ip) = none := by
    rw [← href.get (.whitelist ip)]
    exact Option.not_isSome_iff_eq_none.mp (Bool.eq_false_iff.mp hwhite)
  have hstep := (href.step C (.banInboundPeerTx s.clock ip duration)).step C (.banOutboundPeerTx s.clock ip duration)
  refine ⟨_, hstep, ?_, ?_, s.clock + duration, ?_, ?_, ?_⟩
  · simpa [Tables.step, Tables.put] using hnone
  · simp [Tables.step, Tables.put]
  · exact Int.add_le_add_left (min_le_left _ _) _
  · exact Int.le_add_of_nonneg_right (by decide)
  · simp [Tables.step, Tables.put]

/-- The IP gets in by calls that were past their gates at the ban and no others, and what of it was
    registered is closed. -/
theorem ban_keeps_out (C : Codec H K G D) (opts : PeerManagerOpts D) {start : Time} (hstart : 0 ≤ start)
    (es₀ : List (Event H K G D))
    (ip : Bytes) {duration : Int} (hduration : 0 ≤ duration) (es : List (Event H K G D)) (hes : ∀ e ∈ es, e.Spares C ip) :
    let s₀ := Machine.run (step C) (new opts start) es₀
    let s := Machine.run (step C) (s₀.step C (.banPeer ip duration)) es
    s₀.db.has (Store.whitelistPrefix [ip]) = false → unix (s₀.clock + duration + yearBan) < 2 ^ 63 →
    (∀ d, s.clock < keptOut s₀.clock duration d →
      s.got d ip ≤ s₀.got d ip + s₀.manager.calls.countP (PeerManager.may d ip)) ∧
    (∀ d, s₀.manager.calls.countP (PeerManager.may d ip) ≤ maxPending d) ∧
    ∀ peer ∈ s.manager.mux.peers.map (·.2), peer.direction = .inbound → peer.remoteIP = ip →
      peer ∈ (s.step C (.closePeers ip)).closing := by
  intro s₀ s hwhite hfits
  have hok : Ok s₀ := ok_run opts hstart es₀
  have hok' : Ok s := Machine.run_keeps Ok (fun _ e h => h.step e) es _ (hok.step _)
  have hafter : After s₀.clock duration ip _ s :=
    Machine.run_inv _ (fun _ e h he => h.step hok.clock hduration hfits (he.2)) es _ (.of_banPeer hok hwhite duration)
      ((Machine.along_true es _).and_mem hes)
  refine ⟨fun d hlt => ?_, fun d => may_le_maxPending hok d ip, fun peer hmem hdir hip => ?_⟩
  · exact Nat.le_trans (Nat.le_add_right _ _) (hafter.paid d hlt)
  · have hbyIP := (hok'.inv.mux.byIP ip peer).mpr ⟨hmem, hdir, hip⟩
    exact List.mem_append_right _ (List.mem_append_left _ hbyIP)

/-- A store whose values are not looked at. -/
def unread : Codec Unit Unit Unit Nat := ⟨fun _ => [], fun _ => [], fun _ => [], fun _ => [], fun _ => [], fun _ => []⟩

def port (n : UInt8) : Attempt Nat := .accept ⟨PeerManager.seven, PeerManager.seven ++ [58, n]⟩

/-- A connection is past its gate when its IP is banned, and gets in; the next one does not. -/
def lateBan : List (Event Unit Unit Unit Nat) × List (Event Unit Unit Unit Nat) :=
  ([.manager (.starts (port 49)), .gate (port 49) true, .manager (.shakes (port 49) 1 [])],
    [.closePeers PeerManager.seven, .manager (.cleans (port 49) 1 PeerManager.seven),
      .manager (.completes (port 49) 1 PeerManager.seven), .clock (59 * second), .manager (.starts (port 50)),
      .gate (port 50) true, .manager (.shakes (port 50) 2 []),
      .manager (.cleans (port 50) 2 PeerManager.seven), .manager (.completes (port 50) 2 PeerManager.seven)])

theorem one_was_past_its_gate :
    let s₀ := Machine.run (step unread) (new ⟨0, utf8 "127.0.0.1", 117, 8⟩ 0) lateBan.1
    let s := Machine.run (step unread) (s₀.step unread (.banPeer PeerManager.seven (60 * second))) lateBan.2
    s.got .inbound PeerManager.seven = 1 ∧ s.got .inbound PeerManager.seven ≤ s₀.got .inbound PeerManager.seven + 1 ∧
    s.manager.calls.map (·.stage) = [.returning (some .peerBanned), .returning none] := by
  intro s₀ s
  have hout := ban_keeps_out unread ⟨0, utf8 "127.0.0.1", 117, 8⟩ (le_refl 0) lateBan.1 PeerManager.seven
    (show 0 ≤ 60 * second by decide)
    lateBan.2 (by simp [lateBan, Event.Spares]) (by decide +kernel) (by decide +kernel)
  have hone := hout.1 .inbound (by decide +kernel)
  exact ⟨by decide +kernel, hone, by decide +kernel⟩

/-- An outbound ban of a year, of which a dial that was under way leaves an hour. -/
example :
    let dial : Attempt Nat := .dial 1 PeerManager.seven false
    let s := Machine.run (step unread) (new ⟨0, utf8 "127.0.0.1", 117, 8⟩ 0)
      [.manager (.starts dial), .gate dial true, .banPeer PeerManager.seven yearBan, .manager (.fails dial), .clock hour]
    s.db.isBanned s.clock PeerManager.seven = some (true, false) := by
  decide +kernel

end Guarded

end Fnd.P2p

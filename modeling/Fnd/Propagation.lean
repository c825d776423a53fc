/-
  Fnd.Propagation — a release reaches the nodes of the network.

  The nodes of `Fnd.Network`, each in order for a release (`Fnd.Release`). In every run of events
  that are allowed there, with nodes that panic and are restarted, and importers that record the
  name's key again:
  (1) a node that has the release keeps it.
  (2) A node that has it and is at rest can give it to any others at rest, one after the other: the
      node takes up the announcement, and what it is then sent is what the first one's handler
      answers to the request of its plan (`Fetches`). So no allowed event can keep the release from
      spreading (`release_spreads`), as far as the two integers that the other nodes read, the
      count of headers and the last import height, decode (`Takes`).
  (3) A node that is restarted is at rest.
-/

import Fnd.Network
import Fnd.Release

namespace Fnd.Release

open Blob (File Sector NoZeroHash)
open Network (Net)
open Node (State)
open Protocol
open Util (MultiLocker)
open Wire (BlobRes BlobReq)

variable {ι H K G : Type} {r : Release K}

variable (r) in
structure Idle (n : State H K G) : Prop where
  up : n.down = false
  workers : ∀ w, n.workers w = .idle
  queue : n.queue.queue = []
  entry : n.queue.entries r.name = none
  room : n.queue.queueLen < n.queue.maxLen

variable (r) in
/-- At rest, and a header of the name can be stored without a panic. -/
structure Takes (n : State H K G) : Prop where
  idle : r.Idle n
  count : n.shared.db.TakesHeader r.name
  height : Store.DB.Decodes n.shared.db.lastNameImportHeight

theorem idle_start (clock : Time) (db : Store.DB H K G) (blobs : Name → File) : r.Idle (Node.start clock db blobs) :=
  ⟨rfl, fun _ => rfl, rfl, rfl, by show (0 : Int) < 1000; decide⟩

variable [Zero H] [DecidableEq H] {P : Prims H K G} {T : Time → Prop} {n : State H K G}

/-! ## One node takes the release -/

theorem Idle.free (hi : r.Idle n) (h : r.Tracks P T n) : n.shared.locks r.name = ⟨0, 0⟩ :=
  (h.up hi.up).lock fun w _ _ hw => by cases (hi.workers w).symm.trans hw

variable (P r) in
/-- The first worker waits for an answer on the name, and nothing else goes on. -/
structure Waiting (n : State H K G) (item : UpdateQueueItem H K) (plan : Plan H) : Prop where
  up : n.down = false
  name : item.name = r.name
  worker : n.workers 0 = .locked item plan
  others : ∀ w, w ≠ 0 → n.workers w = .idle
  queue : n.queue.queue = []
  entry : n.queue.entries r.name = none
  room : n.queue.queueLen < n.queue.maxLen
  scheduled : plan.epochUpdated = true → plan.epochHeight ≤ currentEpoch P n.clock item.name + 1

variable (r) in
/-- The announcement comes in and the first worker takes it up. -/
def takesUp (peerID : H) : List (Node.Event H G) := [.update peerID r.announcement, .dequeue 0, .check 0, .lock 0]

theorem precheck_announcement {s : Shared H K G} (h : r.Rows P T s) (hnot : ¬ r.Has P s) {q : UpdateQueue H K}
    (hroom : q.queueLen < q.maxLen) : ∃ info, q.precheck s.db r.announcement = .ok (.inr info) := by
  obtain ⟨info, hinfo, -⟩ := h.info
  have hnoban : s.db.getHeaderBan (ε := QueueErr) r.name = .ok zeroTime := by simp only [Store.DB.getHeaderBan, h.headerBan]
  have hvalid : UpdateQueue.validateUpdate s.db r.name = .ok () := by
    simp [UpdateQueue.validateUpdate, r.valid, h.nameBan, hnoban]
  have hcompare : UpdateQueue.compareHeader (s.db.headers r.name) r.announcement = .ok () := by
    cases h.stored with
    | nothing hnone =>
      rw [hnone]
      simp [UpdateQueue.compareHeader, announcement, r.size_ne_zero.symm]
    | older header hfound hlt _ =>
      have hne : header.epochHeight ≠ r.epochHeight := UInt16.ne_of_lt hlt
      rw [hfound]
      simp [UpdateQueue.compareHeader, announcement, hne, UInt16.le_of_lt hlt]
    | part header hfound heq hlt _ _ =>
      have hlt : header.sectorSize < r.size := UInt16.lt_iff_toNat_lt.mpr (by rw [size_toNat]; exact hlt)
      rw [hfound]
      simp [UpdateQueue.compareHeader, announcement, heq, UInt16.le_of_lt hlt, UInt16.ne_of_lt hlt]
    | whole hhas => exact absurd hhas hnot
  refine ⟨info, ?_⟩
  have hsize : r.announcement.sectorSize ≠ 0 := r.size_ne_zero
  have hname : r.announcement.name = r.name := rfl
  simp only [UpdateQueue.precheck, Int.not_le.mpr hroom, h.imported, hsize, hname, hvalid, hinfo, hcompare, Bool.not_true,
    Bool.false_eq_true, if_false]

theorem Idle.waits (hi : r.Idle n) (h : r.Tracks P T n) (hnot : ¬ r.Has P n.shared) (peerID : H) :
    ∃ item plan, r.Waiting P (Machine.run (Node.step P) n (r.takesUp peerID)) item plan ∧
      (Machine.run (Node.step P) n (r.takesUp peerID)).shared.db = n.shared.db := by
  obtain ⟨info, hpre⟩ := precheck_announcement h.rows hnot hi.room
  let item := UpdateQueue.newItem peerID r.announcement info
  have hname : item.name = r.name := rfl
  obtain ⟨plan, hcheck, hsched⟩ := check_admits h.rows h.clock hnot hname fun _ => ⟨rfl, rfl⟩
  have hlock : n.shared.locks.tryLock item.name = some (Function.update n.shared.locks r.name ⟨0, 1⟩) :=
    MultiLocker.tryLock_eq_some.mpr ⟨hi.free h, rfl⟩
  let q : UpdateQueue H K := { n.queue with
    entries := Function.update n.queue.entries r.name (some item)
    queue := [r.name]
    queueLen := n.queue.queueLen + 1 }
  have henqueue : n.queue.enqueue n.shared.db peerID r.announcement = (.ok none, q) := by
    have hentry : n.queue.entries r.announcement.name = none := hi.entry
    simp only [UpdateQueue.enqueue, hpre, UpdateQueue.insert, hentry, hi.queue, List.nil_append]
    rfl
  let q' : UpdateQueue H K := { n.queue with
    entries := Function.update q.entries r.name none
    queue := []
    queueLen := n.queue.queueLen + 1 - 1 }
  have hdequeue : q.dequeue = (some item, q') := by
    simp only [UpdateQueue.dequeue, q, q', Function.update_self]
  have hup : Node.step P n (.update peerID r.announcement) = { n with queue := q, down := false } := by
    simp only [Node.step, hi.up, Node.act, henqueue, Node.panicked, Bool.false_eq_true, if_false]
  refine ⟨item, plan, ?_⟩
  simp only [takesUp, Machine.run_cons, Machine.run_nil, hup]
  simp only [Node.step, Node.act, hi.workers 0, hdequeue, State.setWorker, Function.update_self, hcheck, hlock,
    Bool.false_eq_true,
    if_false]
  have hroom : n.queue.queueLen + 1 - 1 < n.queue.maxLen := by
    rw [Int.add_sub_cancel]
    exact hi.room
  exact ⟨⟨rfl, hname, by simp only [Function.update_self], fun w hw => by simp only [Function.update_of_ne hw, hi.workers w], rfl,
    Function.update_self _ _ _, hroom, hsched⟩, trivial⟩

theorem Waiting.onTrack {item : UpdateQueueItem H K} {plan : Plan H} (hw : r.Waiting P n item plan) (h : r.Tracks P T n) :
    r.Asks item ∧ r.Continued P n.shared plan :=
  have htrack := (h.up hw.up).onTrack hw.worker
  ⟨htrack.1, htrack.2 hw.name⟩

theorem Waiting.finishes (hz : NoZeroHash P) {item : UpdateQueueItem H K} {plan : Plan H} (hw : r.Waiting P n item plan)
    (h : r.Tracks P T n) {sig : G} (hsig : r.Signed P sig) (hcount : n.shared.db.TakesHeader r.name)
    (hheight : Store.DB.Decodes n.shared.db.lastNameImportHeight) :
    r.Takes (Node.step P n (.finish 0 [r.answer P plan.sectorSize sig])) ∧
      r.Has P (Node.step P n (.finish 0 [r.answer P plan.sectorSize sig])).shared := by
  obtain ⟨hasks, hc⟩ := hw.onTrack h
  obtain ⟨res, happly⟩ := apply_answer hz h.rows hw.name hasks hc hw.scheduled hsig hcount
  obtain ⟨-, hhas⟩ := has_store n.clock h.rows hw.name hasks hc hsig
  have hf := finish_eq P n.clock item plan [r.answer P plan.sectorSize sig] (s := n.shared)
    (by rw [(h.up hw.up).inv.held.lock 0 item plan hw.worker])
  rw [happly] at hf
  have hread : readImportHeight (store P n.clock item plan n.shared (r.answer P plan.sectorSize sig)).db (.ok res) = .ok res :=
    readImportHeight_ok hheight res
  simp only [Node.step, hw.up, Node.act, hw.worker, hf, hread, State.setWorker, Node.panicked, Bool.false_eq_true, if_false]
  have hhas : r.Has P { store P n.clock item plan n.shared (r.answer P plan.sectorSize sig) with
      locks := Function.update n.shared.locks item.name ⟨0, 0⟩ } := hhas.same (.of_eq rfl rfl)
  refine ⟨⟨⟨rfl, fun w => ?_, hw.queue, hw.entry, hw.room⟩, hhas.takesHeader, hheight⟩, hhas⟩
  by_cases h0 : w = 0
  · subst h0
    simp only [Function.update_self]
  · simp only [Function.update_of_ne h0, hw.others w h0]

/-- A node at rest that has the release answers, and is at rest again. -/
theorem Idle.answers (hi : r.Idle n) (h : r.Tracks P T n) (hhas : r.Has P n.shared) {e k : UInt16} (he : e ≤ r.epochHeight)
    (hk : k.toNat < r.sectors.length) : ∃ sig, r.Signed P sig ∧
      (onBlobReq n.clock n.shared n.cache ⟨r.name, e, k⟩).1 = .ok (.blobRes (r.answer P k sig)) ∧
      r.Idle (Node.step P n (.blobReq ⟨r.name, e, k⟩)) ∧ (Node.step P n (.blobReq ⟨r.name, e, k⟩)).shared.db = n.shared.db := by
  have horder := h.up hi.up
  obtain ⟨header, hwhole⟩ := hhas
  have hanswer := (hwhole.requested horder.caches n.clock e k).2 he hk (by rw [hi.free h])
  obtain ⟨locks, hshared, -⟩ := onBlobReq_shared n.clock n.shared n.cache ⟨r.name, e, k⟩
  refine ⟨header.signature, hwhole.signed, hanswer, ?_⟩
  simp only [Node.step, hi.up, Bool.false_eq_true, if_false]
  exact ⟨⟨by simp only [Node.act, hanswer, Node.panicked], hi.workers, hi.queue, hi.entry, hi.room⟩,
    by simp only [Node.act, hshared]⟩

/-! ## The network -/

variable [DecidableEq ι]

variable (P r T) in
def Permitted (net : Net ι H K G) : Network.Event ι H K G → Prop
  | .node i e => r.Allowed P T (net i) e
  | .record _ name key _ => name = r.name → key = r.key
  | .restart _ => True

theorem Tracks.record (h : r.Tracks P T n) {name : Name} {key : K} (hkey : name = r.name → key = r.key) (height : Int) :
    r.Tracks P T (Network.record n name key height) ∧ (r.Has P n.shared → r.Has P (Network.record n name key height).shared) := by
  unfold Network.record
  split
  · exact ⟨h, id⟩
  have hhas : r.Has P n.shared → r.Has P { n.shared with db := n.shared.db.setNameInfo name key height } :=
    fun ⟨header, hw⟩ => ⟨header, hw.found, hw.epoch, hw.size, hw.sectors, hw.hashes, hw.tip, hw.root, hw.signed⟩
  refine ⟨⟨h.clock, ⟨h.rows.imported, ?_, h.rows.nameBan, h.rows.headerBan, ?_⟩, fun hup => ?_⟩, hhas⟩
  · by_cases hname : r.name = name
    · exact ⟨⟨name, key, height⟩, by rw [hname]; exact Function.update_self _ _ _, hkey hname.symm⟩
    · obtain ⟨info, hinfo, hpub⟩ := h.rows.info
      exact ⟨info, (Function.update_of_ne hname _ _).trans hinfo, hpub⟩
  · cases h.rows.stored with
    | nothing hnone => exact .nothing hnone
    | older header hfound hlt hroll => exact .older header hfound hlt hroll
    | part header hfound heq hlt hsectors htip => exact .part header hfound heq hlt hsectors htip
    | whole hw => exact .whole (hhas hw)
  · have horder := h.up hup
    exact ⟨⟨⟨horder.inv.held.lock, horder.inv.held.alone⟩, horder.inv.live⟩, horder.queue,
      fun w => (horder.workers w).mono fun plan hc => hc.same rfl, horder.lock, horder.txs, horder.caches,
      fun e k entry he => hhas (horder.cached e k entry he)⟩

/-- One permitted event: every node stays in order, and keeps the release. -/
theorem Permitted.step {net : Net ι H K G} {e : Network.Event ι H K G} (he : r.Permitted P T net e)
    (h : ∀ i, r.Tracks P T (net i)) (i : ι) :
    r.Tracks P T (Network.step P net e i) ∧ (r.Has P (net i).shared → r.Has P (Network.step P net e i).shared) := by
  have hat (j : ι) (n' : State H K G) (hn : r.Tracks P T n' ∧ (r.Has P (net j).shared → r.Has P n'.shared)) :
      r.Tracks P T (Function.update net j n' i) ∧ (r.Has P (net i).shared → r.Has P (Function.update net j n' i).shared) := by
    by_cases hij : i = j
    · subst hij
      rw [Function.update_self]
      exact hn
    · rw [Function.update_of_ne hij]
      exact ⟨h i, id⟩
  cases e with
  | node j e =>
    obtain ⟨htracks, hg⟩ := (h j).step he
    exact hat j _ ⟨htracks, hg.has⟩
  | record j name key height => exact hat j _ ((h j).record he height)
  | restart j => exact hat j _ ⟨tracks_start (h j).clock (h j).rows, fun hhas => hhas.same (.of_eq rfl rfl)⟩

theorem permitted_run {net : Net ι H K G} (h : ∀ i, r.Tracks P T (net i)) {es : List (Network.Event ι H K G)}
    (hes : Machine.Along (Network.step P) (r.Permitted P T) net es) (i : ι) :
    r.Tracks P T (Machine.run (Network.step P) net es i) ∧
      (r.Has P (net i).shared → r.Has P (Machine.run (Network.step P) net es i).shared) := by
  refine Machine.run_inv (fun net' : Net ι H K G =>
    ∀ i, r.Tracks P T (net' i) ∧ (r.Has P (net i).shared → r.Has P (net' i).shared))
    (fun net' e hnet he i => ?_) es net (fun i => ⟨h i, id⟩) hes i
  obtain ⟨htracks, hhas⟩ := Permitted.step he (fun j => (hnet j).1) i
  exact ⟨htracks, fun h0 => hhas ((hnet i).2 h0)⟩

variable (r) in
/-- Node `j` hears of the release from `i` and asks it as its plan says; `m` is what it is sent. -/
def exchange (peerID : ι → H) (i j : ι) (plan : Plan H) (m : BlobRes H G) : List (Network.Event ι H K G) :=
  (r.takesUp (peerID i)).map (.node j) ++ [.node i (.blobReq (plan.opts r.name).request), .node j (.finish 0 [m])]

variable (P r) in
/-- Exchanges with node `i`, in which the plan is that of the other node's worker, and what is
    sent is what the handler of `i` answers. -/
inductive Fetches (peerID : ι → H) (i : ι) : Net ι H K G → List (Network.Event ι H K G) → Prop
  | done (net : Net ι H K G) : Fetches peerID i net []
  | next {net : Net ι H K G} {j : ι} {item : UpdateQueueItem H K} {plan : Plan H} {m : BlobRes H G}
      {es : List (Network.Event ι H K G)}
      (hplan : (Machine.run (Node.step P) (net j) (r.takesUp (peerID i))).workers 0 = .locked item plan)
      (hanswer : (onBlobReq (net i).clock (net i).shared (net i).cache (plan.opts r.name).request).1 = .ok (.blobRes m))
      (hrest : Fetches peerID i (Machine.run (Network.step P) net (r.exchange peerID i j plan m)) es) :
      Fetches peerID i net (r.exchange peerID i j plan m ++ es)

theorem run_node (net : Net ι H K G) (j : ι) (es : List (Node.Event H G)) :
    Machine.run (Network.step P) net (es.map (.node j)) = Function.update net j (Machine.run (Node.step P) (net j) es) := by
  induction es generalizing net with
  | nil => exact (Function.update_eq_self j net).symm
  | cons e es ih =>
    rw [List.map_cons, Machine.run_cons, ih]
    simp only [Network.step, Function.update_self, Function.update_idem, Machine.run_cons]

/-- A node at rest without the release gets it from one at rest that has it. -/
theorem fetch (hz : NoZeroHash P) {net : Net ι H K G} (h : ∀ i, r.Tracks P T (net i)) (peerID : ι → H) {i j : ι}
    (hhas : r.Has P (net i).shared) (hi : r.Idle (net i)) (hj : r.Takes (net j)) (hnot : ¬ r.Has P (net j).shared) :
    ∃ item plan m, (Machine.run (Node.step P) (net j) (r.takesUp (peerID i))).workers 0 = .locked item plan ∧
      (onBlobReq (net i).clock (net i).shared (net i).cache (plan.opts r.name).request).1 = .ok (.blobRes m) ∧
      Machine.Along (Network.step P) (r.Permitted P T) net (r.exchange peerID i j plan m) ∧
      r.Has P (Machine.run (Network.step P) net (r.exchange peerID i j plan m) j).shared ∧
      r.Idle (Machine.run (Network.step P) net (r.exchange peerID i j plan m) i) ∧
      ∀ k, r.Takes (net k) → r.Takes (Machine.run (Network.step P) net (r.exchange peerID i j plan m) k) := by
  have hne : i ≠ j := by
    rintro rfl
    exact hnot hhas
  -- `j` up to its request
  obtain ⟨item, plan, hw, hdb⟩ := hj.idle.waits (h j) hnot (peerID i)
  have htakes := run_node (P := P) net j (r.takesUp (peerID i))
  generalize hn : Machine.run (Node.step P) (net j) (r.takesUp (peerID i)) = n at hw hdb htakes
  have htracks : r.Tracks P T n := by
    rw [← hn]
    exact Machine.run_inv (r.Tracks P T) (fun s e hs he => (hs.step he).1) _ _ (h j)
      (show Machine.Along (Node.step P) (r.Allowed P T) (net j) (r.takesUp (peerID i)) from
        ⟨fun _ => rfl, trivial, trivial, trivial, trivial⟩)
  obtain ⟨-, hc⟩ := hw.onTrack htracks
  -- the answer of `i`, and `j` with it
  obtain ⟨sig, hsig, hanswer, hidle, hdb'⟩ := hi.answers (h i) hhas hc.epoch hc.size
  have hdb' : (Node.step P (net i) (.blobReq (plan.opts r.name).request)).shared.db = (net i).shared.db := hdb'
  obtain ⟨htakes', hhas'⟩ := hw.finishes hz htracks hsig (by rw [hdb]; exact hj.count) (by rw [hdb]; exact hj.height)
  have hrun : Machine.run (Network.step P) net (r.exchange peerID i j plan (r.answer P plan.sectorSize sig)) =
      Function.update (Function.update (Function.update net j n) i
        (Node.step P (net i) (.blobReq (plan.opts r.name).request))) j
        (Node.step P n (.finish 0 [r.answer P plan.sectorSize sig])) := by
    rw [exchange, Machine.run_append, htakes]
    simp only [Machine.run_cons, Machine.run_nil, Network.step, Function.update_of_ne hne, Function.update_of_ne hne.symm,
      Function.update_self]
  refine ⟨item, plan, _, hw.worker, hanswer, ?_, ?_, ?_, fun k hk => ?_⟩
  · refine Machine.along_append.mpr ⟨⟨fun _ => rfl, trivial, trivial, trivial, trivial⟩, ?_⟩
    rw [htakes]
    refine ⟨fun _ => ?_, fun m hm => ?_, trivial⟩
    · rw [Function.update_of_ne hne]
      exact hhas
    · rw [List.mem_singleton.mp hm]
      exact fun _ _ => .inr ⟨sig, hsig, rfl⟩
  · rw [hrun, Function.update_self]
    exact hhas'
  · rw [hrun, Function.update_of_ne hne, Function.update_self]
    exact hidle
  · rw [hrun]
    by_cases hkj : k = j
    · subst hkj
      rw [Function.update_self]
      exact htakes'
    rw [Function.update_of_ne hkj]
    by_cases hki : k = i
    · subst hki
      rw [Function.update_self]
      exact ⟨hidle, by rw [hdb']; exact hk.count, by rw [hdb']; exact hk.height⟩
    · rw [Function.update_of_ne hki, Function.update_of_ne hkj]
      exact hk

theorem fetch_all (hz : NoZeroHash P) (peerID : ι → H) {i : ι} (js : List ι) : ∀ {net : Net ι H K G},
    (∀ i, r.Tracks P T (net i)) → r.Has P (net i).shared → r.Idle (net i) → (∀ j ∈ js, r.Takes (net j)) →
    ∃ es, r.Fetches P peerID i net es ∧ Machine.Along (Network.step P) (r.Permitted P T) net es ∧
      ∀ j ∈ js, r.Has P (Machine.run (Network.step P) net es j).shared := by
  induction js with
  | nil =>
    intro net _ _ _ _
    exact ⟨[], .done net, trivial, nofun⟩
  | cons j js ih =>
    intro net h hhas hi hjs
    have hrest : ∀ k ∈ js, r.Takes (net k) := fun k hk => hjs k (List.mem_cons_of_mem _ hk)
    by_cases hj : r.Has P (net j).shared
    · obtain ⟨es, hf, hes, hall⟩ := ih h hhas hi hrest
      exact ⟨es, hf, hes, List.forall_mem_cons.mpr ⟨(permitted_run h hes j).2 hj, hall⟩⟩
    · obtain ⟨item, plan, m, hplan, hanswer, hex, hgot, hidle, htakes⟩ := fetch hz h peerID hhas hi (hjs j List.mem_cons_self) hj
      have hafter := permitted_run h hex
      obtain ⟨es, hf, hes, hall⟩ := ih (fun k => (hafter k).1) ((hafter i).2 hhas) hidle fun k hk => htakes k (hrest k hk)
      refine ⟨_, .next hplan hanswer hf, Machine.along_append.mpr ⟨hex, hes⟩, ?_⟩
      rw [Machine.run_append]
      exact List.forall_mem_cons.mpr ⟨(permitted_run (fun k => (hafter k).1) hes j).2 hgot, hall⟩

/-- Over every run of permitted events: what has the release keeps it, and from a node at rest it
    can still reach all others at rest that can store it; a restart brings a node to rest. -/
theorem release_spreads (hz : NoZeroHash P) {net : Net ι H K G} (h : ∀ i, r.Tracks P T (net i))
    {es : List (Network.Event ι H K G)} (hes : Machine.Along (Network.step P) (r.Permitted P T) net es) (peerID : ι → H) :
    let net' := Machine.run (Network.step P) net es
    (∀ i, r.Has P (net i).shared → r.Has P (net' i).shared) ∧
    (∀ (i : ι) (js : List ι), r.Has P (net' i).shared → r.Idle (net' i) → (∀ j ∈ js, r.Takes (net' j)) →
      ∃ es', r.Fetches P peerID i net' es' ∧ Machine.Along (Network.step P) (r.Permitted P T) net' es' ∧
        ∀ j ∈ js, r.Has P (Machine.run (Network.step P) net' es' j).shared) ∧
    ∀ i, r.Idle (Network.step P net' (.restart i) i) := by
  intro net'
  have hrun := permitted_run h hes
  refine ⟨fun i => (hrun i).2, fun i js hhas hi hjs => fetch_all hz peerID js (fun k => (hrun k).1) hhas hi hjs, fun i => ?_⟩
  simp only [Network.step, Function.update_self]
  exact idle_start _ _ _

/-- What `Protocol.host` holds. -/
def hostedRelease : Release Nat :=
  ⟨Symbolic.site, 1, 5, [Symbolic.fill 1, Symbolic.fill 2], by decide, by decide, by decide⟩

theorem host_has : hostedRelease.Has Symbolic.prims host := by
  refine ⟨hosted [Symbolic.fill 1, Symbolic.fill 2], rfl, rfl, rfl, rfl, rfl, rfl, rfl, ?_⟩
  show Symbolic.prims.verifySigPub _ _ _ = true
  rw [← Blob.tip_hashesOf Symbolic.prims Symbolic.noZeroHash hostedRelease.fits]
  exact (serving_hostOf (by decide) (by decide)).signature

/-- A host, a node with the first sector, and a fresh one. -/
def three : Net (Fin 3) Symbolic.Sym Nat Symbolic.Sig
  | 0 => Node.start (Symbolic.weeks 6) host.db host.blobs
  | 1 => Node.start (Symbolic.weeks 6) (hostOf [Symbolic.fill 1]).db (hostOf [Symbolic.fill 1]).blobs
  | 2 => Node.start (Symbolic.weeks 6) Symbolic.fresh.db Symbolic.fresh.blobs

theorem tracks_three (i : Fin 3) : hostedRelease.Tracks Symbolic.prims (fun _ => True) (three i) := by
  match i with
  | 0 => exact tracks_start trivial ⟨rfl, ⟨_, rfl, rfl⟩, rfl, rfl, .whole host_has⟩
  | 1 =>
    refine tracks_start trivial ⟨rfl, ⟨_, rfl, rfl⟩, rfl, rfl, .part (hosted [Symbolic.fill 1]) rfl rfl (by decide) rfl ?_⟩
    exact Blob.tip_hashesOf Symbolic.prims Symbolic.noZeroHash (show [Symbolic.fill 1].length ≤ Blob.maxSectors by decide)
  | 2 => exact tracks_start trivial ⟨rfl, ⟨_, rfl, rfl⟩, rfl, rfl, .nothing rfl⟩

/-- The fresh one is restarted; then the two get what they lack. -/
theorem the_host_gives_two_nodes_what_they_lack :
    let net := Machine.run (Network.step Symbolic.prims) three [.restart 2]
    ∃ es, hostedRelease.Fetches Symbolic.prims (fun _ => 0) 0 net es ∧
      hostedRelease.Has Symbolic.prims (Machine.run (Network.step Symbolic.prims) net es 1).shared ∧
      hostedRelease.Has Symbolic.prims (Machine.run (Network.step Symbolic.prims) net es 2).shared := by
  obtain ⟨hkeeps, hspreads, -⟩ := release_spreads (T := fun _ => True) Symbolic.noZeroHash tracks_three
    (show Machine.Along _ _ three [.restart 2] from ⟨trivial, trivial⟩) fun _ => 0
  obtain ⟨es, hfetches, -, hall⟩ := hspreads 0 [1, 2] (hkeeps 0 (host_has.same (.of_eq rfl rfl))) (idle_start _ _ _) (by
    intro j hj
    rcases List.mem_cons.mp hj with rfl | hj
    · exact ⟨idle_start _ _ _, .inl rfl, by decide⟩
    · rw [List.mem_singleton.mp hj]
      exact ⟨idle_start _ _ _, .inr (by decide), by decide⟩)
  exact ⟨es, hfetches, hall 1 List.mem_cons_self, hall 2 (List.mem_cons_of_mem _ List.mem_cons_self)⟩

end Fnd.Release

/-
  Fnd.Rpc.BlobWriter — the client's writer (`rpc/blob_writer.go`) against the server.

  The writer checks a blob out, sends sector after sector, and keeps size and tip on its own:
  from the checkout's tip it folds each slice it sent, padded or cut to a sector. The server
  hashes the whole transaction from zero when it is committed. `Session` is one open writer
  among everything else that happens to the node; a step of others is `Quiet` when it leaves
  the name's blob and key and the writer's transaction alone. Calls reach the server and their
  answers come back.

  Whatever was written, size and tip agree and the commit stores the old sectors (none after a
  reset) followed by the slices, exactly if (`writer_commits_iff`)
  - it comes before the transaction expires: after 15 s the server converts a nil interface;
  - nobody holds the name's lock then, be it to read it (a peer's request does);
  - the name has a header, or the count of headers decodes.
-/

import Mathlib.Control.Monad.Basic
import Fnd.Lib.Machine
import Fnd.Rpc.Server
import Fnd.Symbolic

namespace Fnd.Rpc

open Blob (Sector Tx TxErr serialHash serialHashSector sealHash tip maxSectors hashesOf)
open HashChain (chain)
open Protocol (Shared)
open Store (NameInfo)
open Util (Cache millisecond)

variable {H K G : Type}

structure BlobWriter (H : Type) where
  name : Name
  resetEpoch : Bool
  epochHeight : UInt16
  sectorSize : UInt16
  sectorTipHash : H
  txID : UInt32
  opened : Bool
  committed : Bool
  deriving DecidableEq

inductive WriterErr where
  | rpc (e : RpcErr)
  /-- The write error in the server's answer. -/
  | write (e : TxErr)
  | sign
  deriving DecidableEq, Repr

/-- The server's failure, as the client sees it. -/
def faultOf : Fault RpcErr → Fault WriterErr
  | .panic => .panic
  | .err e => .err (.rpc e)

namespace BlobWriter

variable [Zero H]

def new (name : Name) (resetEpoch : Bool) : BlobWriter H := ⟨name, resetEpoch, 0, 0, 0, 0, false, false⟩

variable (P : Prims H K G) (now : Time) (s : Shared H K G) (srv : Server)

def open_ (w : BlobWriter H) : Except (Fault WriterErr) (BlobWriter H) × Server :=
  if w.opened then (.error .panic, srv)
  else if w.committed then (.error .panic, srv)
  else match checkout P now s srv ⟨w.name, w.resetEpoch⟩ with
    | (.error f, srv) => (.error (faultOf f), srv)
    | (.ok res, srv) =>
      (.ok { w with txID := res.txID, epochHeight := res.epochHeight, sectorSize := res.sectorSize,
                    sectorTipHash := res.sectorTipHash, opened := true }, srv)

omit [Zero H] in
/-- `WriteSector`: the new tip is the writer's. -/
def writeSector (w : BlobWriter H) (p : Bytes) : Except (Fault WriterErr) (BlobWriter H) × Server :=
  if !w.opened then (.error .panic, srv)
  else if w.committed then (.error .panic, srv)
  else
    let sector := Blob.zeroSector.copy p
    match Rpc.writeSector now s srv w.txID p with
    | (.error f, srv) => (.error (faultOf f), srv)
    | (.ok (some e), srv) => (.error (.err (.write e)), srv)
    | (.ok none, srv) =>
      (.ok { w with sectorSize := w.sectorSize + 1, sectorTipHash := serialHashSector P sector w.sectorTipHash }, srv)

variable [DecidableEq H]

/-- What `Commit` sends. -/
def commitReq (w : BlobWriter H) (sig : G) (broadcast : Bool) : CommitReq H G :=
  ⟨w.txID, w.epochHeight.toUInt32, w.sectorSize.toUInt32, some w.sectorTipHash, sig, broadcast⟩

/-- `Commit`: the tip it returns, the writer, and what the server left. `sign` is the signer's,
    `none` an error. -/
def commit (sign : H → Option G) (w : BlobWriter H) (broadcast : Bool) :
    Except (Fault WriterErr) (H × BlobWriter H) × Shared H K G × Server :=
  if !w.opened then (.error .panic, s, srv)
  else if w.committed then (.error .panic, s, srv)
  else match sign (sealHash P w.name w.epochHeight w.sectorSize w.sectorTipHash 0) with
    | none => (.error (.err .sign), s, srv)
    | some sig =>
      let out := Rpc.commit P now s srv (w.commitReq sig broadcast)
      match out.res with
      | .error f => (.error (faultOf f), out.shared, out.server)
      | .ok _ => (.ok (w.sectorTipHash, { w with committed := true }), out.shared, out.server)

theorem commit_ok {P : Prims H K G} {now : Time} {s : Shared H K G} {srv : Server} {sign : H → Option G} {w : BlobWriter H}
    {broadcast : Bool} {sig : G} {u : Option Wire.Update} (hw : w.opened = true ∧ w.committed = false)
    (hsig : sign (sealHash P w.name w.epochHeight w.sectorSize w.sectorTipHash 0) = some sig)
    (hres : (Rpc.commit P now s srv (w.commitReq sig broadcast)).res = .ok u) :
    w.commit P now s srv sign broadcast = (.ok (w.sectorTipHash, { w with committed := true }),
      (Rpc.commit P now s srv (w.commitReq sig broadcast)).shared,
      (Rpc.commit P now s srv (w.commitReq sig broadcast)).server) := by
  simp only [commit, hw.1, hw.2, hsig, hres, Bool.not_true, Bool.false_eq_true, if_false]

end BlobWriter

/-! ## A writer among others -/

structure Session (H K G : Type) where
  clock : Time
  shared : Shared H K G
  srv : Server
  writer : BlobWriter H

namespace Session

inductive Event (H K G : Type) where
  | tick (now : Time)
  | write (p : Bytes)
  /-- what else happens to the node -/
  | other (shared : Shared H K G) (srv : Server)

/-- A write that fails leaves the writer as it was. -/
def step (P : Prims H K G) (s : Session H K G) : Event H K G → Session H K G
  | .tick now => { s with clock := max s.clock now }
  | .write p =>
    match s.writer.writeSector P s.clock s.shared s.srv p with
    | (.error _, srv) => { s with srv := srv }
    | (.ok w, srv) => { s with srv := srv, writer := w }
  | .other shared srv => { s with shared := shared, srv := srv }

/-- Others leave the name's blob and its key alone, and the writer's transaction. -/
def Quiet (s : Session H K G) : Event H K G → Prop
  | .other shared srv =>
    shared.blobs s.writer.name = s.shared.blobs s.writer.name ∧
    shared.db.nameInfo s.writer.name = s.shared.db.nameInfo s.writer.name ∧
    srv.txStore s.writer.txID = s.srv.txStore s.writer.txID
  | _ => True

def slices : List (Event H K G) → List Bytes
  | [] => []
  | .write p :: es => p :: slices es
  | .tick _ :: es => slices es
  | .other _ _ :: es => slices es

/-- A slice, padded with zeros or cut to a sector. -/
def sectorOf (p : Bytes) : Sector := Blob.zeroSector.copy p

end Session

/-! ## What is under way -/

section

variable [Zero H] {P : Prims H K G}

def kept (P : Prims H K G) (now : Time) (s : Shared H K G) (req : CheckoutReq) : List Sector :=
  if req.resetEpoch then [] else (s.blobs req.name).sectors (base P now s.db req.name).2.1.toNat

/-- The writer with the sectors `xs` behind it. -/
def BlobWriter.after (P : Prims H K G) (w : BlobWriter H) (xs : List Sector) : BlobWriter H :=
  { w with sectorSize := UInt16.ofNat xs.length, sectorTipHash := chain (serialHashSector P) 0 xs }

namespace Session

/-- `xs` so far: at the writer as size and tip, in the transaction `txID` as its first sectors. -/
structure Holds (P : Prims H K G) (w : BlobWriter H) (expiry : Int) (info : NameInfo K) (s : Session H K G)
    (xs : List Sector) : Prop where
  writer : s.writer = w.after P xs
  tx : ∃ tx, s.srv.txStore w.txID = some ⟨tx, expiry⟩ ∧ tx.Live ∧ tx.name = w.name ∧
    tx.sectorSize = UInt16.ofNat xs.length ∧ (tx.view (s.shared.blobs w.name)).sectors xs.length = xs
  info : s.shared.db.nameInfo w.name = some info

variable {w : BlobWriter H} {expiry : Int} {info : NameInfo K} {s : Session H K G} {xs : List Sector}

omit [Zero H] in
theorem clock_le_step (P : Prims H K G) (s : Session H K G) (e : Event H K G) : s.clock ≤ (step P s e).clock := by
  cases e with
  | tick now => exact Int.le_max_left _ _
  | write p =>
    simp only [step]
    split <;> exact Int.le_refl _
  | other => exact Int.le_refl _

omit [Zero H] in
theorem clock_le_run (P : Prims H K G) (es : List (Event H K G)) (s : Session H K G) :
    s.clock ≤ (Machine.run (step P) s es).clock := by
  induction es generalizing s with
  | nil => exact Int.le_refl _
  | cons e es ih => exact Int.le_trans (clock_le_step P s e) (ih _)

theorem toNat_size {n : Nat} (h : n ≤ maxSectors) : (UInt16.ofNat n).toNat = n := by
  rw [UInt16.toNat_ofNat', Nat.mod_eq_of_lt (by simp only [maxSectors] at h; omega)]

theorem Holds.other (h : Holds P w expiry info s xs) {shared : Shared H K G} {srv : Server}
    (hq : Quiet s (.other shared srv)) : Holds P w expiry info { s with shared := shared, srv := srv } xs := by
  have hname : s.writer.name = w.name := by rw [h.writer]; rfl
  have hid : s.writer.txID = w.txID := by rw [h.writer]; rfl
  obtain ⟨hblob, hinfo, htx⟩ := hq
  rw [hname] at hblob hinfo
  rw [hid] at htx
  obtain ⟨tx, he, hlive, hn, hsz, hview⟩ := h.tx
  exact ⟨h.writer, ⟨tx, htx.trans he, hlive, hn, hsz, by rw [hblob]; exact hview⟩, hinfo.trans h.info⟩

/-- In time and within the blob, a write adds its slice at both ends. -/
theorem Holds.write (h : Holds P w expiry info s xs) (hw : w.opened = true ∧ w.committed = false)
    (htime : s.clock ≤ expiry) (hlen : xs.length < maxSectors) (p : Bytes) :
    Holds P w expiry info (step P s (.write p)) (xs ++ [sectorOf p]) := by
  obtain ⟨tx, he, hlive, hname, hsz, hview⟩ := h.tx
  have hget : s.srv.txStore.get s.clock w.txID = (some tx, s.srv.txStore) := Cache.get_of_le he htime
  obtain ⟨tx', hserver, hlive', hname', hsz', hview'⟩ := writeSector_served s.shared p hlive hget
  rw [hname] at hname' hview'
  have hn := toNat_size (Nat.le_of_lt hlen)
  have hnext : UInt16.ofNat xs.length + 1 = UInt16.ofNat (xs ++ [sectorOf p]).length := by
    rw [List.length_append, List.length_singleton, UInt16.ofNat_add]; rfl
  have hstep : step P s (.write p) = { s with
      srv := { s.srv with txStore := s.srv.txStore.assign w.txID tx' }
      writer := w.after P (xs ++ [sectorOf p]) } := by
    simp only [step, BlobWriter.writeSector, h.writer, BlobWriter.after, hw.1, hw.2, hserver, hnext, HashChain.chain_concat,
      sectorOf,
      Bool.not_true, Bool.false_eq_true, if_false]
  rw [hstep]
  refine ⟨rfl, ⟨tx', ?_, hlive', hname', by rw [hsz', hsz, hnext], ?_⟩, h.info⟩
  · simp only [Cache.assign, he, Function.update_self]
  · show (tx'.view (s.shared.blobs w.name)).sectors (xs ++ [sectorOf p]).length = xs ++ [sectorOf p]
    rw [hview', hsz, hn, List.length_append, List.length_singleton, Blob.File.sectors_succ,
      Blob.File.sectorAt_writeSector_self]
    congr 1
    refine Eq.trans (Blob.File.sectors_congr fun i hi => ?_) hview
    exact Blob.File.sectorAt_writeSector_ne _ _ (Nat.ne_of_lt hi)

theorem run_holds (hw : w.opened = true ∧ w.committed = false) :
    ∀ (es : List (Event H K G)) (s : Session H K G) (xs : List Sector), Holds P w expiry info s xs →
      Machine.Along (step P) Quiet s es → (Machine.run (step P) s es).clock ≤ expiry →
      xs.length + (slices es).length ≤ maxSectors →
      Holds P w expiry info (Machine.run (step P) s es) (xs ++ (slices es).map sectorOf) := by
  intro es
  induction es with
  | nil =>
    intro s xs h _ _ _
    simpa [slices] using h
  | cons e es ih =>
    intro s xs h hq htime hlen
    have hnow : s.clock ≤ expiry :=
      Int.le_trans (Int.le_trans (clock_le_step P s e) (clock_le_run P es _)) htime
    cases e with
    | tick now => exact ih _ xs ⟨h.writer, h.tx, h.info⟩ hq.2 htime hlen
    | other shared srv => exact ih _ xs (h.other hq.1) hq.2 htime hlen
    | write p =>
      have hlt : xs.length < maxSectors := by simp only [slices, List.length_cons] at hlen; omega
      have hrest := ih _ (xs ++ [sectorOf p]) (h.write hw hnow hlt p) hq.2 htime
        (by simp only [slices, List.length_cons] at hlen; simp only [List.length_append, List.length_singleton]; omega)
      rw [List.append_assoc, List.singleton_append] at hrest
      exact hrest

/-- The header of the name, if there is one, agrees with its blob. -/
def Described (P : Prims H K G) [DecidableEq H] (s : Shared H K G) (name : Name) : Prop :=
  ∀ header, s.db.headers name = some header →
    ∃ hashes, (serialHash P (s.blobs name) (Tx.new name) 0 header.sectorSize).1 = .ok hashes ∧
      header.sectorTipHash = tip hashes

variable [DecidableEq H]

/-- A checkout's tip is the end of the chain over the sectors it starts from. -/
theorem checkedOut_kept (hz : Blob.NoZeroHash P) (now : Time) {s : Shared H K G} (req : CheckoutReq)
    (hd : Described P s req.name) :
    (checkedOut P now s.db req).2.1 = UInt16.ofNat (kept P now s req).length ∧
      (checkedOut P now s.db req).2.2 = chain (serialHashSector P) 0 (kept P now s req) := by
  unfold checkedOut kept
  split
  · exact ⟨rfl, rfl⟩
  · refine ⟨by rw [Blob.File.length_sectors, UInt16.ofNat_toNat], ?_⟩
    unfold base
    cases hh : s.db.headers req.name with
    | none => rfl
    | some header =>
      obtain ⟨hashes, hok, htip⟩ := hd header hh
      obtain ⟨hle, rfl⟩ := (Blob.serialHash_new_ok_iff P).mp hok
      simp only [htip]
      exact Blob.tip_hashesOf P hz (by rwa [Blob.File.length_sectors])

omit [DecidableEq H] in
theorem open_ok {now : Time} {s : Shared H K G} {srv srv' : Server} {name : Name} {resetEpoch : Bool}
    (h : (BlobWriter.new name resetEpoch).open_ P now s srv = (.ok w, srv')) :
    w = ⟨name, resetEpoch, (checkedOut P now s.db ⟨name, resetEpoch⟩).1, (checkedOut P now s.db ⟨name, resetEpoch⟩).2.1,
        (checkedOut P now s.db ⟨name, resetEpoch⟩).2.2, srv.lastTxID + 1, true, false⟩ ∧
      srv'.txStore (srv.lastTxID + 1) = some
        ⟨⟨name, Blob.File.zero, (checkedOut P now s.db ⟨name, resetEpoch⟩).2.1, resetEpoch, false, false⟩,
          now + transactionExpiry * millisecond⟩ := by
  simp only [BlobWriter.open_, BlobWriter.new, Bool.false_eq_true, if_false] at h
  by_cases hacc : Accepts P now s.db ⟨name, resetEpoch⟩
  · rw [checkout_accepted srv hacc] at h
    obtain ⟨h1, rfl⟩ := Prod.mk.inj h
    refine ⟨(Except.ok.inj h1).symm, ?_⟩
    simp only [Cache.set, Function.update_self]
    rfl
  · obtain ⟨e, hc⟩ := checkout_refused (s := s) srv hacc
    rw [hc] at h
    cases (Prod.mk.inj h).1

theorem open_holds (hz : Blob.NoZeroHash P) {now : Time} {s : Shared H K G} {srv srv' : Server} {name : Name}
    {resetEpoch : Bool} (hd : Described P s name) (hinfo : s.db.nameInfo name = some info)
    (h : (BlobWriter.new name resetEpoch).open_ P now s srv = (.ok w, srv')) :
    Holds P w (now + transactionExpiry * millisecond) info ⟨now, s, srv', w⟩ (kept P now s ⟨name, resetEpoch⟩) := by
  obtain ⟨hw, htx⟩ := open_ok h
  obtain ⟨hsz, htip⟩ := checkedOut_kept hz now ⟨name, resetEpoch⟩ hd
  rw [hsz, htip] at hw
  rw [hsz] at htx
  subst hw
  refine ⟨rfl, ⟨_, htx, ⟨rfl, rfl⟩, rfl, rfl, ?_⟩, hinfo⟩
  unfold Tx.view kept
  cases resetEpoch with
  | true => rfl
  | false => simp only [Bool.false_eq_true, if_false, Blob.File.length_sectors]

/-- The writer's commit: the server's hashes end in the writer's tip, every check passes, and
    the store holds the sectors `xs`. -/
theorem Holds.commit (hz : Blob.NoZeroHash P) (h : Holds P w expiry info s xs)
    (hw : w.opened = true ∧ w.committed = false) (htime : s.clock ≤ expiry) (hlen : xs.length ≤ maxSectors)
    (hlock : s.shared.locks w.name = ⟨0, 0⟩) (hcount : s.shared.db.TakesHeader w.name) {sign : H → Option G} {sig : G}
    (hsig : sign (sealHash P w.name w.epochHeight (UInt16.ofNat xs.length) (chain (serialHashSector P) 0 xs) 0) = some sig)
    (hver : P.verifySigPub info.publicKey sig
      (sealHash P w.name w.epochHeight (UInt16.ofNat xs.length) (chain (serialHashSector P) 0 xs) 0) = true)
    (broadcast : Bool) :
    ∃ shared srv, s.writer.commit P s.clock s.shared s.srv sign broadcast =
        (.ok (chain (serialHashSector P) 0 xs, { s.writer with committed := true }), shared, srv) ∧
      shared.db = s.shared.db.setHeader
        ⟨w.name, w.epochHeight, UInt16.ofNat xs.length, chain (serialHashSector P) 0 xs, sig, 0, s.clock⟩ (hashesOf P xs) ∧
      (shared.blobs w.name).sectors xs.length = xs := by
  obtain ⟨tx, he, hlive, hname, -, hview⟩ := h.tx
  have hget : s.srv.txStore.get s.clock w.txID = (some tx, s.srv.txStore) := Cache.get_of_le he htime
  have hn := toNat_size hlen
  rw [h.writer]
  generalize hr : (w.after P xs).commitReq sig broadcast = req
  have hreq : req = ⟨w.txID, w.epochHeight.toUInt32, (UInt16.ofNat xs.length).toUInt32,
      some (chain (serialHashSector P) 0 xs), sig, broadcast⟩ := hr.symm
  have hhashes : committedHashes P s.shared req tx = hashesOf P xs := by
    simp only [committedHashes, hreq, hname, UInt16.toUInt16_toUInt32, hn, hview]
  have htip : tip (committedHashes P s.shared req tx) = chain (serialHashSector P) 0 xs := by
    rw [hhashes, Blob.tip_hashesOf P hz hlen]
  have hheader : committedHeader P s.clock s.shared req tx =
      ⟨w.name, w.epochHeight, UInt16.ofNat xs.length, chain (serialHashSector P) 0 xs, sig, 0, s.clock⟩ := by
    unfold committedHeader
    rw [htip, hname, hreq]
    simp only [UInt16.toUInt16_toUInt32]
  obtain ⟨hshared, hres⟩ := commit_accepted P s.clock s.shared s.srv req hlive
    (by rw [hreq]; exact hget) (by rw [hname]; exact h.info)
    (by simp only [hreq, UInt16.toUInt16_toUInt32, hn]; exact hlen) (by rw [htip, hreq])
    (by rw [htip, hname, hreq]; simpa only [UInt16.toUInt16_toUInt32] using hver) (by rw [hname]; exact hlock)
    (by rw [hname]; exact hcount)
  rw [← hr] at hres
  refine ⟨_, _, BlobWriter.commit_ok hw hsig hres, ?_, ?_⟩
  · rw [hr, hshared, hhashes, hheader]
  · rw [hr, hshared, hname]
    simp only [Function.update_self]
    exact hview

/-! ### What a commit needs -/

omit [Zero H] [DecidableEq H] in
/-- A write leaves the writer's name and ID, and reaches the server at most once. -/
theorem writeSector_writer (P : Prims H K G) (now : Time) (s : Shared H K G) (srv : Server) (w : BlobWriter H) (p : Bytes) :
    (∀ w', (w.writeSector P now s srv p).1 = .ok w' → w'.name = w.name ∧ w'.txID = w.txID) ∧
      ((w.writeSector P now s srv p).2 = srv ∨ (w.writeSector P now s srv p).2 = (Rpc.writeSector now s srv w.txID p).2) := by
  unfold BlobWriter.writeSector
  split
  · exact ⟨nofun, .inl rfl⟩
  split
  · exact ⟨nofun, .inl rfl⟩
  rcases Rpc.writeSector now s srv w.txID p with ⟨f | (_ | e), srv'⟩
  · exact ⟨nofun, .inr rfl⟩
  · refine ⟨fun w' hw' => ?_, .inr rfl⟩
    obtain rfl := Except.ok.inj hw'
    exact ⟨rfl, rfl⟩
  · exact ⟨nofun, .inr rfl⟩

/-- The writer's transaction, if it is still there, is for its name and expires when it was to. -/
structure Filed (w : BlobWriter H) (expiry : Int) (s : Session H K G) : Prop where
  name : s.writer.name = w.name
  txID : s.writer.txID = w.txID
  entry : ∀ entry, s.srv.txStore w.txID = some entry → entry.val.name = w.name ∧ entry.expiry = expiry

omit [Zero H] [DecidableEq H] in
theorem Filed.step (h : Filed w expiry s) {e : Event H K G} (hq : Quiet s e) : Filed w expiry (step P s e) := by
  cases e with
  | tick now => exact ⟨h.name, h.txID, h.entry⟩
  | other shared srv =>
    obtain ⟨-, -, htx⟩ := hq
    rw [h.txID] at htx
    exact ⟨h.name, h.txID, fun entry he => h.entry entry (htx.symm.trans he)⟩
  | write p =>
    obtain ⟨hwriter, hsrv⟩ := writeSector_writer P s.clock s.shared s.srv s.writer p
    have hentry : ∀ entry, (s.writer.writeSector P s.clock s.shared s.srv p).2.txStore w.txID = some entry →
        entry.val.name = w.name ∧ entry.expiry = expiry := by
      intro entry he
      rcases hsrv with hsame | hwrite
      · rw [hsame] at he
        exact h.entry entry he
      · rw [hwrite] at he
        obtain ⟨tx, hold, hval⟩ := (writeSector_follows s.clock s.shared s.srv s.writer.txID p).2 _ _ he
        obtain ⟨hname, hexpiry⟩ := h.entry _ hold
        refine ⟨?_, hexpiry⟩
        rcases hval with hval | ⟨-, hval⟩
        · rw [hval]
          exact hname
        · rw [hval, written_name]
          exact hname
    simp only [Session.step]
    split
    · rename_i hr
      rw [hr] at hentry
      exact ⟨h.name, h.txID, hentry⟩
    · rename_i w' srv' hr
      rw [hr] at hentry hwriter
      obtain ⟨hname, hid⟩ := hwriter w' rfl
      exact ⟨hname.trans h.name, hid.trans h.txID, hentry⟩

omit [Zero H] [DecidableEq H] in
theorem Filed.run (h : Filed w expiry s) {es : List (Event H K G)} (hq : Machine.Along (Session.step P) Quiet s es) :
    Filed w expiry (Machine.run (Session.step P) s es) :=
  Machine.run_inv (Filed w expiry) (fun _ _ h hq => h.step hq) es s h hq

/-- A commit that succeeds is in time, and found the name free and its header countable. -/
theorem Filed.commit (h : Filed w expiry s) {sign : H → Option G} {broadcast : Bool} {res : H × BlobWriter H}
    {out : Shared H K G × Server} (hc : s.writer.commit P s.clock s.shared s.srv sign broadcast = (.ok res, out)) :
    s.clock ≤ expiry ∧ s.shared.locks w.name = ⟨0, 0⟩ ∧ s.shared.db.TakesHeader w.name := by
  unfold BlobWriter.commit at hc
  split at hc
  · cases hc
  split at hc
  · cases hc
  split at hc
  · cases hc
  rename_i sig hsig
  simp only at hc
  split at hc
  · cases hc
  rename_i u hres
  rcases commit_cases P s.clock s.shared s.srv (s.writer.commitReq sig broadcast) with
    ⟨-, -, hnot⟩ | ⟨tx, txs, info, hashes, tx', hget, -, -, -, -, heq⟩
  · exact absurd hres (hnot u)
  rw [heq] at hres
  have hid : (s.writer.commitReq sig broadcast).txID = w.txID := h.txID
  rw [hid] at hget
  obtain ⟨-, expiry', hfound⟩ := Cache.get_some hget
  obtain ⟨hname, hexpiry⟩ := h.entry _ hfound
  obtain ⟨entry, hfound', hlive⟩ := Cache.get_live hget
  have hname : tx.name = w.name := hname
  obtain ⟨hlock, hcount⟩ := commitLocked_ok hres
  rw [hname] at hlock hcount
  rw [Option.some.inj (hfound'.symm.trans hfound)] at hlive
  exact ⟨Int.le_trans hlive (Int.le_of_eq hexpiry), hlock, hcount⟩

/-- The writer's size and tip are those of the sectors `xs`; its commit succeeds and stores them. -/
structure Commits (P : Prims H K G) (sign : H → Option G) (broadcast : Bool) (name : Name) (epochHeight : UInt16)
    (fin : Session H K G) (xs : List Sector) : Prop where
  epoch : fin.writer.epochHeight = epochHeight
  size : fin.writer.sectorSize.toNat = xs.length
  tip : fin.writer.sectorTipHash = tip (hashesOf P xs)
  stored : ∃ sig shared srv, fin.writer.commit P fin.clock fin.shared fin.srv sign broadcast =
      (.ok (Blob.tip (hashesOf P xs), { fin.writer with committed := true }), shared, srv) ∧
    shared.db.headers name = some
      ⟨name, fin.writer.epochHeight, fin.writer.sectorSize, Blob.tip (hashesOf P xs), sig, 0, fin.clock⟩ ∧
    shared.db.sectorHashes name = some (hashesOf P xs) ∧ (shared.blobs name).sectors xs.length = xs

/-- From a name whose header, if any, agrees with its blob, after a checkout and any writes that
    fit, among quiet steps: the writer's commit succeeds and stores the old sectors, none after a
    reset, followed by the slices, exactly if it is in time, finds the name free, and the header
    can be counted. -/
theorem writer_commits_iff (P : Prims H K G) (hz : Blob.NoZeroHash P) (now : Time) (s : Shared H K G) (srv srv' : Server)
    (name : Name) (resetEpoch : Bool) (info : NameInfo K) (sign : H → Option G)
    (hsign : ∀ h, ∃ sig, sign h = some sig ∧ P.verifySigPub info.publicKey sig h = true)
    (hinfo : s.db.nameInfo name = some info) (hd : Described P s name) (w : BlobWriter H)
    (hopen : (BlobWriter.new name resetEpoch).open_ P now s srv = (.ok w, srv')) (es : List (Event H K G))
    (hquiet : Machine.Along (step P) Quiet ⟨now, s, srv', w⟩ es)
    (hsize : w.sectorSize.toNat + (slices es).length ≤ maxSectors) (broadcast : Bool) :
    let fin := Machine.run (step P) ⟨now, s, srv', w⟩ es
    Commits P sign broadcast name (checkedOut P now s.db ⟨name, resetEpoch⟩).1 fin
        (kept P now s ⟨name, resetEpoch⟩ ++ (slices es).map sectorOf) ↔
      fin.clock ≤ now + transactionExpiry * millisecond ∧ fin.shared.locks name = ⟨0, 0⟩ ∧ fin.shared.db.TakesHeader name := by
  intro fin
  obtain ⟨hw, htx⟩ := open_ok hopen
  have hfiled : Filed w (now + transactionExpiry * millisecond) fin := by
    refine Filed.run ⟨rfl, rfl, fun entry he => ?_⟩ hquiet
    rw [hw] at he ⊢
    rw [← Option.some.inj (htx.symm.trans he)]
    exact ⟨rfl, rfl⟩
  constructor
  · intro hcommits
    obtain ⟨sig, shared, srv'', hcommit, -⟩ := hcommits.stored
    have hneeds := hfiled.commit hcommit
    rw [show w.name = name by rw [hw]] at hneeds
    exact hneeds
  rintro ⟨htime, hlock, hcount⟩
  have hopened : w.opened = true ∧ w.committed = false := by rw [hw]; exact ⟨rfl, rfl⟩
  have hname : w.name = name := by rw [hw]
  have hstart := open_holds hz hd hinfo hopen
  have hkept : w.sectorSize.toNat = (kept P now s ⟨name, resetEpoch⟩).length := by
    have hsz := congrArg BlobWriter.sectorSize hw
    rw [hsz]
    unfold checkedOut kept
    split
    · rfl
    · rw [Blob.File.length_sectors]
  rw [hkept] at hsize
  have hholds := run_holds hopened es _ _ hstart hquiet htime hsize
  have hlen : (kept P now s ⟨name, resetEpoch⟩ ++ (slices es).map sectorOf).length ≤ maxSectors := by
    rw [List.length_append, List.length_map]
    exact hsize
  generalize kept P now s ⟨name, resetEpoch⟩ ++ (slices es).map sectorOf = xs at hholds hlen ⊢
  have htip := Blob.tip_hashesOf P hz hlen
  obtain ⟨sig, hsig, hver⟩ :=
    hsign (sealHash P w.name w.epochHeight (UInt16.ofNat xs.length) (chain (serialHashSector P) 0 xs) 0)
  obtain ⟨shared, srv'', hcommit, hdb, hblob⟩ :=
    hholds.commit hz hopened htime hlen (by rw [hname]; exact hlock) (by rw [hname]; exact hcount) hsig hver broadcast
  rw [hname] at hdb hblob
  have hsz : fin.writer.sectorSize = UInt16.ofNat xs.length := by rw [hholds.writer]; rfl
  have hepoch : fin.writer.epochHeight = w.epochHeight := by rw [hholds.writer]; rfl
  refine ⟨by rw [hepoch, hw], ?_, ?_, sig, shared, srv'', by rw [htip]; exact hcommit, ?_, ?_, hblob⟩
  · rw [hsz, toNat_size hlen]
  · rw [htip]
    exact congrArg BlobWriter.sectorTipHash hholds.writer
  · rw [hdb, Store.DB.setHeader_headers, Function.update_self, htip, hsz, hepoch]
  · rw [hdb, Store.DB.setHeader_sectorHashes, Function.update_self]

end Session

end

namespace Session

open Symbolic (prims site fresh weeks fill tipOf Sym Sig)

/-- One sector of epoch 6, with its header. -/
def stored : Shared Sym Nat Sig :=
  { fresh with
    db := fresh.db.setHeader ⟨site, 6, 1, tipOf [fill 1], Symbolic.sign 6 1 (tipOf [fill 1]), 0, weeks 6⟩
      (hashesOf prims [fill 1])
    blobs := fun _ => Blob.File.zero.writeSector 0 (fill 1) }

theorem stored_described : Described prims stored site := by
  intro header hh
  obtain rfl : _ = header := Option.some.inj hh
  refine ⟨_, (Blob.serialHash_new_ok_iff prims).mpr ⟨by decide, rfl⟩, ?_⟩
  rw [Blob.tip_hashesOf prims Symbolic.noZeroHash (by rw [Blob.File.length_sectors]; decide)]
  rfl

/-- The writer and the server after `Open` on it. -/
def opener : BlobWriter Sym := ⟨site, false, 6, 1, tipOf [fill 1], 1, true, false⟩

def opening : Server :=
  ⟨1, Cache.new.set (weeks 6) 1 ⟨site, Blob.File.zero, 1, false, false, false⟩ transactionExpiry⟩

theorem opener_opens : (BlobWriter.new site false).open_ prims (weeks 6) stored Server.new = (.ok opener, opening) := by
  have hacc : Accepts prims (weeks 6) stored.db ⟨site, false⟩ := by decide +kernel
  simp only [BlobWriter.open_, BlobWriter.new, Bool.false_eq_true, if_false]
  rw [checkout_accepted Server.new hacc]
  rfl

/-- A slice of one byte and one of more than a sector. -/
def shortAndLong : List (Event Sym Nat Sig) :=
  [.write [7], .tick (weeks 6 + 1), .write (List.replicate 300 9)]

def threeSectors : Session Sym Nat Sig := Machine.run (step prims) ⟨weeks 6, stored, opening, opener⟩ shortAndLong

theorem short_and_long_slices_are_stored :
    Commits prims (fun h => some ⟨1, h⟩) true site 6 threeSectors [fill 1, sectorOf [7], sectorOf (List.replicate 300 9)] := by
  have hcommits := (writer_commits_iff prims Symbolic.noZeroHash (weeks 6) stored Server.new opening site false ⟨site, 1, 0⟩
    (fun h => some ⟨1, h⟩) (fun h => ⟨_, rfl, by simp [prims]⟩) rfl stored_described opener opener_opens shortAndLong
    ⟨trivial, trivial, trivial, trivial⟩ (by decide) true).mpr (by decide +kernel)
  have hxs : kept prims (weeks 6) stored ⟨site, false⟩ ++ (slices shortAndLong).map sectorOf =
      [fill 1, sectorOf [7], sectorOf (List.replicate 300 9)] := by decide +kernel
  rw [hxs] at hcommits
  exact hcommits

/-- After the checkout: a write and 16 seconds; or a peer that reads the name, and a write. -/
def late : Session Sym Nat Sig :=
  Machine.run (step prims) ⟨weeks 6, stored, opening, opener⟩ [.write [7], .tick (weeks 6 + 16 * second)]

def whileRead : Session Sym Nat Sig :=
  Machine.run (step prims) ⟨weeks 6, stored, opening, opener⟩
    [.other { stored with locks := Function.update stored.locks site ⟨1, 0⟩ } opening, .write [7]]

/-- The server panics, and the commit of a name that is read is refused as busy. -/
theorem a_late_commit_panics_and_a_read_name_is_busy :
    (late.writer.commit prims late.clock late.shared late.srv (fun h => some ⟨1, h⟩) true).1 = .error .panic ∧
    (whileRead.writer.commit prims whileRead.clock whileRead.shared whileRead.srv (fun h => some ⟨1, h⟩) true).1 =
      .error (.err (.rpc .busy)) ∧
    Machine.Along (step prims) Quiet (⟨weeks 6, stored, opening, opener⟩ : Session Sym Nat Sig)
      [.other { stored with locks := Function.update stored.locks site ⟨1, 0⟩ } opening, .write [7]] :=
  ⟨by decide +kernel, by decide +kernel, ⟨rfl, rfl, rfl⟩, trivial, trivial⟩

end Session

end Fnd.Rpc

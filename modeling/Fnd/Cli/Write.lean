/-
  Fnd.Cli.Write — `fnd-cli blob write` (`cmd/fnd-cli/cmd/blob/write.go`), from its data to the blob.

  The command opens a writer, reads its data into one sector again and again, at most 4096 times,
  sends the sector after each read, and commits. It does not look at how much a read delivered,
  nor at what `WriteSector` returned. Other things may happen to the node between its calls.

  `argument_is_stored`, of data that is given as an argument: the blob holds the old sectors (none
  after a reset) and the data in sectors, and the last of these, if the data ends within it, ends
  with the bytes of the one before (zeros, if there is none). Data beyond 4096 sectors is dropped
  without a word. If old and new sectors do not fit the blob together, the commit is refused and
  nothing changes.

  Data from standard input may come in any pieces; each makes a sector (`write_commits` is for
  any plan of reads).
-/

import Fnd.Lib.Refill
import Fnd.Rpc.BlobWriter

namespace Fnd.Cli

open Blob (Sector Tx zeroSector sectorBytes maxSectors serialHash serialHashSector sealHash tip hashesOf)
open HashChain (chain)
open Protocol (Shared)
open Refill (Plan Source block before buffer whole)
open Rpc (BlobWriter Session Server kept checkedOut transactionExpiry)
open Rpc.Session (Event Holds Quiet Described slices sectorOf)
open Store (NameInfo)
open Util (Cache millisecond)

/-! ## The loop -/

/-- The loop of `writeCmd` with so many rounds to go: what it sends. A read that reports the end
    ends it. -/
def sent (plan : Plan UInt8) : Nat → Source UInt8 → Bytes → List Bytes
  | 0, _, _ => []
  | k + 1, rd, sector =>
    if rd.ended plan sector.length then []
    else rd.fill plan sector :: sent plan k (rd.next plan sector.length) (rd.fill plan sector)

/-- All of it, for this data. -/
def sectorsSent (plan : Plan UInt8) (data : Bytes) : List Bytes := sent plan maxSectors ⟨data, 0⟩ zeroSector.1

theorem length_sent_le (plan : Plan UInt8) :
    ∀ (k : Nat) (rd : Source UInt8) (sector : Bytes), (sent plan k rd sector).length ≤ k := by
  intro k
  induction k with
  | zero => intro rd sector; exact Nat.le_refl 0
  | succ k ih =>
    intro rd sector
    rw [sent]
    split
    · exact Nat.zero_le _
    · exact Nat.succ_le_succ (ih _ _)

/-- How many sectors data has, the last one perhaps not full. -/
def sectorCount (data : Bytes) : Nat := (data.length + (sectorBytes - 1)) / sectorBytes

/-- The `i`-th sector of the data; what it lacks is taken from the one before. -/
def padded (data : Bytes) (i : Nat) : Bytes :=
  block sectorBytes data i ++ (before zeroSector.1 data i).drop (block sectorBytes data i).length

theorem lt_sectorCount {data : Bytes} {i : Nat} : i < sectorCount data ↔ sectorBytes * i < data.length := by
  rw [sectorCount, Nat.lt_div_iff_mul_lt (by decide)]
  simp only [sectorBytes]
  omega

theorem buffer_padded {data : Bytes} {i : Nat} (h : i < sectorCount data) :
    buffer whole ⟨data, 0⟩ zeroSector.1 (i + 1) = padded data i := by
  have hlen : (buffer whole ⟨data, 0⟩ zeroSector.1 i).length = sectorBytes := (Refill.length_buffer _ _ _ _).trans zeroSector.2
  have hbefore : buffer whole ⟨data, 0⟩ zeroSector.1 i = before zeroSector.1 data i := by
    cases i with
    | zero => rfl
    | succ i => exact Refill.buffer_whole data zeroSector.1 (by rw [zeroSector.2]; exact Nat.le_of_lt (lt_sectorCount.mp h))
  have hfill := Refill.fill_whole data (buffer whole ⟨data, 0⟩ zeroSector.1 i) i
  rw [hlen] at hfill
  rw [padded, ← hbefore, buffer, zeroSector.2]
  exact hfill

theorem sent_whole (data : Bytes) : ∀ k i,
    sent whole k (Source.after whole ⟨data, 0⟩ sectorBytes i) (buffer whole ⟨data, 0⟩ zeroSector.1 i) =
    (List.range' i (min k (sectorCount data - i))).map (padded data) := by
  intro k
  induction k with
  | zero =>
    intro i
    rw [Nat.zero_min]
    rfl
  | succ k ih =>
    intro i
    have hlen : (buffer whole ⟨data, 0⟩ zeroSector.1 i).length = sectorBytes := (Refill.length_buffer _ _ _ _).trans zeroSector.2
    rw [sent, hlen]
    by_cases h : i < sectorCount data
    · have hnot : ¬ (Source.after whole ⟨data, 0⟩ sectorBytes i).ended whole sectorBytes = true := by
        rw [Refill.ended_whole]
        exact Nat.not_le.mpr (lt_sectorCount.mp h)
      have hfill : (Source.after whole ⟨data, 0⟩ sectorBytes i).fill whole (buffer whole ⟨data, 0⟩ zeroSector.1 i) =
          buffer whole ⟨data, 0⟩ zeroSector.1 (i + 1) := by
        rw [buffer, zeroSector.2]
      have hmin : min (k + 1) (sectorCount data - i) = min k (sectorCount data - (i + 1)) + 1 := by omega
      rw [if_neg hnot, hfill, hmin, List.range'_succ, List.map_cons, buffer_padded h]
      exact congrArg (padded data i :: ·) ((buffer_padded h) ▸ ih (i + 1))
    · have hended : (Source.after whole ⟨data, 0⟩ sectorBytes i).ended whole sectorBytes = true :=
        (Refill.ended_whole _ _ _).mpr (Nat.not_lt.mp fun hlt => h (lt_sectorCount.mpr hlt))
      have hmin : min (k + 1) (sectorCount data - i) = 0 := by omega
      rw [if_pos hended, hmin]
      rfl

theorem sectorsSent_whole (data : Bytes) :
    sectorsSent whole data = (List.range (min maxSectors (sectorCount data))).map (padded data) := by
  rw [List.range_eq_range']
  exact sent_whole data maxSectors 0

/-! ## More than the blob holds -/

section

variable {H K G : Type} [Zero H] {P : Prims H K G} {w : BlobWriter H} {expiry : Int} {info : NameInfo K} {s : Session H K G}
  {n : Nat}

/-- The writer has counted `n` sectors, and its transaction is there. -/
structure Counts (w : BlobWriter H) (expiry : Int) (info : NameInfo K) (s : Session H K G) (n : Nat) : Prop where
  writer : ∃ tip, s.writer = { w with sectorSize := UInt16.ofNat n, sectorTipHash := tip }
  tx : ∃ tx, s.srv.txStore w.txID = some ⟨tx, expiry⟩ ∧ tx.Live ∧ tx.name = w.name
  info : s.shared.db.nameInfo w.name = some info

omit [Zero H] in
theorem Counts.step (h : Counts w expiry info s n) (hw : w.opened = true ∧ w.committed = false) (htime : s.clock ≤ expiry)
    {e : Event H K G} (hquiet : Quiet s e) : Counts w expiry info (Session.step P s e) (n + (slices [e]).length) := by
  cases e with
  | tick now => exact ⟨h.writer, h.tx, h.info⟩
  | other shared srv =>
    obtain ⟨tip, hwriter⟩ := h.writer
    obtain ⟨-, hinfo, htx⟩ := hquiet
    rw [hwriter] at hinfo htx
    obtain ⟨tx, he, hlive, hn⟩ := h.tx
    exact ⟨⟨tip, hwriter⟩, ⟨tx, htx.trans he, hlive, hn⟩, hinfo.trans h.info⟩
  | write p =>
    obtain ⟨tip, hwriter⟩ := h.writer
    obtain ⟨tx, he, hlive, hname⟩ := h.tx
    have hget : s.srv.txStore.get s.clock w.txID = (some tx, s.srv.txStore) := Cache.get_of_le he htime
    obtain ⟨tx', hserver, hlive', hname', -, -⟩ := Rpc.writeSector_served s.shared p hlive hget
    have hnext : UInt16.ofNat n + 1 = UInt16.ofNat (n + 1) := by rw [UInt16.ofNat_add]; rfl
    have hstep : Session.step P s (.write p) = { s with
        srv := { s.srv with txStore := s.srv.txStore.assign w.txID tx' }
        writer := { w with sectorSize := UInt16.ofNat (n + 1)
                           sectorTipHash := serialHashSector P (zeroSector.copy p) tip } } := by
      simp only [Session.step, BlobWriter.writeSector, hwriter, hw.1, hw.2, hserver, hnext, Bool.not_true, Bool.false_eq_true,
        if_false]
    rw [hstep]
    refine ⟨⟨_, rfl⟩, ⟨tx', ?_, hlive', hname'.trans hname⟩, h.info⟩
    simp only [Cache.assign, he, Function.update_self]

omit [Zero H] in
theorem Counts.run (hw : w.opened = true ∧ w.committed = false) : ∀ (es : List (Event H K G)) (s : Session H K G) (n : Nat),
    Counts w expiry info s n → Machine.Along (Session.step P) Quiet s es → (Machine.run (Session.step P) s es).clock ≤ expiry →
    Counts w expiry info (Machine.run (Session.step P) s es) (n + (slices es).length) := by
  intro es
  induction es with
  | nil => intro s n h _ _; exact h
  | cons e es ih =>
    intro s n h hquiet htime
    have hnow : s.clock ≤ expiry :=
      Int.le_trans (Int.le_trans (Session.clock_le_step P s e) (Session.clock_le_run P es _)) htime
    have hslices : (slices (e :: es)).length = (slices [e]).length + (slices es).length := by
      cases e <;> simp [slices, Nat.add_comm]
    rw [hslices, ← Nat.add_assoc]
    exact ih _ _ (h.step hw hnow hquiet.1) hquiet.2 htime

/-- Counting further than the blob reaches, the writer cannot commit. -/
theorem Counts.commit [DecidableEq H] (h : Counts w expiry info s n) (hw : w.opened = true ∧ w.committed = false)
    (htime : s.clock ≤ expiry)
    (hn : maxSectors < n) (hlt : n < UInt16.size) {sign : H → Option G} (hsign : ∀ h, (sign h).isSome) (broadcast : Bool) :
    ∃ f srv, s.writer.commit P s.clock s.shared s.srv sign broadcast = (.error f, s.shared, srv) := by
  obtain ⟨tx, he, hlive, hname⟩ := h.tx
  have hget : s.srv.txStore.get s.clock w.txID = (some tx, s.srv.txStore) := Cache.get_of_le he htime
  obtain ⟨tip, hwriter⟩ := h.writer
  have hnat : (UInt16.ofNat n).toNat = n := UInt16.toNat_ofNat_of_lt' hlt
  obtain ⟨sig, hsig⟩ := Option.isSome_iff_exists.mp (hsign (sealHash P w.name w.epochHeight (UInt16.ofNat n) tip 0))
  have hhash := Blob.serialHash_eq P hlive (s.shared.blobs tx.name) (UInt16.ofNat n)
  rw [hnat, if_neg (Nat.not_le.mpr hn)] at hhash
  have hinfo : s.shared.db.nameInfo tx.name = some info := by rw [hname]; exact h.info
  simp only [BlobWriter.commit, hwriter, hw.1, hw.2, hsig, Rpc.commit, BlobWriter.commitReq, hget, hinfo,
    UInt16.toUInt16_toUInt32, hhash,
    Bool.not_true, Bool.false_eq_true, if_false]
  exact ⟨_, _, rfl⟩

/-! ## The command -/

variable [DecidableEq H]

/-- The command has opened its writer and sent these slices, among quiet steps of others, in time,
    and is about to commit. -/
structure Sent (P : Prims H K G) (now : Time) (s : Shared H K G) (name : Name) (resetEpoch : Bool) (info : NameInfo K)
    (sends : List Bytes) (fin : Session H K G) : Prop where
  named : s.db.nameInfo name = some info
  described : Described P s name
  ran : ∃ srv srv' w es, (BlobWriter.new name resetEpoch).open_ P now s srv = (.ok w, srv') ∧ slices es = sends ∧
    Machine.Along (Session.step P) Quiet ⟨now, s, srv', w⟩ es ∧ fin = Machine.run (Session.step P) ⟨now, s, srv', w⟩ es
  inTime : fin.clock ≤ now + transactionExpiry * millisecond
  unlocked : fin.shared.locks name = ⟨0, 0⟩
  counted : fin.shared.db.TakesHeader name

/-- The commit stores the sectors and their header, or it is refused and nothing changes. -/
structure Outcome (P : Prims H K G) (sign : H → Option G) (broadcast : Bool) (name : Name) (fin : Session H K G)
    (xs : List Sector) : Prop where
  stored : xs.length ≤ maxSectors → ∃ sig shared srv, fin.writer.commit P fin.clock fin.shared fin.srv sign broadcast =
      (.ok (tip (hashesOf P xs), { fin.writer with committed := true }), shared, srv) ∧
    shared.db.headers name = some ⟨name, fin.writer.epochHeight, UInt16.ofNat xs.length, tip (hashesOf P xs), sig, 0, fin.clock⟩ ∧
    (shared.blobs name).sectors xs.length = xs
  refused : maxSectors < xs.length →
    ∃ f srv, fin.writer.commit P fin.clock fin.shared fin.srv sign broadcast = (.error f, fin.shared, srv)

omit [DecidableEq H] in
theorem length_kept_le {now : Time} {s : Shared H K G} {srv srv' : Server} {name : Name} {resetEpoch : Bool}
    (h : (BlobWriter.new name resetEpoch).open_ P now s srv = (.ok w, srv')) :
    (kept P now s ⟨name, resetEpoch⟩).length ≤ maxSectors := by
  by_cases hacc : Rpc.Accepts P now s.db ⟨name, resetEpoch⟩
  · unfold kept
    unfold Rpc.Accepts at hacc
    cases resetEpoch with
    | true => exact Nat.zero_le _
    | false =>
      simp only [Bool.false_eq_true, if_false, Blob.File.length_sectors] at hacc ⊢
      exact hacc
  · obtain ⟨e, hrefused⟩ := Rpc.checkout_refused (s := s) srv hacc
    simp only [BlobWriter.open_, BlobWriter.new, Bool.false_eq_true, if_false] at h
    rw [hrefused] at h
    cases (Prod.mk.inj h).1

theorem write_commits (hz : Blob.NoZeroHash P) {sign : H → Option G}
    (hsign : ∀ h, ∃ sig, sign h = some sig ∧ P.verifySigPub info.publicKey sig h = true) {now : Time} {s : Shared H K G}
    {name : Name} {resetEpoch : Bool} {plan : Plan UInt8} {data : Bytes} {fin : Session H K G}
    (h : Sent P now s name resetEpoch info (sectorsSent plan data) fin) (broadcast : Bool) :
    Outcome P sign broadcast name fin (kept P now s ⟨name, resetEpoch⟩ ++ (sectorsSent plan data).map sectorOf) := by
  obtain ⟨srv, srv', w, es, hopen, hslices, hquiet, rfl⟩ := h.ran
  obtain ⟨hw, -⟩ := Session.open_ok hopen
  have hopened : w.opened = true ∧ w.committed = false := by rw [hw]; exact ⟨rfl, rfl⟩
  have hname : w.name = name := by rw [hw]
  have hstart := Session.open_holds hz h.described h.named hopen
  have hxs : (kept P now s ⟨name, resetEpoch⟩ ++ (sectorsSent plan data).map sectorOf).length =
      (kept P now s ⟨name, resetEpoch⟩).length + (slices es).length := by
    rw [hslices, List.length_append, List.length_map]
  refine ⟨fun hfits => ?_, fun hlt => ?_⟩
  · rw [hxs] at hfits
    have hholds := Session.run_holds hopened es _ _ hstart hquiet h.inTime hfits
    rw [hslices] at hholds
    generalize kept P now s ⟨name, resetEpoch⟩ ++ (sectorsSent plan data).map sectorOf = xs at hholds hxs ⊢
    have hlen : xs.length ≤ maxSectors := hxs ▸ hfits
    have htip := Blob.tip_hashesOf P hz hlen
    obtain ⟨sig, hsig, hver⟩ :=
      hsign (sealHash P w.name w.epochHeight (UInt16.ofNat xs.length) (chain (serialHashSector P) 0 xs) 0)
    obtain ⟨shared, srv'', hcommit, hdb, hblob⟩ :=
      hholds.commit hz hopened h.inTime hlen (by rw [hname]; exact h.unlocked)
        (by rw [hname]; exact h.counted) hsig hver broadcast
    rw [hname] at hdb hblob
    refine ⟨sig, shared, srv'', by rw [htip]; exact hcommit, ?_, hblob⟩
    rw [hdb, Store.DB.setHeader_headers, Function.update_self, htip, hholds.writer]
    rfl
  · rw [hxs] at hlt
    have hcounts : Counts w (now + transactionExpiry * millisecond) info ⟨now, s, srv', w⟩
      (kept P now s ⟨name, resetEpoch⟩).length := by
      obtain ⟨tx, he, hlive, hn, -, -⟩ := hstart.tx
      exact ⟨⟨_, hstart.writer⟩, ⟨tx, he, hlive, hn⟩, hstart.info⟩
    have hkept := length_kept_le hopen
    have hsent : (slices es).length ≤ maxSectors := by rw [hslices]; exact length_sent_le plan _ _ _
    have hsize : maxSectors + maxSectors < UInt16.size := by decide
    exact (hcounts.run hopened es _ _ hquiet h.inTime).commit hopened h.inTime hlt (by omega)
      (fun h => Option.isSome_iff_exists.mpr ((hsign h).imp fun _ hsig => hsig.1)) broadcast

/-- Data that is given as an argument is delivered whole. -/
theorem argument_is_stored (P : Prims H K G) (hz : Blob.NoZeroHash P) {info : NameInfo K} {sign : H → Option G}
    (hsign : ∀ h, ∃ sig, sign h = some sig ∧ P.verifySigPub info.publicKey sig h = true) {now : Time} {s : Shared H K G}
    {name : Name} {resetEpoch : Bool} {data : Bytes} {fin : Session H K G}
    (h : Sent P now s name resetEpoch info (sectorsSent whole data) fin) (broadcast : Bool) :
    Outcome P sign broadcast name fin (kept P now s ⟨name, resetEpoch⟩ ++
      (List.range (min maxSectors (sectorCount data))).map fun i => sectorOf (padded data i)) := by
  have hout := write_commits hz hsign h broadcast
  rw [sectorsSent_whole, List.map_map] at hout
  exact hout

end

open Symbolic (prims site weeks fill Sym Sig)
open Rpc.Session (stored opener opening)

def nearlyTwo : Bytes := List.replicate 256 9 ++ List.replicate 44 7

def sending : List (Event Sym Nat Sig) :=
  [.write (List.replicate 256 9), .tick (weeks 6 + 1), .write (List.replicate 44 7 ++ List.replicate 212 9)]

/-- The second sector ends with the bytes of the first. -/
theorem the_last_sector_is_filled_up :
    let fin := Machine.run (Session.step prims) ⟨weeks 6, stored, opening, opener⟩ sending
    ∃ res shared srv, fin.writer.commit prims fin.clock fin.shared fin.srv (fun h => some ⟨1, h⟩) true = (.ok res, shared, srv) ∧
      (shared.blobs site).sectors 3 =
        [fill 1, sectorOf (List.replicate 256 9), sectorOf (List.replicate 44 7 ++ List.replicate 212 9)] := by
  intro fin
  have hsent : Sent prims (weeks 6) stored site false ⟨site, 1, 0⟩ (sectorsSent whole nearlyTwo) fin :=
    ⟨rfl, Rpc.Session.stored_described, ⟨Server.new, opening, opener, sending, Rpc.Session.opener_opens, by decide +kernel,
      ⟨trivial, trivial, trivial, trivial⟩, rfl⟩, by decide +kernel, by decide +kernel, by decide +kernel⟩
  have hsign : ∀ h : Sym, ∃ sig, (fun h => some (⟨1, h⟩ : Sig)) h = some sig ∧ prims.verifySigPub 1 sig h = true :=
    fun h => ⟨_, rfl, by simp [prims]⟩
  have hout := argument_is_stored prims Symbolic.noZeroHash hsign hsent true
  have hxs : kept prims (weeks 6) stored ⟨site, false⟩ ++
      (List.range (min maxSectors (sectorCount nearlyTwo))).map (fun i => sectorOf (padded nearlyTwo i)) =
      [fill 1, sectorOf (List.replicate 256 9), sectorOf (List.replicate 44 7 ++ List.replicate 212 9)] := by decide +kernel
  rw [hxs] at hout
  obtain ⟨sig, shared, srv, hcommit, -, hblob⟩ := hout.stored (by decide)
  exact ⟨_, shared, srv, hcommit, hblob⟩

end Fnd.Cli

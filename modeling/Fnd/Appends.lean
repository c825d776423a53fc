/-
  Fnd.Appends — the write position of a blob transaction, over every sequence of its Seek,
  WriteSector and ReadAt calls (`blob/transaction.go`, and `Server.WriteSector` of
  `rpc/server.go`, which calls WriteSector as often as a client asks).

  The position is a `uint16`. `Seek` refuses to move it down or past the end of the blob.
  `WriteSector` does not look at it: at `maxSectors` it writes behind the blob, and from 65535
  it goes back to 0, over what was written. Sectors are appended within the blob exactly as
  long as every write finds room (`appends_iff_room`). With `SeekCurrent` and `SeekEnd` a seek
  takes every offset that passes the first two checks, and does not move.
-/

import Fnd.Lifecycle

namespace Fnd.Appends

open Blob
open Lifecycle (State Coherent errOf)

inductive Op where
  | seek (off whence : Int)
  | writeSector (sector : Sector)
  | readAt (n : Nat) (off : Int)

def Op.call : Op → Lifecycle.Call
  | .seek off whence => .seek off whence
  | .writeSector sector => .writeSector sector
  | .readAt n off => .readAt n off

/-- A transaction, and the highest position that a write or a seek has left it at. -/
structure Writer where
  s : State
  mark : Nat

namespace Writer

def start (name : Name) (blob : File) : Writer := ⟨.start name blob, 0⟩

/-- `t.sectorSize` -/
def position (w : Writer) : Nat := w.s.tx.sectorSize.toNat

def succeeds (w : Writer) (op : Op) : Bool := (w.s.call op.call).1.any fun r => errOf r == none

def step (w : Writer) (op : Op) : Writer where
  s := w.s.step op.call
  mark := match op with
    | .readAt _ _ => w.mark
    | _ => if w.succeeds op then max w.mark (w.s.step op.call).tx.sectorSize.toNat else w.mark

/-- The `i`-th sector as the transaction reads it. -/
def sectorAt (w : Writer) (i : Nat) : Sector := (w.s.tx.view w.s.blob).sectorAt i

end Writer

/-- The position stays in the blob and does not go back, what lies before an earlier position is
    as it was, and a write lies within the blob, changes the sector at the position and moves on by
    one; at the end of the blob there is none. Only a seek from the start moves. -/
structure InBlob (w : Writer) (op : Op) : Prop where
  bounded : (w.step op).position ≤ maxSectors
  forward : w.position ≤ (w.step op).position
  kept : ∀ i < w.mark, (w.step op).sectorAt i = w.sectorAt i
  wrote : ∀ sector, op = .writeSector sector → w.succeeds op = true → (w.step op).position = w.position + 1 ∧
    (w.step op).sectorAt w.position = sector ∧ ∀ i, i ≠ w.position → (w.step op).sectorAt i = w.sectorAt i
  still : ∀ off whence, op = .seek off whence → whence = 1 ∨ whence = 2 → off.tmod sectorBytes = 0 →
    w.position * sectorBytes ≤ off → w.succeeds op = true ∧ (w.step op).position = w.position
  inside : ∀ sector, op = .writeSector sector → w.succeeds op = true → w.position * sectorBytes < size
  refused : ∀ sector, op = .writeSector sector → w.position = maxSectors → w.succeeds op = false

def Room (w : Writer) (op : Op) : Prop := ∀ sector, op = .writeSector sector → w.position < maxSectors

/-! ## Calls -/

/-- A seek moves the position forward, to a place in the blob, or leaves it. -/
theorem seek_position {t t' : Tx} {off : Int} {whence : Whence} (h : t.seek off whence = .ok t') :
    t.sectorSize.toNat ≤ t'.sectorSize.toNat ∧ t'.sectorSize.toNat ≤ max t.sectorSize.toNat maxSectors := by
  unfold Tx.seek at h
  split at h
  · cases h
  split at h
  · cases h
  rename_i _ hlow
  cases whence with
  | start =>
    simp only at h
    split at h
    · cases h
    · rename_i hhigh
      obtain rfl := Except.ok.inj h
      have hn : (off / (sectorBytes : Int)).toNat ≤ maxSectors := by
        simp only [size, sectorBytes, maxSectors] at *
        omega
      have hlt : (off / (sectorBytes : Int)).toNat < UInt16.size := Nat.lt_of_le_of_lt hn (by decide)
      show t.sectorSize.toNat ≤ (UInt16.ofNat _).toNat ∧ (UInt16.ofNat _).toNat ≤ _
      rw [UInt16.toNat_ofNat_of_lt' hlt]
      refine ⟨?_, by omega⟩
      simp only [sectorBytes] at *
      omega
  | current => obtain rfl := Except.ok.inj h; exact ⟨Nat.le_refl _, Nat.le_max_left _ _⟩
  | fromEnd => obtain rfl := Except.ok.inj h; exact ⟨Nat.le_refl _, Nat.le_max_left _ _⟩

theorem seek_still {s : State} {off whence : Int} (hwhence : whence = 1 ∨ whence = 2) (haligned : off.tmod sectorBytes = 0)
    (hoff : s.tx.sectorSize.toNat * sectorBytes ≤ off) : s.call (.seek off whence) = (some (.sought off none), s) := by
  have hlow : ¬ off < s.tx.sectorSize.toNat * sectorBytes := by omega
  have hseek : ∀ w, w ≠ .start → s.tx.seek off w = .ok s.tx := by
    intro w hw
    unfold Tx.seek
    rw [if_neg (fun hne => hne haligned), if_neg hlow]
    cases w with
    | start => exact absurd rfl hw
    | current => rfl
    | fromEnd => rfl
  rcases hwhence with rfl | rfl
  · simp only [State.call, Lifecycle.seek, show Lifecycle.whenceOf 1 = some .current from rfl, hseek .current (by decide)]
  · simp only [State.call, Lifecycle.seek, show Lifecycle.whenceOf 2 = some .fromEnd from rfl, hseek .fromEnd (by decide)]

structure InUse (s : State) : Prop where
  files : Coherent s
  live : s.tx.Live

theorem inUse_start (name : Name) (blob : File) : InUse (.start name blob) :=
  ⟨Lifecycle.coherent_start name blob, Tx.live_new name⟩

section

variable {s : State}

theorem InUse.clone (h : InUse s) {t : Tx} (ht : t.Live) : InUse { s.lazyInitialize with tx := t } := by
  obtain ⟨hf, -, -, hlinked⟩ := h.files.lazyInitialize h.live.1 h.live.2
  refine ⟨⟨fun _ => hlinked.trans (h.files.blob h.live.1), fun _ _ _ => hf, fun _ hr => ?_⟩, ht⟩
  exact absurd (ht.2.symm.trans hr) (by decide)

/-- A write lands at the position, wherever that is, and moves it on. -/
theorem InUse.writeSector (h : InUse s) (sector : Sector) :
    ∃ s', s.call (.writeSector sector) = (some (.done none), s') ∧ InUse s' ∧ s'.tx.sectorSize = s.tx.sectorSize + 1 ∧
      s'.tx.view s'.blob = (s.tx.view s.blob).writeSector s.tx.sectorSize.toNat sector := by
  obtain ⟨-, htx, hblob, -⟩ := h.files.lazyInitialize h.live.1 h.live.2
  obtain ⟨t', hw, hlive, hpos, hview⟩ := (h.live.lazyInitialize s.blob).writeSector s.blob sector
  have hcall : s.call (.writeSector sector) = s.access (fun e => .done (some e)) (·.cloneWriteSector sector) := rfl
  have hclone : s.lazyInitialize.cloneWriteSector sector = (.done none, t') := by
    simp only [State.cloneWriteSector, htx, hblob, hw]
  rw [Tx.lazyInitialize_sectorSize, Tx.view_lazyInitialize] at hview
  refine ⟨{ s.lazyInitialize with tx := t' }, ?_, h.clone hlive, ?_, ?_⟩
  · rw [hcall, h.files.access_live h.live.1 h.live.2, hclone]
  · rw [hpos, Tx.lazyInitialize_sectorSize]
  · show t'.view s.lazyInitialize.blob = _
    rw [hblob, hview]

theorem InUse.readAt (h : InUse s) (n : Nat) (off : Int) :
    ∃ r s', s.call (.readAt n off) = (some r, s') ∧ InUse s' ∧ s'.tx.sectorSize = s.tx.sectorSize ∧
      s'.tx.view s'.blob = s.tx.view s.blob := by
  obtain ⟨-, htx, hblob, -⟩ := h.files.lazyInitialize h.live.1 h.live.2
  have hlive := h.live.lazyInitialize s.blob
  have hread : ((s.tx.lazyInitialize s.blob).readFrom s.blob n off).2 = s.tx.lazyInitialize s.blob := by
    unfold Tx.readFrom
    split
    · exact Tx.lazyInitialize_twice _ _ _
    · simp only [Tx.readAt, hlive.1, hlive.2, Bool.false_eq_true, if_false, Tx.lazyInitialize_twice]
  have hcall : s.call (.readAt n off) = s.access (fun e => .read [] (some e)) (·.cloneReadAt n off) := rfl
  have hclone : (s.lazyInitialize.cloneReadAt n off).2 = s.tx.lazyInitialize s.blob := by
    simp only [State.cloneReadAt, htx, hblob, hread]
  refine ⟨(s.lazyInitialize.cloneReadAt n off).1, { s.lazyInitialize with tx := s.tx.lazyInitialize s.blob }, ?_,
    h.clone hlive, Tx.lazyInitialize_sectorSize _ _, ?_⟩
  · rw [hcall, h.files.access_live h.live.1 h.live.2, hclone]
  · show (s.tx.lazyInitialize s.blob).view s.lazyInitialize.blob = _
    rw [hblob, Tx.view_lazyInitialize]

theorem InUse.seek (h : InUse s) (off whence : Int) :
    InUse (s.step (.seek off whence)) ∧ s.tx.sectorSize.toNat ≤ (s.step (.seek off whence)).tx.sectorSize.toNat ∧
      (s.step (.seek off whence)).tx.sectorSize.toNat ≤ max s.tx.sectorSize.toNat maxSectors ∧
      (s.step (.seek off whence)).tx.view (s.step (.seek off whence)).blob = s.tx.view s.blob := by
  have hstay : InUse s ∧ s.tx.sectorSize.toNat ≤ s.tx.sectorSize.toNat ∧
      s.tx.sectorSize.toNat ≤ max s.tx.sectorSize.toNat maxSectors ∧ s.tx.view s.blob = s.tx.view s.blob :=
    ⟨h, Nat.le_refl _, Nat.le_max_left _ _, rfl⟩
  cases hs : Lifecycle.seek s.tx off whence with
  | none =>
    have hstep : s.step (.seek off whence) = s := by simp only [State.step, State.call, hs]
    rw [hstep]
    exact hstay
  | some res =>
    cases res with
    | error e =>
      have hstep : s.step (.seek off whence) = s := by simp only [State.step, State.call, hs]
      rw [hstep]
      exact hstay
    | ok t =>
      have hstep : s.step (.seek off whence) = { s with tx := t } := by simp only [State.step, State.call, hs]
      have hflags := Lifecycle.seek_ok hs
      have hlive : t.Live := ⟨hflags.closed.trans h.live.1, hflags.removed.trans h.live.2⟩
      obtain ⟨w, hw⟩ : ∃ w, s.tx.seek off w = .ok t := by
        unfold Lifecycle.seek at hs
        split at hs
        · exact ⟨_, Option.some.inj hs⟩
        · split at hs
          · cases hs
          split at hs <;> cases hs
      obtain ⟨hlow, hhigh⟩ := seek_position hw
      rw [hstep]
      refine ⟨⟨h.files.of_sameFlags hflags rfl rfl, hlive⟩, hlow, hhigh, ?_⟩
      show t.view s.blob = _
      rw [(Tx.seek_keeps hw).2.2.2]

end

/-! ## Runs -/

/-- No position was higher than the present one, which is in the blob. -/
structure Inv (w : Writer) : Prop where
  inUse : InUse w.s
  bounded : w.position ≤ maxSectors
  mark : w.mark ≤ w.position

theorem inv_start (name : Name) (blob : File) : Inv (.start name blob) :=
  ⟨inUse_start name blob, Nat.zero_le _, Nat.le_refl _⟩

variable {w : Writer}

/-- A call that moves the position forward in the blob, and changes no sector before it. -/
theorem Inv.of_step (h : Inv w) {op : Op} (hin : InUse (w.s.step op.call)) (hlow : w.position ≤ (w.step op).position)
    (hhigh : (w.step op).position ≤ maxSectors) (hkept : ∀ i < w.position, (w.step op).sectorAt i = w.sectorAt i)
    (hwrite : ∀ sector, op ≠ .writeSector sector) : InBlob w op ∧ Inv (w.step op) := by
  refine ⟨⟨hhigh, hlow, fun i hi => hkept i (Nat.lt_of_lt_of_le hi h.mark), fun sector ho => absurd ho (hwrite sector),
    fun off whence ho hwhence haligned hoff => ?_, fun sector ho => absurd ho (hwrite sector),
    fun sector ho => absurd ho (hwrite sector)⟩, hin, hhigh, ?_⟩
  · subst ho
    have hcall := seek_still (s := w.s) hwhence haligned hoff
    have hstep : w.s.step (.seek off whence) = w.s := by rw [State.step, hcall]
    refine ⟨?_, congrArg (·.tx.sectorSize.toNat) hstep⟩
    show (w.s.call (.seek off whence)).1.any _ = true
    rw [hcall]
    rfl
  have hmark := h.mark
  have hpos : (w.step op).position = (w.s.step op.call).tx.sectorSize.toNat := rfl
  cases op with
  | readAt n off => exact Nat.le_trans hmark hlow
  | seek off whence =>
    show (if w.succeeds (.seek off whence) then max w.mark _ else w.mark) ≤ _
    split
    · rw [← hpos]; omega
    · omega
  | writeSector sector => exact absurd rfl (hwrite sector)

/-- A write succeeds in any case; with room it moves the position by one. -/
theorem Inv.write_spec (h : Inv w) (sector : Sector) :
    w.succeeds (.writeSector sector) = true ∧ InUse (w.step (.writeSector sector)).s ∧
    (w.position < maxSectors → (w.step (.writeSector sector)).position = w.position + 1) ∧
    (w.step (.writeSector sector)).sectorAt w.position = sector ∧
    ∀ i, i ≠ w.position → (w.step (.writeSector sector)).sectorAt i = w.sectorAt i := by
  obtain ⟨s', hcall, hin, hpos, hview⟩ := h.inUse.writeSector sector
  have hstep : (w.step (.writeSector sector)).s = s' := by
    show w.s.step (.writeSector sector) = s'
    rw [State.step, hcall]
  refine ⟨?_, hstep ▸ hin, fun hr => ?_, ?_, fun i hi => ?_⟩
  · show (w.s.call (.writeSector sector)).1.any _ = true
    rw [hcall]
    rfl
  · have hr : w.s.tx.sectorSize.toNat < 4096 := hr
    rw [Writer.position, hstep, hpos, UInt16.toNat_add]
    show (w.s.tx.sectorSize.toNat + 1) % 65536 = w.s.tx.sectorSize.toNat + 1
    omega
  · rw [Writer.sectorAt, hstep, hview]
    exact File.sectorAt_writeSector_self _ _ sector
  · rw [Writer.sectorAt, hstep, hview]
    exact File.sectorAt_writeSector_ne _ sector hi

theorem Inv.writeSector (h : Inv w) (sector : Sector) :
    (InBlob w (.writeSector sector) ↔ Room w (.writeSector sector)) ∧
    (Room w (.writeSector sector) → Inv (w.step (.writeSector sector))) := by
  obtain ⟨hsucc, hin, hpos, hwritten, hsectors⟩ := h.write_spec sector
  have hmark := h.mark
  refine ⟨⟨fun hb sec _ => ?_, fun hr => ?_⟩, fun hr => ?_⟩
  · -- a full transaction would write all the same
    refine Nat.lt_of_le_of_ne h.bounded fun hfull => ?_
    exact absurd (hsucc.symm.trans (hb.refused sector rfl hfull)) (by decide)
  · have hlt := hr sector rfl
    have hpos := hpos hlt
    refine ⟨by omega, by omega, fun i hi => hsectors i (by omega), fun sector' ho _ => ?_, fun _ _ ho => (by cases ho),
      fun _ _ _ => ?_, fun _ _ hfull => by omega⟩
    · cases ho
      exact ⟨hpos, hwritten, hsectors⟩
    simp only [size, sectorBytes, maxSectors] at *
    omega
  · have hlt := hr sector rfl
    have hpos := hpos hlt
    refine ⟨hin, by omega, ?_⟩
    show (if w.succeeds (.writeSector sector) then max w.mark (w.step (.writeSector sector)).position else w.mark) ≤ _
    rw [hsucc, if_pos rfl]
    omega

theorem Inv.step (h : Inv w) (op : Op) : (InBlob w op ↔ Room w op) ∧ (Room w op → Inv (w.step op)) := by
  cases op with
  | writeSector sector => exact h.writeSector sector
  | seek off whence =>
    obtain ⟨hin, hlow, hhigh, hview⟩ := h.inUse.seek off whence
    have hbounded : w.s.tx.sectorSize.toNat ≤ maxSectors := h.bounded
    have hhigh : (w.step (.seek off whence)).position ≤ maxSectors := by
      show (w.s.step (.seek off whence)).tx.sectorSize.toNat ≤ _
      omega
    have hs : InBlob w (.seek off whence) ∧ Inv (w.step (.seek off whence)) :=
      h.of_step hin hlow hhigh (fun i _ => congrArg (File.sectorAt · i) hview) (fun _ => by simp)
    exact ⟨iff_of_true hs.1 (fun _ ho => by cases ho), fun _ => hs.2⟩
  | readAt n off =>
    obtain ⟨r, s', hcall, hin, hpos, hview⟩ := h.inUse.readAt n off
    have hstep : w.s.step (.readAt n off) = s' := by rw [State.step, hcall]
    have hposition : (w.step (.readAt n off)).position = w.position := by
      show (w.s.step (.readAt n off)).tx.sectorSize.toNat = _
      rw [hstep, hpos]
      rfl
    have hsector (i : Nat) : (w.step (.readAt n off)).sectorAt i = w.sectorAt i := by
      show ((w.s.step (.readAt n off)).tx.view (w.s.step (.readAt n off)).blob).sectorAt i = _
      rw [hstep, hview]
      rfl
    have hs : InBlob w (.readAt n off) ∧ Inv (w.step (.readAt n off)) :=
      h.of_step (by rw [Op.call, hstep]; exact hin) (Nat.le_of_eq hposition.symm) (by rw [hposition]; exact h.bounded)
        (fun i _ => hsector i) (fun _ => by simp)
    exact ⟨iff_of_true hs.1 (fun _ ho => by cases ho), fun _ => hs.2⟩

/-- Every run of the three calls, from a new transaction on, appends within the blob exactly when
    each of its writes has room. -/
theorem appends_iff_room (name : Name) (blob : File) (ops : List Op) :
    Machine.Along Writer.step InBlob (.start name blob) ops ↔ Machine.Along Writer.step Room (.start name blob) ops :=
  Machine.along_iff Inv (fun _ op h => (h.step op).1) (fun _ op h hb => (h.step op).2 ((h.step op).1.mp hb)) ops _
    (inv_start name blob)

/-- A seek to the end of the blob, and a sector behind it. -/
theorem a_full_blob_is_written :
    ¬ Machine.Along Writer.step InBlob (.start [] File.zero) [.seek size 0, .writeSector zeroSector] := by
  intro ⟨_, hwrite, _⟩
  have hfull : (Writer.step (.start [] File.zero) (.seek size 0)).position = maxSectors := by decide +kernel
  have hrefused := hwrite.refused zeroSector rfl hfull
  have hsucceeds : (Writer.step (.start [] File.zero) (.seek size 0)).succeeds (.writeSector zeroSector) = true := rfl
  exact absurd (hsucceeds.symm.trans hrefused) (by decide)

end Fnd.Appends

/-
  Fnd.Blob.Transaction — blob transactions (`blob/transaction.go`, the cloner and
  committer of `blob/blob.go`) and the reader over them (`blob/io.go`).

  A transaction works on a clone of the blob file, taken at its first access
  (`lazyInitialize`) or replaced by zeros (`truncate`); `commit` copies the clone back
  over the blob. What it reads is `view`: the clone, or the blob itself until there is
  one. File operations succeed.
-/

import Fnd.Blob.File

namespace Fnd.Blob

inductive TxErr where
  /-- `ErrTransactionClosed` -/
  | closed
  /-- `ErrTransactionRemoved` -/
  | removed
  | seekUnaligned
  | seekBeforeWritten
  | seekBeyondBounds
  deriving DecidableEq, Repr

inductive Whence where
  | start
  | current
  | fromEnd
  deriving DecidableEq, Repr

structure Tx where
  name : Name
  f : File
  sectorSize : UInt16
  initialized : Bool
  closed : Bool
  removed : Bool

namespace Tx

/-- `blobImpl.Transaction`. -/
def new (name : Name) : Tx := ⟨name, File.zero, 0, false, false, false⟩

def seek (t : Tx) (off : Int) (whence : Whence) : Except TxErr Tx :=
  if off.tmod sectorBytes ≠ 0 then .error .seekUnaligned
  else if off < t.sectorSize.toNat * sectorBytes then .error .seekBeforeWritten
  else match whence with
    | .start =>
      if off > size then .error .seekBeyondBounds
      else .ok { t with sectorSize := UInt16.ofNat (off / sectorBytes).toNat }
    | .current => .ok t
    | .fromEnd => .ok t

/-- What the transaction reads, over the blob `b`. -/
def view (t : Tx) (b : File) : File := if t.initialized then t.f else b

def lazyInitialize (t : Tx) (b : File) : Tx := if t.initialized then t else { t with f := b, initialized := true }

def writeSector (t : Tx) (b : File) (sector : Sector) : Except TxErr Tx :=
  if t.closed then .error .closed
  else if t.removed then .error .removed
  else
    let t := t.lazyInitialize b
    .ok { t with f := t.f.writeSector t.sectorSize.toNat sector, sectorSize := t.sectorSize + 1 }

/-- The source does not ask whether the transaction is closed. -/
def truncate (t : Tx) : Except TxErr Tx :=
  if t.removed then .error .removed else .ok { t with f := File.zero, initialized := true }

/-- The blob after the commit, and the closed transaction. A removed one unlinks the file:
    the next open starts from zeros. -/
def commit (t : Tx) (b : File) : Except TxErr (File × Tx) :=
  if t.closed then .error .closed
  else .ok (if t.removed then File.zero else t.view b, { t with closed := true })

def rollback (t : Tx) : Except TxErr Tx := if t.closed then .error .closed else .ok { t with closed := true }

/-- Nothing is read or written any more. A clone is dropped; the second time its file is closed
    already. -/
def remove (t : Tx) : Except (Fault TxErr) Tx :=
  if t.closed then .error (.err .closed)
  else if t.removed ∧ t.initialized then .error .panic
  else .ok { t with removed := true }

/-- Neither closed nor removed: reads, writes and a commit are served. -/
def Live (t : Tx) : Prop := t.closed = false ∧ t.removed = false

theorem live_new (name : Name) : (new name).Live := ⟨rfl, rfl⟩

@[simp] theorem view_lazyInitialize (t : Tx) (b c : File) : (t.lazyInitialize b).view c = t.view b := by
  unfold lazyInitialize view
  by_cases h : t.initialized = true <;> simp [h]

@[simp] theorem lazyInitialize_closed (t : Tx) (b : File) : (t.lazyInitialize b).closed = t.closed := by
  unfold lazyInitialize; split <;> rfl

@[simp] theorem lazyInitialize_removed (t : Tx) (b : File) : (t.lazyInitialize b).removed = t.removed := by
  unfold lazyInitialize; split <;> rfl

@[simp] theorem lazyInitialize_sectorSize (t : Tx) (b : File) : (t.lazyInitialize b).sectorSize = t.sectorSize := by
  unfold lazyInitialize; split <;> rfl

@[simp] theorem lazyInitialize_name (t : Tx) (b : File) : (t.lazyInitialize b).name = t.name := by
  unfold lazyInitialize; split <;> rfl

@[simp] theorem lazyInitialize_initialized (t : Tx) (b : File) : (t.lazyInitialize b).initialized = true := by
  unfold lazyInitialize; split
  · assumption
  · rfl

@[simp] theorem lazyInitialize_twice (t : Tx) (b c : File) :
    (t.lazyInitialize b).lazyInitialize c = t.lazyInitialize b := by
  unfold lazyInitialize
  by_cases h : t.initialized = true <;> simp [h]

theorem lazyInitialize_f (t : Tx) (b : File) : (t.lazyInitialize b).f = t.view b := by
  unfold lazyInitialize view; split <;> rfl

theorem Live.lazyInitialize {t : Tx} (ht : t.Live) (b : File) : (t.lazyInitialize b).Live :=
  ⟨(lazyInitialize_closed t b).trans ht.1, (lazyInitialize_removed t b).trans ht.2⟩

/-- A write to a live transaction lands at its position and moves it on. -/
theorem Live.writeSector {t : Tx} (ht : t.Live) (b : File) (x : Sector) :
    ∃ t', t.writeSector b x = .ok t' ∧ t'.Live ∧ t'.sectorSize = t.sectorSize + 1 ∧
      t'.view b = (t.view b).writeSector t.sectorSize.toNat x := by
  refine ⟨{ t.lazyInitialize b with f := (t.view b).writeSector t.sectorSize.toNat x, sectorSize := t.sectorSize + 1 },
    ?_, ⟨by simpa using ht.1, by simpa using ht.2⟩, rfl, by simp [view]⟩
  simp [Tx.writeSector, ht.1, ht.2, lazyInitialize_f]

theorem seek_keeps {t t' : Tx} {off : Int} {whence : Whence} (h : t.seek off whence = .ok t') :
    t'.closed = t.closed ∧ t'.removed = t.removed ∧ t'.initialized = t.initialized ∧ t'.view = t.view := by
  unfold seek at h
  split at h
  · cases h
  split at h
  · cases h
  cases whence with
  | start =>
    simp only at h
    split at h
    · cases h
    · cases h; exact ⟨rfl, rfl, rfl, rfl⟩
  | current => cases h; exact ⟨rfl, rfl, rfl, rfl⟩
  | fromEnd => cases h; exact ⟨rfl, rfl, rfl, rfl⟩

theorem seek_start {t : Tx} (ht : t.sectorSize = 0) (n : Nat) : t.seek (n * sectorBytes : Nat) .start =
    if n ≤ maxSectors then .ok { t with sectorSize := UInt16.ofNat n } else .error .seekBeyondBounds := by
  have h1 : ((n * sectorBytes : Nat) : Int).tmod sectorBytes = 0 := by
    rw [← Int.ofNat_tmod]; simp
  have h2 : ¬ ((n * sectorBytes : Nat) : Int) < t.sectorSize.toNat * sectorBytes := by
    rw [ht]; simp only [UInt16.toNat_zero, Int.ofNat_zero, Int.zero_mul]; omega
  have h3 : ((n * sectorBytes : Nat) : Int) > size ↔ ¬ n ≤ maxSectors := by
    have : n * sectorBytes > size ↔ maxSectors < n := by
      rw [size, Nat.mul_comm n]; exact Nat.mul_lt_mul_left (by decide)
    omega
  have h4 : (((n * sectorBytes : Nat) : Int) / (sectorBytes : Int)).toNat = n := by
    rw [← Int.natCast_ediv, Nat.mul_div_cancel _ (by decide)]; rfl
  simp only [seek, h1, h2, h3, ne_eq, not_true_eq_false, if_false, h4, ite_not]

end Tx

/-! ## Reading a transaction -/

inductive ReadErr where
  | eof
  | tx (e : TxErr)
  deriving DecidableEq, Repr

/-- `ReadBlobAt`: the bytes read and the error returned with them. -/
def readBlobAt (f : File) (n off : Nat) : Bytes × Option ReadErr :=
  if off > size then ([], some .eof)
  else if n + off > size then (f.readAt off (size - off), some .eof)
  else (f.readAt off n, none)

/-- `txImpl.ReadAt`. -/
def Tx.readAt (t : Tx) (b : File) (n off : Nat) : (Bytes × Option ReadErr) × Tx :=
  if t.closed then (([], some (.tx .closed)), t)
  else if t.removed then (([], some (.tx .removed)), t)
  else (readBlobAt (t.view b) n off, t.lazyInitialize b)

/-- `Reader.Read` over a transaction: what was read, the error, the new offset. -/
def Tx.readerRead (t : Tx) (b : File) (offset n : Nat) : (Bytes × Option ReadErr) × Nat × Tx :=
  if offset ≥ size then (([], some .eof), offset, t)
  else
    let r := t.readAt b (min n (size - offset)) offset
    (r.1, offset + r.1.1.length, r.2)

theorem readBlobAt_sector (f : File) {i : Nat} (hi : i < maxSectors) :
    readBlobAt f sectorBytes (i * sectorBytes) = (f.readAt (i * sectorBytes) sectorBytes, none) := by
  have h1 : ¬ i * sectorBytes > size := by simp only [size, sectorBytes, maxSectors] at *; omega
  have h2 : ¬ sectorBytes + i * sectorBytes > size := by simp only [size, sectorBytes, maxSectors] at *; omega
  simp only [readBlobAt, h1, h2, if_false]

theorem Tx.readerRead_sector {t : Tx} (ht : t.Live) (b : File) {i : Nat} (hi : i < maxSectors) :
    t.readerRead b (i * sectorBytes) sectorBytes =
      (((t.view b).readAt (i * sectorBytes) sectorBytes, none), (i + 1) * sectorBytes, t.lazyInitialize b) := by
  have h1 : ¬ i * sectorBytes ≥ size := by simp only [size, sectorBytes, maxSectors] at *; omega
  have h2 : min sectorBytes (size - i * sectorBytes) = sectorBytes := by
    simp only [size, sectorBytes, maxSectors] at *; omega
  simp only [readerRead, h1, if_false, h2, readAt, ht.1, ht.2, Bool.false_eq_true, readBlobAt_sector _ hi,
    File.length_readAt, Nat.succ_mul]

theorem Tx.readerRead_end (t : Tx) (b : File) : t.readerRead b (maxSectors * sectorBytes) sectorBytes =
    (([], some .eof), maxSectors * sectorBytes, t) := by
  have : maxSectors * sectorBytes ≥ size := by simp only [size, sectorBytes, maxSectors]; omega
  simp only [readerRead, this, if_true]

end Fnd.Blob

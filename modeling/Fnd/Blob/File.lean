/-
  Fnd.Blob.File — blob files and their sectors (`blob/consts.go`, `blob/io.go`,
  `blob/sector.go`).

  A blob file has `size` bytes: it is truncated to that length whenever it is opened,
  and so is the file of a truncated transaction; a clone copies all of it. Every read is
  cut off at `size` before it reaches the file, so a file is modeled by the sector at each
  index. Bytes are read at any offset, across sectors; writes are of whole sectors. (A
  write past `size` makes the file longer; those bytes are never read.)
-/

import Fnd.Basic

namespace Fnd.Blob

def sectorBytes : Nat := 256

def maxSectors : Nat := 4096

def size : Nat := sectorBytes * maxSectors

/-! ## Sectors -/

/-- A sector: exactly `sectorBytes` bytes. -/
def Sector := { bs : Bytes // bs.length = sectorBytes }

instance : DecidableEq Sector := inferInstanceAs (DecidableEq { bs : Bytes // bs.length = sectorBytes })

def zeroSector : Sector := ⟨List.replicate sectorBytes 0, List.length_replicate⟩

/-- Go's `copy(s[:], p)`: the bytes of `p` that fit over the start of `s`. -/
def Sector.copy (s : Sector) (p : Bytes) : Sector :=
  ⟨p.take sectorBytes ++ s.1.drop p.length,
    by have := s.2; simp only [List.length_append, List.length_take, List.length_drop]; omega⟩

theorem Sector.copy_of_length (s : Sector) {p : Bytes} (h : p.length = sectorBytes) : s.copy p = ⟨p, h⟩ := by
  apply Subtype.ext
  show p.take sectorBytes ++ s.1.drop p.length = p
  rw [List.take_of_length_le (by omega), List.drop_eq_nil_of_le (by rw [s.2]; omega), List.append_nil]

/-! ## Files -/

def File := Nat → Sector

def File.zero : File := fun _ => zeroSector

def File.sectorAt (f : File) (i : Nat) : Sector := f i

/-- The `n` bytes at an offset: from the sectors that hold them, cut to size. -/
def File.readAt (f : File) (off n : Nat) : Bytes :=
  (((List.range' (off / sectorBytes) (n / sectorBytes + 2)).flatMap fun i => (f i).1).drop (off % sectorBytes)).take n

/-- The first `n` sectors. -/
def File.sectors (f : File) (n : Nat) : List Sector := (List.range n).map f.sectorAt

/-- `WriteSector(w, id, sector)`. -/
def File.writeSector (f : File) (id : Nat) (s : Sector) : File := fun i => if i = id then s else f i

theorem File.length_flatMap (f : File) (i n : Nat) :
    ((List.range' i n).flatMap fun i => (f i).1).length = n * sectorBytes := by
  induction n generalizing i with
  | zero => simp
  | succ n ih =>
    rw [List.range'_succ, List.flatMap_cons, List.length_append, ih, (f i).2, Nat.succ_mul, Nat.add_comm]

@[simp] theorem File.length_readAt (f : File) (off n : Nat) : (f.readAt off n).length = n := by
  have := Nat.div_add_mod n sectorBytes
  have := Nat.mod_lt n (show sectorBytes > 0 by decide)
  have := Nat.mod_lt off (show sectorBytes > 0 by decide)
  simp only [File.readAt, List.length_take, List.length_drop, File.length_flatMap]
  simp only [sectorBytes] at *
  omega

theorem File.readAt_sector (f : File) (i : Nat) : f.readAt (i * sectorBytes) sectorBytes = (f.sectorAt i).1 := by
  have h1 : i * sectorBytes / sectorBytes = i := Nat.mul_div_cancel _ (by decide)
  have h2 : i * sectorBytes % sectorBytes = 0 := Nat.mul_mod_left _ _
  have h3 : (f i).1.length = sectorBytes := (f i).2
  rw [File.readAt, h1, h2, List.drop_zero, Nat.div_self (by decide), List.range'_succ, List.flatMap_cons,
    List.take_append_of_le_length (by omega), List.take_of_length_le (by omega)]
  rfl

theorem File.sectorAt_writeSector_self (f : File) (i : Nat) (s : Sector) : (f.writeSector i s).sectorAt i = s :=
  if_pos rfl

theorem File.sectorAt_writeSector_ne (f : File) {i j : Nat} (s : Sector) (h : j ≠ i) :
    (f.writeSector i s).sectorAt j = f.sectorAt j :=
  if_neg h

@[simp] theorem File.length_sectors (f : File) (n : Nat) : (f.sectors n).length = n := by simp [File.sectors]

theorem File.getElem_sectors (f : File) {n i : Nat} (h : i < (f.sectors n).length) :
    (f.sectors n)[i] = f.sectorAt i := by simp [File.sectors]

theorem File.sectors_succ (f : File) (n : Nat) : f.sectors (n + 1) = f.sectors n ++ [f.sectorAt n] := by
  simp [File.sectors, List.range_succ]

theorem File.sectors_congr {f g : File} {n : Nat} (h : ∀ i < n, f.sectorAt i = g.sectorAt i) :
    f.sectors n = g.sectors n :=
  List.map_congr_left fun i hi => h i (List.mem_range.mp hi)

def File.ofSectors (xs : List Sector) : File := fun i => xs.getD i zeroSector

theorem File.sectors_ofSectors (xs : List Sector) : (File.ofSectors xs).sectors xs.length = xs := by
  refine List.ext_getElem (File.length_sectors _ _) fun i hi hi' => ?_
  rw [File.getElem_sectors]
  simp [File.ofSectors, File.sectorAt, hi']

theorem File.take_sectors (f : File) {k n : Nat} (h : k ≤ n) : (f.sectors n).take k = f.sectors k := by
  simp only [File.sectors, ← List.map_take, List.take_range, Nat.min_eq_left h]

end Fnd.Blob

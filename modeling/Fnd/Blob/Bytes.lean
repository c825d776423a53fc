/-
  Fnd.Blob.Bytes — blob files byte by byte (`ReadBlobAt`, `WriteBlobAt`, `ReadSector` of
  `blob/io.go`) and the calls of a transaction that use them at any offset.

  `contents` are the first `size` bytes, the only ones a call can reach. A read is a slice of
  them (`readAt_slice`), a write lies over them (`contents_writeAt`, `contents_writeSector`).
  A negative offset is refused by the file.
-/

import Fnd.Blob.Transaction
import Fnd.Lib.Snapshot

namespace Fnd.Blob

open Snapshot (overlay)

/-! ## Files as bytes -/

namespace File

def byteAt (f : File) (k : Nat) : UInt8 := (f (k / sectorBytes)).1.getD (k % sectorBytes) 0

def ofBytes (g : Nat → UInt8) : File := fun i =>
  ⟨(List.range sectorBytes).map fun j => g (i * sectorBytes + j), by simp⟩

/-- `os.File.WriteAt`. -/
def writeAt (f : File) (off : Nat) (p : Bytes) : File :=
  ofBytes fun k => if off ≤ k ∧ k < off + p.length then p.getD (k - off) 0 else f.byteAt k

theorem byteAt_ofBytes (g : Nat → UInt8) (k : Nat) : (ofBytes g).byteAt k = g k := by
  have hlt : k % sectorBytes < sectorBytes := Nat.mod_lt _ (by decide)
  have hk : k / sectorBytes * sectorBytes + k % sectorBytes = k := by
    rw [Nat.mul_comm]; exact Nat.div_add_mod _ _
  simp only [byteAt, ofBytes, List.getD_eq_getElem?_getD, List.getElem?_map, List.getElem?_range hlt, Option.map_some,
    Option.getD_some, hk]

theorem byteAt_writeSector (f : File) (i : Nat) (s : Sector) (k : Nat) : (f.writeSector i s).byteAt k =
    if i * sectorBytes ≤ k ∧ k < i * sectorBytes + s.1.length then s.1.getD (k - i * sectorBytes) 0 else f.byteAt k := by
  have hmod := Nat.mod_lt k (show sectorBytes > 0 by decide)
  have hdiv := Nat.div_add_mod k sectorBytes
  rw [s.2]
  by_cases hi : k / sectorBytes = i
  · subst hi
    rw [Nat.mul_comm] at hdiv
    have hsub : k - k / sectorBytes * sectorBytes = k % sectorBytes := by omega
    rw [if_pos (by omega), hsub]
    simp only [byteAt, writeSector, if_true]
  · have hout : ¬ (i * sectorBytes ≤ k ∧ k < i * sectorBytes + sectorBytes) := by
      intro ⟨h1, h2⟩
      apply hi
      rw [← Nat.succ_mul] at h2
      exact Nat.div_eq_of_lt_le h1 h2
    rw [if_neg hout]
    simp only [byteAt, writeSector, hi, if_false]

theorem byteAt_zero (k : Nat) : zero.byteAt k = 0 := by
  have hlt : k % sectorBytes < sectorBytes := Nat.mod_lt _ (by decide)
  simp only [byteAt, zero, zeroSector, List.getD_eq_getElem?_getD, List.getElem?_replicate, hlt, if_true, Option.getD_some]

theorem getElem?_flatMap (f : File) (i n k : Nat) (hk : k < n * sectorBytes) :
    ((List.range' i n).flatMap fun i => (f i).1)[k]? = some (f.byteAt (i * sectorBytes + k)) := by
  induction n generalizing i k with
  | zero => simp at hk
  | succ n ih =>
    rw [List.range'_succ, List.flatMap_cons]
    have hlen : (f i).1.length = sectorBytes := (f i).2
    by_cases hlt : k < sectorBytes
    · rw [List.getElem?_append_left (by omega)]
      have hd : (i * sectorBytes + k) / sectorBytes = i := by
        rw [Nat.mul_comm, Nat.mul_add_div (by decide), Nat.div_eq_of_lt hlt, Nat.add_zero]
      have hm : (i * sectorBytes + k) % sectorBytes = k := by
        rw [Nat.mul_comm, Nat.mul_add_mod, Nat.mod_eq_of_lt hlt]
      simp only [byteAt, hd, hm, List.getD_eq_getElem?_getD]
      rw [List.getElem?_eq_getElem (by omega), Option.getD_some]
    · rw [List.getElem?_append_right (by omega), hlen,
        ih (i + 1) (k - sectorBytes) (by rw [Nat.succ_mul] at hk; omega)]
      have hidx : (i + 1) * sectorBytes + (k - sectorBytes) = i * sectorBytes + k := by rw [Nat.succ_mul]; omega
      rw [hidx]

theorem getElem?_readAt (f : File) (off n : Nat) {i : Nat} (hi : i < n) : (f.readAt off n)[i]? = some (f.byteAt (off + i)) := by
  have hn := Nat.div_add_mod n sectorBytes
  have hnm := Nat.mod_lt n (show sectorBytes > 0 by decide)
  have ho := Nat.div_add_mod off sectorBytes
  have hom := Nat.mod_lt off (show sectorBytes > 0 by decide)
  rw [readAt, List.getElem?_take_of_lt hi, List.getElem?_drop, getElem?_flatMap _ _ _ _
    (by simp only [sectorBytes] at *; omega)]
  have hidx : off / sectorBytes * sectorBytes + (off % sectorBytes + i) = off + i := by
    rw [Nat.mul_comm]; omega
  rw [hidx]

end File

/-- The first `size` bytes. -/
abbrev Contents := Fin size → UInt8

def File.contents (f : File) : Contents := fun k => f.byteAt k

/-- The bytes `p` at an offset, as far as they are in the blob. -/
def writesAt (off : Nat) : Bytes → List (Fin size × UInt8)
  | [] => []
  | b :: p => (if h : off < size then [(⟨off, h⟩, b)] else []) ++ writesAt (off + 1) p

/-- At most `n` bytes of the contents from an offset. -/
def slice (c : Contents) (off n : Nat) : Bytes := ((List.ofFn c).drop off).take n

theorem overlay_writesAt (p : Bytes) : ∀ (off : Nat) (c : Contents) (k : Fin size), overlay c (writesAt off p) k =
    if off ≤ k ∧ k < off + p.length then p.getD (k - off) 0 else c k := by
  induction p with
  | nil =>
    intro off c k
    rw [if_neg (by simp only [List.length_nil]; omega)]
    rfl
  | cons b p ih =>
    intro off c k
    rw [writesAt, Snapshot.overlay_append, ih]
    have hrest : k.1 ≠ off → (overlay c (if h : off < size then [(⟨off, h⟩, b)] else []) k) = c k := by
      intro hne
      split
      · exact Function.update_of_ne (fun e => hne (congrArg Fin.val e)) _ _
      · rfl
    by_cases hk : k.1 = off
    · have hlt : off < size := hk ▸ k.2
      obtain rfl : k = ⟨off, hlt⟩ := Fin.ext hk
      rw [if_neg (by simp only; omega), if_pos (by simp only [List.length_cons]; omega), dif_pos hlt]
      simp [overlay]
    · rw [hrest hk]
      by_cases hin : off + 1 ≤ k.1 ∧ k.1 < off + 1 + p.length
      · rw [if_pos hin, if_pos (by simp only [List.length_cons]; omega)]
        obtain ⟨d, hd⟩ : ∃ d, k.1 - off = d + 1 := ⟨k.1 - off - 1, by omega⟩
        have hd' : k.1 - (off + 1) = d := by omega
        rw [hd, hd', List.getD_cons_succ]
      · rw [if_neg hin, if_neg (by simp only [List.length_cons]; omega)]

theorem contents_zero : File.zero.contents = fun _ => 0 := funext fun k => File.byteAt_zero k

theorem contents_writeAt (f : File) (off : Nat) (p : Bytes) :
    (f.writeAt off p).contents = overlay f.contents (writesAt off p) := by
  funext k
  rw [overlay_writesAt]
  exact File.byteAt_ofBytes _ _

theorem contents_writeSector (f : File) (i : Nat) (s : Sector) :
    (f.writeSector i s).contents = overlay f.contents (writesAt (i * sectorBytes) s.1) := by
  funext k
  rw [overlay_writesAt]
  exact File.byteAt_writeSector f i s k

theorem readAt_slice (f : File) {off n : Nat} (h : off + n ≤ size) : f.readAt off n = slice f.contents off n := by
  apply List.ext_getElem?
  intro i
  by_cases hi : i < n
  · rw [File.getElem?_readAt f off n hi, slice, List.getElem?_take_of_lt hi, List.getElem?_drop,
      List.getElem?_eq_getElem (by rw [List.length_ofFn]; omega), List.getElem_ofFn]
    rfl
  · rw [List.getElem?_eq_none (by rw [File.length_readAt]; omega),
      List.getElem?_eq_none (by rw [slice, List.length_take]; omega)]

theorem slice_end (c : Contents) {off n : Nat} (h : size - off ≤ n) : slice c off n = slice c off (size - off) := by
  have hlen : ((List.ofFn c).drop off).length = size - off := by rw [List.length_drop, List.length_ofFn]
  rw [slice, slice, List.take_of_length_le (by omega), List.take_of_length_le (by omega)]

/-! ## Reads and writes at any offset -/

inductive IoErr where
  | eof
  /-- `ErrWriteBeyondBlobBounds` -/
  | beyondBounds
  | negativeOffset
  /-- the file is gone -/
  | notExist
  /-- the file was closed -/
  | fileClosed
  | tx (e : TxErr)
  deriving DecidableEq, Repr

def ReadErr.io : ReadErr → IoErr
  | .eof => .eof
  | .tx e => .tx e

/-- `WriteBlobAt`: the count, the error, the caller's slice and the file after it. Past the end
    the part that fits is written, and as much of the caller's slice becomes zero. -/
def writeBlobAt (f : File) (p : Bytes) (off : Int) : (Nat × Option IoErr × Bytes) × File :=
  if off > size then ((0, some .beyondBounds, p), f)
  else if p.length + off > size then
    let n := (size - off).toNat
    let p' := List.replicate n 0 ++ p.drop n
    if off < 0 then ((0, some .negativeOffset, p'), f)
    else ((n, some .beyondBounds, p'), f.writeAt off.toNat (p.take n))
  else if off < 0 then ((0, some .negativeOffset, p), f)
  else ((p.length, none, p), f.writeAt off.toNat p)

namespace Tx

/-- `ReadAt` at any offset. -/
def readFrom (t : Tx) (b : File) (n : Nat) (off : Int) : (Bytes × Option IoErr) × Tx :=
  if off < 0 ∧ t.closed = false ∧ t.removed = false then (([], some .negativeOffset), t.lazyInitialize b)
  else
    let r := t.readAt b n off.toNat
    ((r.1.1, r.1.2.map ReadErr.io), r.2)

/-- `ReadSector`, of the first 256 sectors. -/
def readSector (t : Tx) (b : File) (id : UInt8) : (Sector × Option IoErr) × Tx :=
  if t.closed then ((zeroSector, some (.tx .closed)), t)
  else if t.removed then ((zeroSector, some (.tx .removed)), t)
  else (((t.view b).sectorAt id.toNat, none), t.lazyInitialize b)

def writeAt (t : Tx) (b : File) (p : Bytes) (off : Int) : (Nat × Option IoErr × Bytes) × Tx :=
  if t.closed then ((0, some (.tx .closed), p), t)
  else if t.removed then ((0, some (.tx .removed), p), t)
  else
    let r := writeBlobAt (t.view b) p off
    (r.1, { t.lazyInitialize b with f := r.2 })

end Tx

theorem readBlobAt_slice (f : File) (n off : Nat) :
    readBlobAt f n off = (slice f.contents off n, if off > size ∨ n + off > size then some .eof else none) := by
  unfold readBlobAt
  by_cases h1 : off > size
  · have hnil : slice f.contents off n = [] := by
      rw [slice, List.drop_eq_nil_of_le (by rw [List.length_ofFn]; omega), List.take_nil]
    rw [if_pos h1, if_pos (.inl h1), hnil]
  · rw [if_neg h1]
    by_cases h2 : n + off > size
    · rw [if_pos h2, if_pos (.inr h2), readAt_slice f (by omega), slice_end f.contents (show size - off ≤ n by omega)]
    · rw [if_neg h2, if_neg (by omega), readAt_slice f (by omega)]

/-- What a write at an offset puts over the contents: the bytes that are in the blob, and nothing
    at a negative offset. -/
def ownWrites (p : Bytes) (off : Int) : List (Fin size × UInt8) := if off < 0 then [] else writesAt off.toNat p

theorem contents_writeBlobAt (f : File) (p : Bytes) (off : Int) :
    (writeBlobAt f p off).2.contents = overlay f.contents (ownWrites p off) := by
  by_cases hneg : off < 0
  · have hown : ownWrites p off = [] := if_pos hneg
    rw [hown, writeBlobAt, if_neg (by omega)]
    simp only [hneg, if_true]
    split <;> rfl
  have hown : ownWrites p off = writesAt off.toNat p := if_neg hneg
  rw [hown]
  by_cases h1 : off > size
  · rw [writeBlobAt, if_pos h1]
    funext k
    have hk := k.2
    rw [overlay_writesAt, if_neg (by omega)]
  by_cases h2 : p.length + off > size
  · simp only [writeBlobAt, h1, h2, hneg, if_true, if_false, contents_writeAt]
    funext k
    have hk := k.2
    simp only [overlay_writesAt, List.length_take]
    by_cases hin : off.toNat ≤ k.1 ∧ k.1 < off.toNat + p.length
    · have hlt : k.1 - off.toNat < (size - off).toNat := by omega
      rw [if_pos hin, if_pos (by omega), List.getD_eq_getElem?_getD, List.getElem?_take_of_lt hlt,
        List.getD_eq_getElem?_getD]
    · rw [if_neg hin, if_neg (by omega)]
  · simp only [writeBlobAt, h1, h2, hneg, if_false]
    exact contents_writeAt f off.toNat p

end Fnd.Blob

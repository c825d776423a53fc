/-
  Fnd.Blob.Stream — reading and writing a blob through callers' buffers (`ReadBlobAt`,
  `WriteBlobAt`, `Reader` and `Writer` of `blob/io.go`), over the blob's own file or a
  transaction.

  Three layers cut a read off at `size`: the reader, `ReadBlobAt` under it and the file, which
  has that many bytes. They agree: a sequence of reads gives the blob from its start, each
  buffer full until the last, and the end of the file after that (`streaming_reads`).

  Writing has a copy of the reader's branch for the end of the blob. There `Writer.Write` puts
  the zeros of a fresh buffer in the blob, not the caller's bytes, and copies them over the
  caller's slice; `WriteBlobAt` writes the right bytes, and then does the same to the slice.
  What was given is stored, and left alone, exactly when the part of it that reaches the end
  of the blob is zero anyway (`streaming_writes_iff`).
-/

import Mathlib.Algebra.Ring.Nat
import Fnd.Blob.Bytes

namespace Fnd.Blob

open Snapshot (overlay)

/-- Go's `copy(dst, src)`: the destination after it. -/
def copyInto (dst src : Bytes) : Bytes := src.take dst.length ++ dst.drop src.length

/-- What a call on a caller's buffer returns, and the buffer after it. -/
structure Io where
  n : Nat
  err : Option IoErr
  buf : Bytes
  deriving DecidableEq

/-! ## Reading -/

/-- `os.File.ReadAt`, of a file of `size` bytes. -/
def File.osReadAt (f : File) (p : Bytes) (off : Nat) : Io :=
  let n := min p.length (size - off)
  ⟨n, if n < p.length then some .eof else none, f.readAt off n ++ p.drop n⟩

/-- `ReadBlobAt`, with the buffer. -/
def readBlobAtInto (f : File) (b : Bytes) (off : Nat) : Io :=
  if off > size then ⟨0, some .eof, b⟩
  else if b.length + off > size then
    let r := f.osReadAt (List.replicate (size - off) 0) off
    ⟨r.n, some (r.err.getD .eof), copyInto b r.buf⟩
  else f.osReadAt b off

/-- An `io.Reader`, and itself after the call. -/
abbrev IoReader (ρ : Type) := ρ → Bytes → Io × ρ

/-- An `io.ReaderAt`, and itself after the call. -/
abbrev ReaderAt (σ : Type) := σ → Bytes → Nat → Io × σ

structure Reader (σ : Type) where
  r : σ
  offset : Nat

namespace Reader

variable {σ : Type}

/-- `NewReader`. -/
def new (r : σ) : Reader σ := ⟨r, 0⟩

def read (readAt : ReaderAt σ) (b : Reader σ) (p : Bytes) : Io × Reader σ :=
  if b.offset ≥ size then (⟨0, some .eof, p⟩, b)
  else
    let remaining := size - b.offset
    if remaining < p.length then
      let r := readAt b.r (List.replicate remaining 0) b.offset
      ({ r.1 with buf := copyInto p r.1.buf }, ⟨r.2, b.offset + r.1.n⟩)
    else
      let r := readAt b.r p b.offset
      (r.1, ⟨r.2, b.offset + r.1.n⟩)

/-- Read after read, into these buffers. -/
def reads (readAt : ReaderAt σ) : Reader σ → List Bytes → List Io
  | _, [] => []
  | b, p :: ps => (b.read readAt p).1 :: reads readAt (b.read readAt p).2 ps

end Reader

/-- `blobImpl.ReadAt`. -/
def blobReadAt : ReaderAt File := fun f p off => (readBlobAtInto f p off, f)

/-- `txImpl.ReadAt`, of a transaction and the blob it is on. -/
def txReadAt : ReaderAt (Tx × File) := fun s p off =>
  if s.1.closed then (⟨0, some (.tx .closed), p⟩, s)
  else if s.1.removed then (⟨0, some (.tx .removed), p⟩, s)
  else (readBlobAtInto (s.1.view s.2) p off, (s.1.lazyInitialize s.2, s.2))

/-- What the caller of a reader has got. -/
def output (rs : List Io) : Bytes := rs.flatMap fun r => r.buf.take r.n

/-- What reading into `p` at an offset of the blob fills: the bytes up to the end of buffer or
    blob; the rest of the buffer stays. -/
def filled (f : File) (p : Bytes) (off : Nat) : Bytes := slice f.contents off p.length ++ p.drop (min p.length (size - off))

/-- Each buffer is filled from where the last one ended; nothing is left once `size` bytes are
    delivered. -/
def Delivers (f : File) : Nat → List (Bytes × Io) → Prop
  | _, [] => True
  | delivered, (p, r) :: rest =>
    (r = if delivered < size then ⟨min p.length (size - delivered), none, filled f p delivered⟩ else ⟨0, some .eof, p⟩) ∧
    Delivers f (delivered + r.n) rest

theorem length_slice (c : Contents) (off n : Nat) : (slice c off n).length = min n (size - off) := by
  rw [slice, List.length_take, List.length_drop, List.length_ofFn]

theorem osReadAt_filled (f : File) (p : Bytes) (off : Nat) :
    f.osReadAt p off =
      ⟨min p.length (size - off), if off + p.length > size ∧ 0 < p.length then some .eof else none, filled f p off⟩ := by
  have hslice : f.readAt off (min p.length (size - off)) = slice f.contents off p.length := by
    by_cases h : off ≤ size
    · rw [readAt_slice f (by omega)]
      by_cases hp : p.length ≤ size - off
      · rw [Nat.min_eq_left hp]
      · rw [Nat.min_eq_right (by omega), ← slice_end f.contents (show size - off ≤ p.length by omega)]
    · have h0 : min p.length (size - off) = 0 := by omega
      rw [h0]
      apply (List.length_eq_zero_iff.mp (File.length_readAt f off 0)).trans
      exact (List.length_eq_zero_iff.mp (by rw [length_slice]; omega)).symm
  have herr : min p.length (size - off) < p.length ↔ off + p.length > size ∧ 0 < p.length := by omega
  simp only [File.osReadAt, hslice, herr, filled]

theorem copyInto_filled (f : File) {p : Bytes} {off : Nat} (h : size - off ≤ p.length) :
    copyInto p (filled f (List.replicate (size - off) 0) off) = filled f p off := by
  have hlen : (List.replicate (size - off) (0 : UInt8)).length = size - off := List.length_replicate
  have hfresh : filled f (List.replicate (size - off) 0) off = slice f.contents off (size - off) := by
    rw [filled, hlen, Nat.min_self, List.drop_eq_nil_of_le (by omega), List.append_nil]
  have hs : (slice f.contents off (size - off)).length = size - off := by rw [length_slice]; omega
  rw [hfresh, copyInto, hs, List.take_of_length_le (by omega), filled, Nat.min_eq_right h, slice_end f.contents h]

theorem readBlobAtInto_eq (f : File) (b : Bytes) (off : Nat) :
    readBlobAtInto f b off =
      ⟨min b.length (size - off), if off + b.length > size then some .eof else none, filled f b off⟩ := by
  unfold readBlobAtInto
  by_cases h1 : off > size
  · have h0 : min b.length (size - off) = 0 := by omega
    have hnil : slice f.contents off b.length = [] := List.length_eq_zero_iff.mp (by rw [length_slice]; omega)
    rw [if_pos h1, filled, h0, hnil, if_pos (by omega)]
    rfl
  rw [if_neg h1]
  by_cases h2 : b.length + off > size
  · simp only [if_pos h2, osReadAt_filled, List.length_replicate, Nat.min_self,
      copyInto_filled f (show size - off ≤ b.length by omega)]
    rw [if_neg (by omega), if_pos (by omega), Nat.min_eq_right (by omega)]
    rfl
  · rw [if_neg h2, osReadAt_filled, if_neg (by omega), if_neg (by omega)]

section Serves

variable {σ : Type} {readAt : ReaderAt σ} {P : σ → Prop} {f : File}

/-- From a state in `P` on, the source reads as the file does. -/
structure Serves (readAt : ReaderAt σ) (P : σ → Prop) (f : File) : Prop where
  reads : ∀ s p off, P s → (readAt s p off).1 = readBlobAtInto f p off
  keeps : ∀ s p off, P s → P (readAt s p off).2

theorem serves_blob (f : File) : Serves blobReadAt (· = f) f :=
  ⟨fun _ _ _ h => h ▸ rfl, fun _ _ _ h => h⟩

theorem serves_tx (f : File) : Serves txReadAt (fun s => s.1.Live ∧ s.1.view s.2 = f) f := by
  constructor
  · intro s p off ⟨hlive, hview⟩
    simp only [txReadAt, hlive.1, hlive.2, Bool.false_eq_true, if_false, hview]
  · intro s p off ⟨hlive, hview⟩
    simp only [txReadAt, hlive.1, hlive.2, Bool.false_eq_true, if_false]
    exact ⟨hlive.lazyInitialize s.2, (Tx.view_lazyInitialize _ _ _).trans hview⟩

theorem Serves.read (h : Serves readAt P f) {b : Reader σ} (hb : P b.r) (p : Bytes) :
    (b.read readAt p).1 = (if b.offset < size then ⟨min p.length (size - b.offset), none, filled f p b.offset⟩
      else ⟨0, some .eof, p⟩) ∧
    P (b.read readAt p).2.r ∧ (b.read readAt p).2.offset = b.offset + (b.read readAt p).1.n := by
  by_cases hend : b.offset ≥ size
  · simp only [Reader.read, if_pos hend, if_neg (Nat.not_lt.mpr hend)]
    exact ⟨trivial, hb, rfl⟩
  · rw [if_pos (Nat.not_le.mp hend)]
    by_cases hshort : size - b.offset < p.length
    · simp only [Reader.read, if_neg hend, if_pos hshort, h.reads _ _ _ hb, readBlobAtInto_eq, List.length_replicate,
        Nat.min_self, copyInto_filled f (Nat.le_of_lt hshort), Nat.min_eq_right (Nat.le_of_lt hshort)]
      rw [if_neg (by omega)]
      exact ⟨rfl, h.keeps _ _ _ hb, trivial⟩
    · simp only [Reader.read, if_neg hend, if_neg hshort, h.reads _ _ _ hb, readBlobAtInto_eq]
      rw [if_neg (by omega)]
      exact ⟨rfl, h.keeps _ _ _ hb, trivial⟩

theorem Serves.delivers (h : Serves readAt P f) : ∀ (ps : List Bytes) (b : Reader σ), P b.r →
    (b.reads readAt ps).length = ps.length ∧ Delivers f b.offset (ps.zip (b.reads readAt ps)) := by
  intro ps
  induction ps with
  | nil => intro b _; exact ⟨rfl, trivial⟩
  | cons p ps ih =>
    intro b hb
    obtain ⟨hread, hkeep, hoff⟩ := h.read hb p
    obtain ⟨hlen, hrest⟩ := ih (b.read readAt p).2 hkeep
    refine ⟨congrArg (· + 1) hlen, hread, ?_⟩
    rw [← hoff]
    exact hrest

end Serves

theorem slice_zero (c : Contents) (n : Nat) : slice c 0 n = (List.ofFn c).take n := by rw [slice, List.drop_zero]

theorem slice_append (c : Contents) (off n m : Nat) : slice c off n ++ slice c (off + n) m = slice c off (n + m) := by
  rw [slice, slice, slice, ← List.drop_drop, List.take_add]

/-- What is delivered, one buffer after another, is a slice of the blob. -/
theorem Delivers.output {f : File} : ∀ {ps : List Bytes} {rs : List Io} {delivered : Nat}, rs.length = ps.length →
    delivered ≤ size → Delivers f delivered (ps.zip rs) →
    output rs = slice f.contents delivered (ps.map List.length).sum := by
  intro ps
  induction ps with
  | nil =>
    intro rs delivered hlen _ _
    rw [List.length_eq_zero_iff.mp hlen]
    simp [Blob.output, slice]
  | cons p ps ih =>
    intro rs delivered hlen hle h
    cases rs with
    | nil => cases hlen
    | cons r rs =>
      obtain ⟨hr, hrest⟩ := h
      have htake : r.buf.take r.n = slice f.contents delivered p.length ∧
          delivered + r.n = delivered + min p.length (size - delivered) := by
        rw [hr]
        split
        · refine ⟨?_, rfl⟩
          rw [filled, List.take_left' (length_slice _ _ _)]
        · refine ⟨?_, by simp only; omega⟩
          rw [List.take_zero]
          exact (List.length_eq_zero_iff.mp (by rw [length_slice]; omega)).symm
      have hout : Blob.output (r :: rs) = r.buf.take r.n ++ Blob.output rs := List.flatMap_cons
      rw [hout, htake.1, ih (by simpa using hlen) (by omega) hrest, htake.2, List.map_cons, List.sum_cons]
      by_cases hp : p.length ≤ size - delivered
      · rw [Nat.min_eq_left hp, slice_append]
      · -- the blob ends in this buffer
        have hnil : slice f.contents (delivered + min p.length (size - delivered)) (ps.map List.length).sum = [] :=
          List.length_eq_zero_iff.mp (by rw [length_slice]; omega)
        rw [hnil, List.append_nil, slice_end f.contents (by omega),
          ← slice_end f.contents (show size - delivered ≤ p.length + _ by omega)]

/-- What a reader returns for these buffers: as much of the blob as they hold, in order. -/
structure ReturnsBlob (f : File) (ps : List Bytes) (rs : List Io) : Prop where
  length : rs.length = ps.length
  calls : Delivers f 0 (ps.zip rs)
  output : output rs = (List.ofFn f.contents).take (ps.map List.length).sum

theorem Serves.returnsBlob {σ : Type} {readAt : ReaderAt σ} {P : σ → Prop} {f : File} (h : Serves readAt P f) {s : σ}
    (hs : P s) (ps : List Bytes) : ReturnsBlob f ps ((Reader.new s).reads readAt ps) := by
  obtain ⟨hlen, hcalls⟩ := h.delivers ps (Reader.new s) hs
  refine ⟨hlen, hcalls, ?_⟩
  rw [hcalls.output hlen (Nat.zero_le _), ← slice_zero]

/-- Any buffers, over a blob or a transaction in use; and a single read at any offset. -/
theorem streaming_reads (f : File) :
    (∀ ps, ReturnsBlob f ps ((Reader.new f).reads blobReadAt ps)) ∧
    (∀ (t : Tx) (b : File) (ps : List Bytes), t.Live → t.view b = f →
      ReturnsBlob f ps ((Reader.new (t, b)).reads txReadAt ps)) ∧
    ∀ (b : Bytes) (off : Nat), readBlobAtInto f b off =
      ⟨min b.length (size - off), if off + b.length > size then some .eof else none,
        slice f.contents off b.length ++ b.drop (min b.length (size - off))⟩ :=
  ⟨fun ps => (serves_blob f).returnsBlob rfl ps, fun _ _ ps hlive hview => (serves_tx f).returnsBlob ⟨hlive, hview⟩ ps,
    readBlobAtInto_eq f⟩

/-! ## Writing -/

/-- An `io.WriterAt`, and itself after the call. -/
abbrev WriterAt (σ : Type) := σ → Bytes → Nat → Io × σ

structure Writer (σ : Type) where
  w : σ
  offset : Nat

namespace Writer

variable {σ : Type}

/-- `NewWriter`. -/
def new (w : σ) : Writer σ := ⟨w, 0⟩

def write (writeAt : WriterAt σ) (w : Writer σ) (p : Bytes) : Io × Writer σ :=
  if w.offset ≥ size then (⟨0, some .eof, p⟩, w)
  else
    let remaining := size - w.offset
    if remaining < p.length then
      let r := writeAt w.w (List.replicate remaining 0) w.offset
      ({ r.1 with buf := copyInto p r.1.buf }, ⟨r.2, w.offset + r.1.n⟩)
    else
      let r := writeAt w.w p w.offset
      (r.1, ⟨r.2, w.offset + r.1.n⟩)

/-- Write after write, of these slices. -/
def writes (writeAt : WriterAt σ) : Writer σ → List Bytes → List Io × Writer σ
  | w, [] => ([], w)
  | w, p :: ps =>
    let r := w.write writeAt p
    let rest := writes writeAt r.2 ps
    (r.1 :: rest.1, rest.2)

end Writer

/-- `txImpl.WriteAt`, of a transaction and the blob it is on. -/
def txWriteAt : WriterAt (Tx × File) := fun s p off =>
  let r := s.1.writeAt s.2 p off
  (⟨r.1.1, r.1.2.1, r.1.2.2⟩, (r.2, s.2))

/-- The bytes `p`, cut off at the end of the blob, lie over the contents at an offset; the rest is
    as it was. -/
def Covers (off : Nat) (p : Bytes) (before after : Contents) : Prop :=
  ∀ k, after k = if off ≤ k ∧ k < off + p.length then p.getD (k - off) 0 else before k

/-- The slices are stored one after another from the start of the blob, the counts add up to what
    was stored, and the callers' slices are as they were. -/
structure StoresGiven (ps : List Bytes) (rs : List Io) (before after : Contents) : Prop where
  covers : Covers 0 ps.flatten before after
  counts : (rs.map Io.n).sum = min ps.flatten.length size
  slices : rs.map Io.buf = ps

/-- Of a slice that goes past the end of the blob, what is in the blob is zero. -/
def ZeroAtEnd : Nat → List Bytes → Prop
  | _, [] => True
  | off, p :: ps =>
    (off < size → size < off + p.length → p.take (size - off) = List.replicate (size - off) 0) ∧
    ZeroAtEnd (off + p.length) ps

theorem Tx.Live.writeAt_inside {t : Tx} (ht : t.Live) (b : File) (p : Bytes) (off : Nat) (h : off + p.length ≤ size) :
    ∃ t', t.writeAt b p off = ((p.length, none, p), t') ∧ t'.Live ∧
      Covers off p (t.view b).contents (t'.view b).contents := by
  have h1 : ¬ (off : Int) > size := by omega
  have h2 : ¬ (p.length : Int) + off > size := by omega
  have h3 : ¬ (off : Int) < 0 := by omega
  have hw : writeBlobAt (t.view b) p off = ((p.length, none, p), (t.view b).writeAt off p) := by
    simp only [writeBlobAt, h1, h2, h3, if_false, Int.toNat_natCast]
  have hlive := ht.lazyInitialize b
  refine ⟨{ t.lazyInitialize b with f := (t.view b).writeAt off p }, ?_, ⟨hlive.1, hlive.2⟩, fun k => ?_⟩
  · simp only [Tx.writeAt, ht.1, ht.2, Bool.false_eq_true, if_false, hw]
  · have hview : Tx.view { t.lazyInitialize b with f := (t.view b).writeAt off p } b = (t.view b).writeAt off p :=
      if_pos (Tx.lazyInitialize_initialized t b)
    rw [hview, contents_writeAt]
    exact overlay_writesAt p off _ k

theorem Covers.zeros {off n : Nat} {c c' : Contents} (h : Covers off (List.replicate (size - off) 0) c c')
    (hn : size ≤ off + n) : Covers off (List.replicate n 0) c c' := by
  intro k
  have hk := k.2
  rw [h k, List.length_replicate, List.length_replicate]
  by_cases hin : off ≤ k.1
  · rw [if_pos ⟨hin, by omega⟩, if_pos ⟨hin, by omega⟩, List.getD_eq_getElem?_getD, List.getD_eq_getElem?_getD,
      List.getElem?_replicate, List.getElem?_replicate, if_pos (by omega), if_pos (by omega)]
  · rw [if_neg (fun h => hin h.1), if_neg (fun h => hin h.1)]

/-- One write, by where the slices so far have ended: at `off`, which may be past the blob. Where
    this slice crosses the end, zeros are written. -/
theorem Writer.write_spec {t : Tx} (ht : t.Live) (b : File) {w : Writer (Tx × File)} (hw : w.w = (t, b)) {off : Nat}
    (hoff : w.offset = min off size) (p : Bytes) :
    ∃ t', (w.write txWriteAt p).2 = ⟨(t', b), min (off + p.length) size⟩ ∧ t'.Live ∧
      (w.write txWriteAt p).1.n = min (off + p.length) size - min off size ∧
      (w.write txWriteAt p).1.buf =
        (if off < size ∧ size < off + p.length then copyInto p (List.replicate (size - off) 0) else p) ∧
      Covers off (if size < off + p.length then List.replicate p.length 0 else p) (t.view b).contents (t'.view b).contents := by
  by_cases hend : off ≥ size
  · have hfull : w.offset ≥ size := by omega
    have hwrite : w.write txWriteAt p = (⟨0, some .eof, p⟩, w) := by simp only [Writer.write, if_pos hfull]
    refine ⟨t, ?_, ht, ?_, ?_, fun k => ?_⟩
    · have hw' : w = ⟨w.w, w.offset⟩ := rfl
      rw [hwrite, hw', hw, hoff, Nat.min_eq_right hend, Nat.min_eq_right (by omega)]
    · rw [hwrite, Nat.min_eq_right hend, Nat.min_eq_right (by omega), Nat.sub_self]
    · rw [hwrite, if_neg (by omega)]
    · have hk := k.2
      rw [if_neg (by omega)]
  have hlt : off < size := Nat.not_le.mp hend
  have ho : w.offset = off := by omega
  by_cases hcross : size < off + p.length
  · obtain ⟨t', hwa, hlive, hcov⟩ := ht.writeAt_inside b (List.replicate (size - off) 0) off
      (by rw [List.length_replicate]; omega)
    rw [List.length_replicate] at hwa
    have hwrite : w.write txWriteAt p =
        (⟨size - off, none, copyInto p (List.replicate (size - off) 0)⟩, ⟨(t', b), off + (size - off)⟩) := by
      simp only [Writer.write, ho, if_neg hend, if_pos (show size - off < p.length by omega), txWriteAt, hw, hwa]
    refine ⟨t', ?_, hlive, ?_, ?_, ?_⟩
    · rw [hwrite, Nat.min_eq_right (Nat.le_of_lt hcross), Nat.add_sub_cancel' (Nat.le_of_lt hlt)]
    · rw [hwrite, Nat.min_eq_right (Nat.le_of_lt hcross), Nat.min_eq_left (Nat.le_of_lt hlt)]
    · rw [hwrite, if_pos ⟨hlt, hcross⟩]
    · rw [if_pos hcross]
      exact hcov.zeros (Nat.le_of_lt hcross)
  · obtain ⟨t', hwa, hlive, hcov⟩ := ht.writeAt_inside b p off (Nat.not_lt.mp hcross)
    have hwrite : w.write txWriteAt p = (⟨p.length, none, p⟩, ⟨(t', b), off + p.length⟩) := by
      simp only [Writer.write, ho, if_neg hend, if_neg (show ¬ size - off < p.length by omega), txWriteAt, hw, hwa]
    refine ⟨t', ?_, hlive, ?_, ?_, ?_⟩
    · rw [hwrite, Nat.min_eq_left (Nat.not_lt.mp hcross)]
    · rw [hwrite, Nat.min_eq_left (Nat.not_lt.mp hcross), Nat.min_eq_left (Nat.le_of_lt hlt), Nat.add_sub_cancel_left]
    · rw [hwrite, if_neg (fun h => hcross h.2)]
    · rw [if_neg hcross]
      exact hcov

theorem Covers.append {off : Nat} {p q : Bytes} {c c' c'' : Contents} (hp : Covers off p c c')
    (hq : Covers (off + p.length) q c' c'') : Covers off (p ++ q) c c'' := by
  intro k
  rw [hq k, hp k, List.length_append, List.getD_eq_getElem?_getD, List.getD_eq_getElem?_getD, List.getD_eq_getElem?_getD]
  by_cases h1 : off + p.length ≤ k.1 ∧ k.1 < off + p.length + q.length
  · have hidx : k.1 - (off + p.length) = k.1 - off - p.length := by omega
    rw [if_pos h1, if_pos (by omega), List.getElem?_append_right (by omega), hidx]
  · rw [if_neg h1]
    by_cases h2 : off ≤ k.1 ∧ k.1 < off + p.length
    · rw [if_pos h2, if_pos (by omega), List.getElem?_append_left (by omega)]
    · rw [if_neg h2, if_neg (by omega)]

theorem covers_nil (off : Nat) (c : Contents) : Covers off [] c c := by
  intro k
  rw [if_neg (by rw [List.length_nil]; omega)]

theorem Covers.of_zero {off : Nat} {p : Bytes} {c c' : Contents} (h : Covers off (List.replicate p.length 0) c c')
    (hp : p.take (size - off) = List.replicate (size - off) 0) : Covers off p c c' := by
  intro k
  have hk := k.2
  rw [h k, List.length_replicate]
  by_cases hin : off ≤ k.1 ∧ k.1 < off + p.length
  · have hzero : p[k.1 - off]? = some 0 := by
      rw [← List.getElem?_take_of_lt (show k.1 - off < size - off by omega), hp, List.getElem?_replicate, if_pos (by omega)]
    rw [if_pos hin, if_pos hin, List.getD_eq_getElem?_getD, List.getD_eq_getElem?_getD, hzero, List.getElem?_replicate,
      if_pos (by omega)]
  · rw [if_neg hin, if_neg hin]

theorem copyInto_zero_iff {p : Bytes} {n : Nat} (h : n ≤ p.length) :
    copyInto p (List.replicate n 0) = p ↔ p.take n = List.replicate n 0 := by
  rw [copyInto, List.length_replicate, List.take_of_length_le (by rw [List.length_replicate]; exact h)]
  constructor
  · intro heq
    rw [← heq, List.take_left' List.length_replicate]
  · intro htake
    rw [← htake, List.take_append_drop]

/-- Where the slices are zero at the end of the blob, all is as it should be. -/
theorem Writer.writes_store : ∀ (ps : List Bytes) {t : Tx} (b : File) {w : Writer (Tx × File)} {off : Nat}, t.Live →
    w.w = (t, b) → w.offset = min off size → ZeroAtEnd off ps →
    ∃ t', (w.writes txWriteAt ps).2.w = (t', b) ∧ t'.Live ∧
      Covers off ps.flatten (t.view b).contents (t'.view b).contents ∧
      ((w.writes txWriteAt ps).1.map Io.n).sum = min (off + ps.flatten.length) size - min off size ∧
      (w.writes txWriteAt ps).1.map Io.buf = ps := by
  intro ps
  induction ps with
  | nil =>
    intro t b w off ht hw _ _
    refine ⟨t, hw, ht, covers_nil off _, ?_, rfl⟩
    simp [Writer.writes]
  | cons p ps ih =>
    intro t b w off ht hw hoff ⟨hzero, hrest⟩
    obtain ⟨t', hw', hlive, hn, hbuf, hcov⟩ := Writer.write_spec ht b hw hoff p
    have hwrites : w.writes txWriteAt (p :: ps) =
        ((w.write txWriteAt p).1 :: ((w.write txWriteAt p).2.writes txWriteAt ps).1,
          ((w.write txWriteAt p).2.writes txWriteAt ps).2) := rfl
    obtain ⟨t'', hw'', hlive'', hcov'', hsum, hbufs⟩ := ih b (w := (w.write txWriteAt p).2) hlive
      (congrArg Writer.w hw') (congrArg Writer.offset hw') hrest
    have hcovp : Covers off p (t.view b).contents (t'.view b).contents := by
      by_cases hcross : size < off + p.length
      · rw [if_pos hcross] at hcov
        by_cases hlt : off < size
        · exact hcov.of_zero (hzero hlt hcross)
        · have h0 : size - off = 0 := by omega
          exact hcov.of_zero (by rw [h0]; rfl)
      · rw [if_neg hcross] at hcov
        exact hcov
    have hbufp : (w.write txWriteAt p).1.buf = p := by
      rw [hbuf]
      split
      · rename_i hcross
        exact (copyInto_zero_iff (by omega)).mpr (hzero hcross.1 hcross.2)
      · rfl
    refine ⟨t'', by rw [hwrites]; exact hw'', hlive'', hcovp.append hcov'', ?_, ?_⟩
    · rw [hwrites, List.map_cons, List.sum_cons, hn, hsum, List.flatten_cons, List.length_append]
      omega
    · rw [hwrites, List.map_cons, hbufp, hbufs]

theorem Writer.zeroAtEnd_of_slices : ∀ (ps : List Bytes) {t : Tx} (b : File) {w : Writer (Tx × File)} {off : Nat}, t.Live →
    w.w = (t, b) → w.offset = min off size → (w.writes txWriteAt ps).1.map Io.buf = ps → ZeroAtEnd off ps := by
  intro ps
  induction ps with
  | nil => intro t b w off _ _ _ _; trivial
  | cons p ps ih =>
    intro t b w off ht hw hoff hbufs
    obtain ⟨t', hw', hlive, -, hbuf, -⟩ := Writer.write_spec ht b hw hoff p
    have hcons : (w.write txWriteAt p).1.buf :: ((w.write txWriteAt p).2.writes txWriteAt ps).1.map Io.buf = p :: ps := hbufs
    obtain ⟨hhead, htail⟩ := List.cons.inj hcons
    refine ⟨fun hlt hcross => ?_, ih b hlive (congrArg Writer.w hw') (congrArg Writer.offset hw') htail⟩
    rw [hbuf, if_pos ⟨hlt, hcross⟩] at hhead
    exact (copyInto_zero_iff (by omega)).mp hhead

/-- `WriteBlobAt` within the blob and its end: the right bytes are written, and counted. -/
theorem writeBlobAt_stores (f : File) (p : Bytes) {off : Nat} (h : off ≤ size) :
    Covers off p f.contents (writeBlobAt f p off).2.contents ∧ (writeBlobAt f p off).1.1 = min p.length (size - off) ∧
    (writeBlobAt f p off).1.2.2 = if size < off + p.length then copyInto p (List.replicate (size - off) 0) else p := by
  have h1 : ¬ (off : Int) > size := by omega
  have h3 : ¬ (off : Int) < 0 := by omega
  refine ⟨fun k => ?_, ?_, ?_⟩
  · rw [contents_writeBlobAt, ownWrites, if_neg h3, Int.toNat_natCast]
    exact overlay_writesAt p off f.contents k
  · by_cases hcross : size < off + p.length
    · have h2 : (p.length : Int) + off > size := by omega
      simp only [writeBlobAt, h1, h2, h3, if_true, if_false]
      omega
    · have h2 : ¬ (p.length : Int) + off > size := by omega
      simp only [writeBlobAt, h1, h2, h3, if_false]
      omega
  · by_cases hcross : size < off + p.length
    · have h2 : (p.length : Int) + off > size := by omega
      have hn : ((size : Int) - off).toNat = size - off := by omega
      simp only [writeBlobAt, h1, h2, h3, if_true, if_false, hcross, hn]
      rw [copyInto, List.length_replicate, List.take_of_length_le (by rw [List.length_replicate]; omega)]
    · have h2 : ¬ (p.length : Int) + off > size := by omega
      simp only [writeBlobAt, h1, h2, h3, if_false, hcross]

/-- Slices written through a new writer to a transaction in use; and a single `WriteBlobAt`. -/
theorem streaming_writes_iff {t : Tx} (ht : t.Live) (b : File) :
    (∀ ps, (∃ t', ((Writer.new (t, b)).writes txWriteAt ps).2.w = (t', b) ∧
        StoresGiven ps ((Writer.new (t, b)).writes txWriteAt ps).1 (t.view b).contents (t'.view b).contents) ↔
      ZeroAtEnd 0 ps) ∧
    ∀ (f : File) (p : Bytes) (off : Nat), off ≤ size →
      ((Covers off p f.contents (writeBlobAt f p off).2.contents ∧ (writeBlobAt f p off).1.1 = min p.length (size - off) ∧
          (writeBlobAt f p off).1.2.2 = p) ↔
        (size < off + p.length → p.take (size - off) = List.replicate (size - off) 0)) := by
  constructor
  · intro ps
    constructor
    · intro ⟨_, _, hstores⟩
      exact Writer.zeroAtEnd_of_slices ps b ht rfl rfl hstores.slices
    · intro hzero
      obtain ⟨t', hw, -, hcov, hsum, hbufs⟩ := Writer.writes_store ps b (w := Writer.new (t, b)) ht rfl rfl hzero
      refine ⟨t', hw, hcov, ?_, hbufs⟩
      rw [hsum]
      omega
  · intro f p off hoff
    obtain ⟨hcov, hn, hbuf⟩ := writeBlobAt_stores f p hoff
    rw [hbuf]
    constructor
    · intro ⟨_, _, hslice⟩ hcross
      rw [if_pos hcross] at hslice
      exact (copyInto_zero_iff (by omega)).mp hslice
    · intro hzero
      refine ⟨hcov, hn, ?_⟩
      split
      · rename_i hcross
        exact (copyInto_zero_iff (by omega)).mpr (hzero hcross)
      · rfl

theorem streaming_writes_new :
    (Tx.new []).Live ∧ ∃ t', ((Writer.new (Tx.new [], File.zero)).writes txWriteAt [[1], [2, 3]]).2.w = (t', File.zero) ∧
      StoresGiven [[1], [2, 3]] ((Writer.new (Tx.new [], File.zero)).writes txWriteAt [[1], [2, 3]]).1
        ((Tx.new []).view File.zero).contents (t'.view File.zero).contents :=
  ⟨Tx.live_new _, ((streaming_writes_iff (Tx.live_new _) File.zero).1 _).mpr
    ⟨fun _ h => absurd h (by decide), fun _ h => absurd h (by decide), trivial⟩⟩

/-- One slice of ones, a byte longer than the blob: the blob is zero after it, and so is the slice
    but for its last byte. -/
theorem a_crossing_write_stores_zeros :
    ∃ r w, (Writer.new (Tx.new [], File.zero)).writes txWriteAt [List.replicate (size + 1) 1] = ([r], w) ∧
      ¬ Covers 0 (List.replicate (size + 1) 1) ((Tx.new []).view File.zero).contents (w.w.1.view File.zero).contents ∧
      r.buf ≠ List.replicate (size + 1) 1 := by
  obtain ⟨t', hw, -, -, hbuf, hcov⟩ :=
    Writer.write_spec (Tx.live_new []) File.zero (w := Writer.new (Tx.new [], File.zero)) rfl (show _ = min 0 size from rfl)
      (List.replicate (size + 1) 1)
  have hlen : size < 0 + (List.replicate (size + 1) (1 : UInt8)).length := by rw [List.length_replicate]; omega
  refine ⟨_, _, rfl, fun hones => ?_, fun hslice => ?_⟩
  · rw [if_pos hlen, List.length_replicate] at hcov
    rw [hw] at hones
    obtain ⟨k, hk⟩ : ∃ k : Fin size, k.1 = 0 := ⟨⟨0, by decide⟩, rfl⟩
    have hcount : ∀ x : UInt8, 0 ≤ k.1 ∧ k.1 < 0 + (List.replicate (size + 1) x).length := by
      intro x
      rw [List.length_replicate]
      omega
    have hone : (t'.view File.zero).contents k = 1 := by
      refine (hones k).trans ?_
      rw [if_pos (hcount 1), hk, List.replicate_succ]
      rfl
    have hzero := hcov k
    rw [hone, if_pos (hcount 0), hk, List.replicate_succ] at hzero
    exact absurd hzero (by decide)
  · rw [hbuf, if_pos ⟨by decide, hlen⟩, copyInto_zero_iff (by rw [List.length_replicate]; omega), List.take_replicate] at hslice
    have hmin : min (size - 0) (size + 1) = (size - 1) + 1 := by decide
    have hsub : size - 0 = (size - 1) + 1 := by decide
    rw [hmin, hsub, List.replicate_succ, List.replicate_succ] at hslice
    exact absurd (List.cons.inj hslice).1 (by decide)

end Fnd.Blob

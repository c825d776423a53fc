/-
  Fnd.Rpc.BlobReader — the client's reader of a remote blob (`rpc/blob_reader.go`): `Seek` and
  `Read` over the `ReadAt` of a server.

  `Read` relies on an offset in the blob: beyond its end the slice it takes has a negative
  length, and before its start the offset wraps to an `uint32`. `Seek` should keep the offset
  there, and each of its branches checks something else. From the start, the offset it comes
  from is checked and not the one it goes to. From the current offset, only the end of the blob
  is checked, after a sum that may wrap. From the end, only its start is, and the offset counts
  back from there, where `io.Seeker` has it count forward (`target_eq_seekerTarget_iff`).

  A reader stays in the blob, refuses what would leave it and reads what is there exactly along
  the calls whose `Seek`s these checks happen to cover (`reader_in_bounds_iff`). `Server.ReadAt`
  is such a server as long as no writer holds the name (`answers_readAt`).
-/

import Mathlib.Algebra.Group.Int.Defs
import Fnd.Lib.Machine
import Fnd.Rpc.ReadAt

namespace Fnd.Rpc

open Blob (size Contents slice copyInto)

inductive Whence where
  | start
  | current
  | end_
  deriving DecidableEq, Repr

/-- A call on the reader. A slice fits in the address space. -/
inductive Call where
  | seek (off : Int64) (whence : Whence)
  | read (p : Bytes) (len : p.length < 2 ^ 62)

inductive ReaderErr where
  | eof
  /-- "seek beyond blob bounds" -/
  | seekBeyond
  /-- "unequal read - should not happen" -/
  | unequalRead
  /-- an error of the server -/
  | server
  deriving DecidableEq, Repr

/-- What a call returns; `Read` with the caller's slice. -/
inductive Out where
  | sought (off : Int64) (err : Option ReaderErr)
  | got (n : Nat) (err : Option ReaderErr) (p : Bytes)
  | panic
  deriving DecidableEq

/-- The server's answers to an offset and a length. -/
abbrev Answer := UInt32 → UInt32 → Option Bytes

structure BlobReader where
  off : Int64
  deriving DecidableEq

namespace BlobReader

/-- `NewBlobReader`. -/
def new : BlobReader := ⟨0⟩

/-- `blob.Size` -/
def blobSize : Int64 := Int64.ofNat size

def readAt (answer : Answer) (p : Bytes) (off : Int64) : Nat × Option ReaderErr × Bytes :=
  match answer (UInt32.ofInt off.toInt) (UInt32.ofNat p.length) with
  | none => (0, some .server, p)
  | some data => (data.length, if data.length ≠ p.length then some .unequalRead else none, copyInto p data)

/-- How much `Read` asks for. -/
def toRead (b : BlobReader) (p : Bytes) : Int64 :=
  if b.off + Int64.ofNat p.length > blobSize then blobSize - b.off else Int64.ofNat p.length

def read (answer : Answer) (b : BlobReader) (p : Bytes) : Out × BlobReader :=
  if b.off = blobSize then (.got 0 (some .eof) p, b)
  -- `p[:toRead]` is out of range
  else if (b.toRead p).toInt < 0 then (.panic, b)
  else
    let toRead := (b.toRead p).toInt.toNat
    let r := readAt answer (p.take toRead) b.off
    (.got r.1 r.2.1 (r.2.2 ++ p.drop toRead), ⟨b.off + Int64.ofNat r.1⟩)

def seek (b : BlobReader) (off : Int64) : Whence → Out × BlobReader
  | .start => if b.off > blobSize then (.sought b.off (some .seekBeyond), b) else (.sought off none, ⟨off⟩)
  | .current =>
    let next := b.off + off
    if next > blobSize then (.sought b.off (some .seekBeyond), b) else (.sought next none, ⟨next⟩)
  | .end_ =>
    let next := blobSize - off
    if next < 0 then (.sought b.off (some .seekBeyond), b) else (.sought next none, ⟨next⟩)

def call (answer : Answer) (b : BlobReader) : Call → Out × BlobReader
  | .seek off whence => b.seek off whence
  | .read p _ => b.read answer p

def step (answer : Answer) (b : BlobReader) (c : Call) : BlobReader := (b.call answer c).2

def InBounds (b : BlobReader) : Prop := 0 ≤ b.off.toInt ∧ b.off.toInt ≤ size

def target (b : BlobReader) (off : Int64) : Whence → Int
  | .start => off.toInt
  | .current => b.off.toInt + off.toInt
  | .end_ => size - off.toInt

/-- Where `io.Seeker` has it go: from the end forward, not back. -/
def seekerTarget (b : BlobReader) (off : Int64) : Whence → Int
  | .end_ => size + off.toInt
  | whence => b.target off whence

/-- The two agree but for a seek from the end to another place. -/
theorem target_eq_seekerTarget_iff (b : BlobReader) (off : Int64) (whence : Whence) :
    b.target off whence = b.seekerTarget off whence ↔ (whence = .end_ → off.toInt = 0) := by
  cases whence with
  | start => exact iff_of_true rfl nofun
  | current => exact iff_of_true rfl nofun
  | end_ =>
    simp only [target, seekerTarget, true_imp_iff]
    omega

end BlobReader

open BlobReader (blobSize)

/-- The server answers every request in the blob. -/
def Answers (c : Contents) (answer : Answer) : Prop :=
  ∀ off len : UInt32, off.toNat + len.toNat ≤ size → answer off len = some (slice c off.toNat len.toNat)

/-- What a seek should do: go to its target if that is in the blob; else return an error and stay. -/
def SeeksTo (b : BlobReader) (target : Int) (r : Out × BlobReader) : Prop :=
  if 0 ≤ target ∧ target ≤ size then ∃ next : Int64, next.toInt = target ∧ r = (.sought next none, ⟨next⟩)
  else ∃ at_ err, r = (.sought at_ (some err), b)

/-- What a read at an offset should do: return the blob's bytes up to the length of the slice or
    the end of the blob, and io.EOF at the end. -/
def ReadsAt (c : Contents) (b : BlobReader) (off : Nat) (p : Bytes) (r : Out × BlobReader) : Prop :=
  if off = size then r = (.got 0 (some .eof) p, b)
  else r.1 = .got (min p.length (size - off)) none (slice c off p.length ++ p.drop (size - off)) ∧
    r.2.off.toInt = off + min p.length (size - off)

/-- A call that does what it should, with the reader in the blob afterwards. -/
def Lawful (c : Contents) (answer : Answer) (b : BlobReader) (e : Call) : Prop :=
  (b.step answer e).InBounds ∧
  match e with
  | .seek off whence => SeeksTo b (b.target off whence) (b.seek off whence)
  | .read p _ => ReadsAt c b b.off.toInt.toNat p (b.read answer p)

/-- What the checks of `Seek` cover. -/
def Covered (b : BlobReader) : Call → Prop
  | .seek off .start => 0 ≤ off.toInt ∧ off.toInt ≤ size
  | .seek off .current => 0 ≤ b.off.toInt + off.toInt ∧ b.off.toInt + off.toInt < 2 ^ 63
  | .seek off .end_ => 0 ≤ off.toInt ∨ off.toInt ≤ size - 2 ^ 63
  | .read _ _ => True

/-! ## Seeking -/

theorem size_eq : size = 1048576 := rfl

theorem toInt_blobSize : blobSize.toInt = size := Int64.toInt_ofNat_of_lt (by decide)

theorem bmod_cases {x : Int} (h : -2 ^ 64 ≤ x) (h' : x < 2 ^ 64) :
    (-2 ^ 63 ≤ x ∧ x < 2 ^ 63 ∧ x.bmod (2 ^ 64) = x) ∨ (2 ^ 63 ≤ x ∧ x.bmod (2 ^ 64) = x - 2 ^ 64) ∨
      (x < -2 ^ 63 ∧ x.bmod (2 ^ 64) = x + 2 ^ 64) := by
  have hcast : ((2 ^ 64 : Nat) : Int) = 18446744073709551616 := rfl
  rw [Int.bmod, hcast]
  split <;> omega

theorem bmod_of_lt {x : Int} (h : 0 ≤ x) (h' : x < 2 ^ 63) : x.bmod (2 ^ 64) = x := by
  rcases bmod_cases (x := x) (by omega) (by omega) with ⟨-, -, heq⟩ | ⟨hwraps, -⟩ | ⟨hwraps, -⟩
  · exact heq
  · omega
  · omega

section Lawful

variable {c : Contents} {answer : Answer} {b : BlobReader} {off : Int64} {whence : Whence}

theorem lawful_of_moved {next : Int64} (h : b.seek off whence = (.sought next none, ⟨next⟩)) :
    Lawful c answer b (.seek off whence) ↔
      0 ≤ b.target off whence ∧ b.target off whence ≤ size ∧ next.toInt = b.target off whence := by
  have hstep : b.step answer (.seek off whence) = ⟨next⟩ := congrArg Prod.snd h
  rw [Lawful, hstep, SeeksTo, h]
  refine ⟨fun ⟨_, hseek⟩ => ?_, fun ⟨h0, hsize, hto⟩ => ?_⟩
  · split at hseek
    · rename_i hin
      obtain ⟨_, hto, heq⟩ := hseek
      cases heq
      exact ⟨hin.1, hin.2, hto⟩
    · obtain ⟨_, _, heq⟩ := hseek
      cases heq
  · refine ⟨⟨hto ▸ h0, hto ▸ hsize⟩, ?_⟩
    rw [if_pos ⟨h0, hsize⟩]
    exact ⟨next, hto, rfl⟩

/-- A seek that is refused is right if its target is not in the blob. -/
theorem lawful_of_refused (hb : b.InBounds) (h : b.seek off whence = (.sought b.off (some .seekBeyond), b)) :
    Lawful c answer b (.seek off whence) ↔ ¬ (0 ≤ b.target off whence ∧ b.target off whence ≤ size) := by
  have hstep : b.step answer (.seek off whence) = b := congrArg Prod.snd h
  rw [Lawful, hstep, SeeksTo, h]
  refine ⟨fun ⟨_, hseek⟩ hin => ?_, fun hout => ⟨hb, ?_⟩⟩
  · rw [if_pos hin] at hseek
    obtain ⟨_, _, heq⟩ := hseek
    cases heq
  · rw [if_neg hout]
    exact ⟨b.off, .seekBeyond, rfl⟩

theorem seek_start_iff (hb : b.InBounds) :
    Lawful c answer b (.seek off .start) ↔ 0 ≤ off.toInt ∧ off.toInt ≤ size := by
  have hseek : b.seek off .start = (.sought off none, ⟨off⟩) := by
    refine if_neg fun hgt => ?_
    have hgt := Int64.lt_iff_toInt_lt.mp hgt
    rw [toInt_blobSize] at hgt
    exact absurd hb.2 (by omega)
  rw [lawful_of_moved hseek, BlobReader.target]
  exact ⟨fun ⟨h0, h, _⟩ => ⟨h0, h⟩, fun ⟨h0, h⟩ => ⟨h0, h, rfl⟩⟩

theorem seek_current_iff (hb : b.InBounds) :
    Lawful c answer b (.seek off .current) ↔
      0 ≤ b.off.toInt + off.toInt ∧ b.off.toInt + off.toInt < 2 ^ 63 := by
  have hsize := size_eq
  have hlow := off.le_toInt
  have hhigh := off.toInt_lt
  obtain ⟨h0, hle⟩ := hb
  have hnext : (b.off + off).toInt = _ := Int64.toInt_add b.off off
  by_cases hgt : b.off + off > blobSize
  · have hseek : b.seek off .current = (.sought b.off (some .seekBeyond), b) := if_pos hgt
    have hgt := Int64.lt_iff_toInt_lt.mp hgt
    rw [toInt_blobSize, hnext] at hgt
    rw [lawful_of_refused ⟨h0, hle⟩ hseek, BlobReader.target]
    rcases bmod_cases (x := b.off.toInt + off.toInt) (by omega) (by omega) with ⟨_, _, heq⟩ | ⟨_, heq⟩ | ⟨_, heq⟩ <;> omega
  · have hseek : b.seek off .current = (.sought (b.off + off) none, ⟨b.off + off⟩) := if_neg hgt
    have hgt : ¬ blobSize.toInt < (b.off + off).toInt := fun h => hgt (Int64.lt_iff_toInt_lt.mpr h)
    rw [toInt_blobSize, hnext] at hgt
    rw [lawful_of_moved hseek, BlobReader.target, hnext]
    rcases bmod_cases (x := b.off.toInt + off.toInt) (by omega) (by omega) with ⟨_, _, heq⟩ | ⟨_, heq⟩ | ⟨_, heq⟩ <;> omega

theorem seek_end_iff (hb : b.InBounds) :
    Lawful c answer b (.seek off .end_) ↔ 0 ≤ off.toInt ∨ off.toInt ≤ size - 2 ^ 63 := by
  have hsize := size_eq
  have hlow := off.le_toInt
  have hhigh := off.toInt_lt
  have hnext : (blobSize - off).toInt = _ := Int64.toInt_sub blobSize off
  rw [toInt_blobSize] at hnext
  have hsign : blobSize - off < 0 ↔ (blobSize - off).toInt < 0 := by rw [Int64.lt_iff_toInt_lt, Int64.toInt_zero]
  by_cases hneg : blobSize - off < 0
  · have hseek : b.seek off .end_ = (.sought b.off (some .seekBeyond), b) := by
      simp only [BlobReader.seek, if_pos hneg]
    rw [hsign, hnext] at hneg
    rw [lawful_of_refused hb hseek, BlobReader.target]
    rcases bmod_cases (x := size - off.toInt) (by omega) (by omega) with ⟨_, _, heq⟩ | ⟨_, heq⟩ | ⟨_, heq⟩ <;> omega
  · have hseek : b.seek off .end_ = (.sought (blobSize - off) none, ⟨blobSize - off⟩) := by
      simp only [BlobReader.seek, if_neg hneg]
    rw [hsign, hnext] at hneg
    rw [lawful_of_moved hseek, BlobReader.target, hnext]
    rcases bmod_cases (x := size - off.toInt) (by omega) (by omega) with ⟨_, _, heq⟩ | ⟨_, heq⟩ | ⟨_, heq⟩ <;> omega

/-! ## Reading -/

theorem slice_min (c : Contents) (off n : Nat) : slice c off (min n (size - off)) = slice c off n := by
  by_cases h : n ≤ size - off
  · rw [Nat.min_eq_left h]
  · rw [Nat.min_eq_right (by omega), Blob.slice_end c (show size - off ≤ n by omega)]

theorem readAt_of_answers (ha : Answers c answer) {p : Bytes} {k : Nat} (hoff : off.toInt = k) (hp : k + p.length ≤ size) :
    BlobReader.readAt answer p off = (p.length, none, slice c k p.length) := by
  have hsize := size_eq
  have hk : (UInt32.ofInt off.toInt).toNat = k := by
    have hmod : (off.toInt % 2 ^ 32).toNat = k := by omega
    rw [UInt32.ofInt, hmod, UInt32.toNat_ofNat_of_lt' (show k < 2 ^ 32 by omega)]
  have hlen : (UInt32.ofNat p.length).toNat = p.length := UInt32.toNat_ofNat_of_lt' (show p.length < 2 ^ 32 by omega)
  have hdata := ha (UInt32.ofInt off.toInt) (UInt32.ofNat p.length) (by rw [hk, hlen]; exact hp)
  rw [hk, hlen] at hdata
  have hslice : (slice c k p.length).length = p.length := by rw [Blob.length_slice]; omega
  simp only [BlobReader.readAt, hdata, hslice, copyInto, List.take_of_length_le (Nat.le_of_eq hslice), List.drop_length,
    List.append_nil]
  simp

theorem toInt_toRead {p : Bytes} {k : Nat} (hoff : b.off.toInt = k) (hle : k ≤ size) (hp : p.length < 2 ^ 62) :
    (b.toRead p).toInt = (min p.length (size - k) : Nat) := by
  have hsize := size_eq
  have hlen : (Int64.ofNat p.length).toInt = p.length := Int64.toInt_ofNat_of_lt (by omega)
  have hsum : (b.off + Int64.ofNat p.length).toInt = k + p.length := by
    rw [Int64.toInt_add, hoff, hlen]
    exact bmod_of_lt (by omega) (by omega)
  have hdiff : (blobSize - b.off).toInt = size - k := by
    rw [Int64.toInt_sub, hoff, toInt_blobSize]
    exact bmod_of_lt (by omega) (by omega)
  have hgt : b.off + Int64.ofNat p.length > blobSize ↔ size < k + p.length := by
    rw [gt_iff_lt, Int64.lt_iff_toInt_lt, hsum, toInt_blobSize]
    omega
  unfold BlobReader.toRead
  by_cases h : size < k + p.length
  · rw [if_pos (hgt.mpr h), hdiff]
    omega
  · rw [if_neg (mt hgt.mp h), hlen]
    omega

theorem read_end {k : Nat} (hk : b.off.toInt = k) (hend : k = size) (p : Bytes) :
    b.read answer p = (.got 0 (some .eof) p, b) :=
  if_pos (Int64.toInt_inj.mp (by rw [hk, toInt_blobSize, hend]))

theorem read_eq (ha : Answers c answer) {k n : Nat} (hk : b.off.toInt = k) (hlt : k < size) {p : Bytes} (hp : p.length < 2 ^ 62)
    (hn : n = min p.length (size - k)) :
    b.read answer p = (.got n none (slice c k n ++ p.drop n), ⟨b.off + Int64.ofNat n⟩) := by
  have hoff : ¬ b.off = blobSize := by
    intro h
    rw [h, toInt_blobSize] at hk
    omega
  have htoRead : (b.toRead p).toInt = n := by rw [toInt_toRead hk (Nat.le_of_lt hlt) hp, hn]
  have htake : (p.take n).length = n := by rw [List.length_take]; omega
  have hremote := readAt_of_answers ha (p := p.take n) hk (by omega)
  simp only [BlobReader.read, if_neg hoff, htoRead, Int.toNat_natCast, if_neg (show ¬ (n : Int) < 0 by omega), hremote, htake]

theorem read_lawful (ha : Answers c answer) (hb : b.InBounds) (p : Bytes) (hp : p.length < 2 ^ 62) :
    Lawful c answer b (.read p hp) := by
  have hsize := size_eq
  obtain ⟨h0, hle⟩ := hb
  obtain ⟨k, hk⟩ : ∃ k : Nat, b.off.toInt = k := Int.eq_ofNat_of_zero_le h0
  rw [hk] at hle
  rw [Lawful, ReadsAt, hk, Int.toNat_natCast]
  by_cases hend : k = size
  · have hread : b.read answer p = _ := read_end hk hend p
    have hstep : b.step answer (.read p hp) = b := congrArg Prod.snd hread
    rw [hstep, if_pos hend]
    exact ⟨⟨h0, by omega⟩, hread⟩
  · obtain ⟨n, hn⟩ : ∃ n, n = min p.length (size - k) := ⟨_, rfl⟩
    have hread := read_eq ha hk (by omega) hp hn
    have hnew : (b.off + Int64.ofNat n).toInt = k + n := by
      rw [Int64.toInt_add, hk, Int64.toInt_ofNat_of_lt (by omega)]
      exact bmod_of_lt (by omega) (by omega)
    have hstep : b.step answer (.read p hp) = ⟨b.off + Int64.ofNat n⟩ := congrArg Prod.snd hread
    have hdrop : p.drop n = p.drop (size - k) := by
      by_cases h : p.length ≤ size - k
      · rw [List.drop_of_length_le (by omega), List.drop_of_length_le h]
      · rw [hn, Nat.min_eq_right (by omega)]
    rw [hstep, if_neg hend, hread, ← hn, hdrop]
    refine ⟨⟨?_, ?_⟩, ?_, hnew⟩
    · rw [hnew]
      omega
    · rw [hnew]
      omega
    · rw [hn, slice_min]

end Lawful

/-! ## Runs -/

/-- `Server.ReadAt`, as a client sees it. -/
def serve {H K G : Type} (s : Protocol.Shared H K G) (name : Name) : Answer :=
  fun off len => (readAt s ⟨name, off, len⟩).res.toOption

theorem answers_readAt {H K G : Type} (s : Protocol.Shared H K G) (name : Name) (hfree : (s.locks name).writers = 0) :
    Answers (s.blobs name).contents (serve s name) := by
  intro off len hin
  rw [serve, @readAt_in _ _ _ s ⟨name, off, len⟩ hin hfree]
  rfl

theorem lawful_iff {c : Contents} {answer : Answer} (ha : Answers c answer) (b : BlobReader) (e : Call) (hb : b.InBounds) :
    Lawful c answer b e ↔ Covered b e := by
  cases e with
  | read p hp => exact iff_of_true (read_lawful ha hb p hp) trivial
  | seek off whence =>
    cases whence with
    | start => exact seek_start_iff hb
    | current => exact seek_current_iff hb
    | end_ => exact seek_end_iff hb

/-- Over every sequence of calls on a new reader, of any blob, with any server that answers. -/
theorem reader_in_bounds_iff {c : Contents} {answer : Answer} (ha : Answers c answer) (calls : List Call) :
    Machine.Along (BlobReader.step answer) (Lawful c answer) .new calls ↔
      Machine.Along (BlobReader.step answer) Covered .new calls :=
  Machine.along_iff BlobReader.InBounds (fun b e hb => lawful_iff ha b e hb) (fun _ _ _ h => h.1) calls _ ⟨by decide, by decide⟩

theorem a_seek_and_a_read :
    Answers (idle.blobs []).contents (serve idle []) ∧
    Machine.Along (BlobReader.step (serve idle [])) (Lawful (idle.blobs []).contents (serve idle [])) .new
      [.seek 5 .start, .seek (-2) .current, .read [1, 2] (by decide)] := by
  have hserve := answers_readAt idle [] rfl
  exact ⟨hserve, (reader_in_bounds_iff hserve _).mpr ⟨⟨by decide, by decide⟩, ⟨by decide, by decide⟩, trivial, trivial⟩⟩

/-- From the start to one byte past the end: the reader goes there, and then a read panics. -/
theorem a_seek_past_the_end_is_accepted :
    Answers (idle.blobs []).contents (serve idle []) ∧
    ¬ Machine.Along (BlobReader.step (serve idle [])) (Lawful (idle.blobs []).contents (serve idle [])) .new
      [.seek 1048577 .start, .read [0] (by decide)] ∧
    BlobReader.new.seek 1048577 .start = (.sought 1048577 none, ⟨1048577⟩) ∧
    (BlobReader.read (serve idle []) ⟨1048577⟩ [0]).1 = .panic := by
  refine ⟨answers_readAt idle [] rfl, fun h => ?_, by decide, ?_⟩
  · have hin : (1048577 : Int) ≤ size := h.1.1.2
    exact absurd hin (by decide)
  · rw [BlobReader.read, if_neg (by decide), if_pos (by decide)]

end Fnd.Rpc

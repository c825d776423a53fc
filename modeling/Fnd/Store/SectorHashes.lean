/-
  Fnd.Store.SectorHashes — the codec of sector hashes (`Encode` and `Decode` of `blob/hash.go`)
  and `GetSectorHashes` of `store/headers.go`.

  `Decode` reads each entry with a single `Read` into one buffer, and looks at the error only.
  A reader may deliver less than 32 bytes without an error; the buffer then still ends in the
  bytes of the entry before, and that is the entry. So what is decoded are the blocks of the
  input exactly when each read turns the block before into the next, and a record that is too
  short is refused exactly when the end is reported in time (`sector_hashes_exact_iff`). From
  memory, as the store reads it, a record that lacks 1 to 31 bytes is accepted.

  What the store wrote itself is read back: over every run of its writes `GetSectorHashes`
  returns what the maps of `DB` have for the name, and never panics (`getSectorHashes_run`).
-/

import Fnd.Blob.Stream
import Fnd.Lib.Refill
import Fnd.Store.Rows

namespace Fnd.Blob

open Refill (Plan Source whole block before buffer)
open Wire (Bytes32 zeroHash)

/-! ## Encode -/

/-- An `io.Writer`, and itself after the call. -/
abbrev IoWriter (ω : Type) := ω → Bytes → Option IoErr × ω

/-- The loop of `Encode`. -/
def encodeLoop {ω : Type} (write : IoWriter ω) : List Bytes32 → ω → Option IoErr × ω
  | [], w => (none, w)
  | h :: hs, w =>
    match write w h.1 with
    | (some e, w) => (some e, w)
    | (none, w) => encodeLoop write hs w

namespace SectorHashes

def encode {ω : Type} (write : IoWriter ω) (s : SectorHashes Bytes32) (w : ω) : Option IoErr × ω :=
  encodeLoop write (List.ofFn s) w

/-- `bytes.Buffer.Write`. -/
def bufferWrite : IoWriter Bytes := fun buf p => (none, buf ++ p)

/-- What `Encode` leaves in an empty buffer. -/
def bytes (s : SectorHashes Bytes32) : Bytes := (encode bufferWrite s []).2

end SectorHashes

/-! ## Decode -/

def refilled (h : Bytes32) (p : Bytes) : Bytes32 :=
  ⟨p.take 32 ++ h.1.drop p.length, by have := h.2; simp only [List.length_append, List.length_take, List.length_drop]; omega⟩

/-- The loop of `Decode`: `k` entries to go from index `i`. -/
def decodeLoop {ρ : Type} (read : IoReader ρ) : Nat → Nat → ρ → Bytes32 → SectorHashes Bytes32 →
    Except IoErr (SectorHashes Bytes32)
  | 0, _, _, _, res => .ok res
  | k + 1, i, r, hash, res =>
    let a := read r hash.1
    match a.1.err with
    | some e => .error e
    | none =>
      let hash := refilled hash a.1.buf
      decodeLoop read k (i + 1) a.2 hash fun j => if j.1 = i then hash else res j

/-- `Decode`: its error, and the target after it. -/
def SectorHashes.decode {ρ : Type} (read : IoReader ρ) (r : ρ) (s : SectorHashes Bytes32) : Option IoErr × SectorHashes Bytes32 :=
  match decodeLoop read maxSectors 0 r zeroHash fun _ => zeroHash with
  | .error e => (some e, s)
  | .ok res => (none, res)

/-- A reader of a byte string, that delivers it by a plan. -/
def chunked (plan : Plan UInt8) : IoReader (Source UInt8) := fun r p =>
  (⟨r.count plan p.length, if r.ended plan p.length then some .eof else none, r.fill plan p⟩, r.next plan p.length)

/-! ## Exact decoding -/

/-- `Decode` of a byte string: it succeeds exactly when there is enough; the entries are the
    blocks of 32 bytes; a failure leaves the target as it was. -/
structure Exact (plan : Plan UInt8) (data : Bytes) (s : SectorHashes Bytes32) : Prop where
  succeeds : (∃ v, SectorHashes.decode (chunked plan) ⟨data, 0⟩ s = (none, v)) ↔ 32 * maxSectors ≤ data.length
  entries : ∀ v, SectorHashes.decode (chunked plan) ⟨data, 0⟩ s = (none, v) → ∀ i, (v i).1 = block 32 data i.1
  unchanged : ∀ e v, SectorHashes.decode (chunked plan) ⟨data, 0⟩ s = (some e, v) → v = s

abbrev afterReads (plan : Plan UInt8) (data : Bytes) (i : Nat) : Source UInt8 := Source.after plan ⟨data, 0⟩ 32 i

/-- With enough bytes, no read of an entry reports an error and each turns the block before, at
    first zeros, into the next; with too few, one of them reports the end. -/
structure InStep (plan : Plan UInt8) (data : Bytes) : Prop where
  enough : 32 * maxSectors ≤ data.length → ∀ i < maxSectors, (afterReads plan data i).ended plan 32 = false ∧
    (afterReads plan data i).fill plan (before zeroHash.1 data i) = block 32 data i
  short : data.length < 32 * maxSectors → ∃ i < maxSectors, (afterReads plan data i).ended plan 32 = true

theorem refilled_val (h : Bytes32) {p : Bytes} (hp : p.length = 32) : (refilled h p).1 = p := by
  show p.take 32 ++ h.1.drop p.length = p
  rw [List.take_of_length_le (Nat.le_of_eq hp), List.drop_eq_nil_of_le (by rw [hp, h.2]), List.append_nil]

section Runs

variable (plan : Plan UInt8) (data : Bytes)

def hashAfter (i : Nat) : Bytes32 := ⟨buffer plan ⟨data, 0⟩ zeroHash.1 i, (Refill.length_buffer _ _ _ _).trans zeroHash.2⟩

theorem hashAfter_succ (i : Nat) :
    refilled (hashAfter plan data i) ((afterReads plan data i).fill plan (hashAfter plan data i).1) =
      hashAfter plan data (i + 1) := by
  apply Subtype.ext
  rw [refilled_val _ (by rw [Source.length_fill, (hashAfter plan data i).2])]
  rfl

/-- From entry `i` on: the array after each read is an entry, or one of the reads fails. -/
theorem decodeLoop_cases : ∀ (k i : Nat) (res : SectorHashes Bytes32),
    ((∀ j, i ≤ j → j < i + k → (afterReads plan data j).ended plan 32 = false) ∧
      decodeLoop (chunked plan) k i (afterReads plan data i) (hashAfter plan data i) res =
        .ok fun j => if i ≤ j.1 ∧ j.1 < i + k then hashAfter plan data (j.1 + 1) else res j) ∨
    (∃ j, i ≤ j ∧ j < i + k ∧ (afterReads plan data j).ended plan 32 = true) ∧
      decodeLoop (chunked plan) k i (afterReads plan data i) (hashAfter plan data i) res = .error .eof := by
  intro k
  induction k with
  | zero =>
    intro i res
    refine .inl ⟨fun j hij hj => absurd hij (by omega), congrArg Except.ok (funext fun j => ?_)⟩
    rw [if_neg (by omega)]
  | succ k ih =>
    intro i res
    have hlen : (hashAfter plan data i).1.length = 32 := (hashAfter plan data i).2
    cases hended : (afterReads plan data i).ended plan 32 with
    | true =>
      refine .inr ⟨⟨i, Nat.le_refl i, by omega, hended⟩, ?_⟩
      simp only [decodeLoop, chunked, hlen, hended, if_true]
    | false =>
      have hstep : decodeLoop (chunked plan) (k + 1) i (afterReads plan data i) (hashAfter plan data i) res =
          decodeLoop (chunked plan) k (i + 1) (afterReads plan data (i + 1)) (hashAfter plan data (i + 1))
            fun j => if j.1 = i then hashAfter plan data (i + 1) else res j := by
        simp only [decodeLoop, chunked, hlen, hended, Bool.false_eq_true, if_false, hashAfter_succ]
        rfl
      rw [hstep]
      rcases ih (i + 1) fun j => if j.1 = i then hashAfter plan data (i + 1) else res j with
        ⟨hnone, hok⟩ | ⟨⟨j, hij, hj, hend⟩, herr⟩
      · refine .inl ⟨fun j hij hj => ?_, hok.trans (congrArg Except.ok (funext fun j => ?_))⟩
        · rcases Nat.eq_or_lt_of_le hij with rfl | hij
          · exact hended
          · exact hnone j hij (by omega)
        · by_cases hji : j.1 = i
          · rw [if_neg (by omega), if_pos hji, if_pos (by omega), hji]
          · rw [if_neg hji]
            exact if_congr (by omega) rfl rfl
      · exact .inr ⟨⟨j, by omega, by omega, hend⟩, herr⟩

theorem decode_cases (s : SectorHashes Bytes32) :
    ((∀ i < maxSectors, (afterReads plan data i).ended plan 32 = false) ∧
      SectorHashes.decode (chunked plan) ⟨data, 0⟩ s = (none, fun j => hashAfter plan data (j.1 + 1))) ∨
    (∃ i < maxSectors, (afterReads plan data i).ended plan 32 = true) ∧
      SectorHashes.decode (chunked plan) ⟨data, 0⟩ s = (some .eof, s) := by
  rcases decodeLoop_cases plan data maxSectors 0 fun _ => zeroHash with ⟨hnone, hok⟩ | ⟨⟨i, -, hi, hend⟩, herr⟩
  · have hall : (fun j : Fin maxSectors => if 0 ≤ j.1 ∧ j.1 < 0 + maxSectors then hashAfter plan data (j.1 + 1) else zeroHash) =
        fun j => hashAfter plan data (j.1 + 1) :=
      funext fun j => if_pos ⟨Nat.zero_le _, (Nat.zero_add _).symm ▸ j.2⟩
    rw [hall] at hok
    refine .inl ⟨fun i hi => hnone i (Nat.zero_le i) (by omega), ?_⟩
    have hok : decodeLoop (chunked plan) maxSectors 0 ⟨data, 0⟩ zeroHash (fun _ => zeroHash) = _ := hok
    rw [SectorHashes.decode, hok]
  · refine .inr ⟨⟨i, by omega, hend⟩, ?_⟩
    have herr : decodeLoop (chunked plan) maxSectors 0 ⟨data, 0⟩ zeroHash (fun _ => zeroHash) = _ := herr
    rw [SectorHashes.decode, herr]

/-- The entries are the blocks exactly when each read turns one into the next. -/
theorem entries_iff : (∀ j : Fin maxSectors, (hashAfter plan data (j.1 + 1)).1 = block 32 data j.1) ↔
    ∀ i < maxSectors, (afterReads plan data i).fill plan (before zeroHash.1 data i) = block 32 data i := by
  have hzero : zeroHash.1.length = 32 := zeroHash.2
  have hiff := Refill.buffers_eq_iff plan zeroHash.1 data maxSectors
  rw [hzero] at hiff
  exact ⟨fun h => hiff.mp fun i hi => h ⟨i, hi⟩, fun h j => hiff.mpr h j.1 j.2⟩

theorem exact_iff (s : SectorHashes Bytes32) : Exact plan data s ↔ InStep plan data := by
  rcases decode_cases plan data s with ⟨hnone, hok⟩ | ⟨⟨i, hi, hend⟩, herr⟩
  · refine ⟨fun h => ⟨fun _ i hi => ?_, fun hlt => ?_⟩, fun h => ?_⟩
    · exact ⟨hnone i hi, (entries_iff plan data).mp (h.entries _ hok) i hi⟩
    · exact absurd (h.succeeds.mp ⟨_, hok⟩) (Nat.not_le.mpr hlt)
    · -- no read reports the end, so the bytes are enough
      have hlen : 32 * maxSectors ≤ data.length := Nat.not_lt.mp fun hlt => by
        obtain ⟨i, hi, hend⟩ := h.short hlt
        rw [hnone i hi] at hend
        cases hend
      refine ⟨iff_of_true ⟨_, hok⟩ hlen, fun v hv => ?_, fun e v hv => ?_⟩
      · rw [hok] at hv
        cases hv
        exact (entries_iff plan data).mpr fun i hi => (h.enough hlen i hi).2
      · rw [hok] at hv
        cases hv
  · have hno : ¬ ∃ v, SectorHashes.decode (chunked plan) ⟨data, 0⟩ s = (none, v) := by
      rintro ⟨v, hv⟩
      rw [herr] at hv
      cases hv
    refine ⟨fun h => ⟨fun hlen => absurd (h.succeeds.mpr hlen) hno, fun _ => ⟨i, hi, hend⟩⟩, fun h => ?_⟩
    have hlen : ¬ 32 * maxSectors ≤ data.length := fun hlen => by
      rw [(h.enough hlen i hi).1] at hend
      cases hend
    refine ⟨iff_of_false hno hlen, fun v hv => absurd ⟨v, hv⟩ hno, fun e v hv => ?_⟩
    rw [herr] at hv
    cases hv
    rfl

end Runs

/-! ## From memory -/

theorem inStep_whole (data : Bytes) :
    InStep whole data ↔ data.length ≤ 32 * (maxSectors - 1) ∨ 32 * maxSectors ≤ data.length := by
  have hsome : 0 < maxSectors := by decide
  refine ⟨fun h => ?_, fun h => ⟨fun hlen i hi => ⟨Bool.eq_false_iff.mpr fun hend => ?_, ?_⟩, fun hlt => ?_⟩⟩
  · by_cases hlt : data.length < 32 * maxSectors
    · obtain ⟨i, hi, hend⟩ := h.short hlt
      have hle := (Refill.ended_whole data 32 i).mp hend
      omega
    · exact .inr (Nat.not_lt.mp hlt)
  · have hle := (Refill.ended_whole data 32 i).mp hend
    omega
  · refine (entries_iff whole data).mp (fun j => ?_) i hi
    have hj := j.2
    exact Refill.buffer_whole data zeroHash.1 (by rw [zeroHash.2]; omega)
  · exact ⟨maxSectors - 1, by omega, (Refill.ended_whole data 32 _).mpr (by omega)⟩

theorem encodeLoop_buffer (hs : List Bytes32) (buf : Bytes) :
    encodeLoop SectorHashes.bufferWrite hs buf = (none, buf ++ (hs.map Subtype.val).flatten) := by
  induction hs generalizing buf with
  | nil => rw [List.map_nil, List.flatten_nil, List.append_nil]; rfl
  | cons h hs ih =>
    show encodeLoop SectorHashes.bufferWrite hs (buf ++ h.1) = _
    rw [ih, List.map_cons, List.flatten_cons, List.append_assoc]

section Bytes

variable (s : SectorHashes Bytes32)

theorem SectorHashes.encode_buffer : s.encode bufferWrite [] = (none, s.bytes) := by
  rw [bytes, encode, encodeLoop_buffer]

theorem SectorHashes.bytes_eq : s.bytes = ((List.ofFn s).map Subtype.val).flatten := by
  rw [bytes, encode, encodeLoop_buffer, List.nil_append]

theorem SectorHashes.length_of_mem : ∀ bs ∈ (List.ofFn s).map Subtype.val, bs.length = 32 := by
  intro bs hbs
  obtain ⟨h, -, rfl⟩ := List.mem_map.mp hbs
  exact h.2

theorem SectorHashes.length_bytes : s.bytes.length = 32 * maxSectors := by
  rw [bytes_eq, Refill.length_flatten s.length_of_mem, List.length_map, List.length_ofFn]

theorem SectorHashes.block_bytes (i : Fin maxSectors) : block 32 s.bytes i.1 = (s i).1 := by
  have hi : i.1 < ((List.ofFn s).map Subtype.val).length := by rw [List.length_map, List.length_ofFn]; exact i.2
  rw [bytes_eq, Refill.block_flatten s.length_of_mem hi, List.getElem_map, List.getElem_ofFn]

theorem SectorHashes.decode_bytes (target : SectorHashes Bytes32) : decode (chunked whole) ⟨s.bytes, 0⟩ target = (none, s) := by
  have hlen : 32 * maxSectors ≤ s.bytes.length := Nat.le_of_eq s.length_bytes.symm
  have hexact : Exact whole s.bytes target := (exact_iff whole s.bytes target).mpr ((inStep_whole s.bytes).mpr (.inr hlen))
  obtain ⟨v, hv⟩ := hexact.succeeds.mpr hlen
  have heq : v = s := funext fun i => Subtype.ext ((hexact.entries v hv i).trans (s.block_bytes i))
  rw [hv, heq]

end Bytes

/-- Decoding is exact exactly when the reads are in step with the blocks; from memory, when the
    record is whole or lacks a block at least. What was encoded is decoded. -/
theorem sector_hashes_exact_iff (plan : Plan UInt8) (data : Bytes) (s : SectorHashes Bytes32) :
    (Exact plan data s ↔ InStep plan data) ∧
    (Exact whole data s ↔ data.length ≤ 32 * (maxSectors - 1) ∨ 32 * maxSectors ≤ data.length) ∧
    ∀ v : SectorHashes Bytes32, v.encode SectorHashes.bufferWrite [] = (none, v.bytes) ∧
      SectorHashes.decode (chunked whole) ⟨v.bytes, 0⟩ s = (none, v) :=
  ⟨exact_iff plan data s, (exact_iff whole data s).trans (inStep_whole data),
    fun v => ⟨v.encode_buffer, v.decode_bytes s⟩⟩

/-- 4095 entries of ones, and 31 bytes of twos. -/
def truncated : Bytes := List.replicate (32 * 4095) 1 ++ List.replicate 31 2

theorem length_truncated : truncated.length = 131071 := by
  rw [truncated, List.length_append, List.length_replicate, List.length_replicate]

/-- It is accepted, and its last entry ends in a byte of the one before. -/
theorem a_truncated_record_is_accepted :
    ¬ Exact whole truncated (fun _ => zeroHash) ∧
    ∃ v, SectorHashes.decode (chunked whole) ⟨truncated, 0⟩ (fun _ => zeroHash) = (none, v) ∧
      (v ⟨4095, by decide⟩).1 = List.replicate 31 2 ++ [1] := by
  have hmax : maxSectors = 4096 := rfl
  refine ⟨fun h => ?_, ?_⟩
  · have hstep := (inStep_whole truncated).mp ((exact_iff whole truncated _).mp h)
    rw [length_truncated, hmax] at hstep
    omega
  rcases decode_cases whole truncated fun _ => zeroHash with ⟨-, hok⟩ | ⟨⟨i, hi, hend⟩, -⟩
  · refine ⟨_, hok, ?_⟩
    have hlast : block 32 truncated 4095 = List.replicate 31 2 := by
      rw [block, truncated, List.drop_left' List.length_replicate, List.take_of_length_le (by rw [List.length_replicate]; omega)]
    have hprev : buffer whole ⟨truncated, 0⟩ zeroHash.1 4095 = List.replicate 32 1 := by
      have hbuffer := Refill.buffer_whole truncated zeroHash.1 (i := 4094) (by rw [zeroHash.2, length_truncated]; omega)
      rw [hbuffer, zeroHash.2, block, truncated, List.drop_append_of_le_length (by rw [List.length_replicate]; omega),
        List.drop_replicate, List.take_append_of_le_length (by rw [List.length_replicate]), List.take_replicate]
      exact congrArg (List.replicate · 1) (by decide)
    have hfill := Refill.fill_whole truncated (buffer whole ⟨truncated, 0⟩ zeroHash.1 4095) 4095
    rw [hprev, List.length_replicate, hlast, List.length_replicate, List.drop_replicate] at hfill
    show buffer whole ⟨truncated, 0⟩ zeroHash.1 (4095 + 1) = _
    rw [buffer, hprev, zeroHash.2, hfill]
    rfl
  · have hle := (Refill.ended_whole truncated 32 i).mp hend
    rw [length_truncated] at hle
    omega

end Fnd.Blob

/-! ## In the store -/

namespace Fnd.Store

open Blob (SectorHashes chunked)
open Refill (whole)
open Wire (Bytes32 zeroHash)

variable {K G D : Type}

/-- `if err != nil { panic(err) }`. -/
def orPanic {ε α : Type} : Option Blob.IoErr × α → Except (Fault ε) α
  | (some _, _) => .error .panic
  | (none, a) => .ok a

def Flat.getSectorHashes (db : Flat) (name : Name) : Except (Fault DB.SectorHashErr) (SectorHashes Bytes32) :=
  match db.get (headerSectorHashesPrefix [name]) with
  | none => .error (.err .notFound)
  | some baseB => orPanic (SectorHashes.decode (chunked whole) ⟨baseB, 0⟩ fun _ => zeroHash)

theorem Flat.getSectorHashes_of_get {db : Flat} {name : Name} {baseB : Bytes}
    (h : db.get (headerSectorHashesPrefix [name]) = some baseB) :
    db.getSectorHashes name = orPanic (SectorHashes.decode (chunked whole) ⟨baseB, 0⟩ fun _ => zeroHash) := by
  rw [getSectorHashes, h]

theorem Represents.getSectorHashes {C : Codec Bytes32 K G D} (hC : ∀ s, C.sectorHashes s = s.bytes) {flat : Flat}
    {db : DB Bytes32 K G} (h : Represents C flat db) (name : Name) :
    flat.getSectorHashes name = (db.sectorHashes name).elim (.error (.err .notFound)) .ok := by
  have hget := (h.gets name).2.1
  cases hs : db.sectorHashes name with
  | none => rw [Flat.getSectorHashes, hget, hs]; rfl
  | some s =>
    rw [hs, Option.map_some, hC] at hget
    rw [Flat.getSectorHashes_of_get hget, SectorHashes.decode_bytes]
    rfl

/-- Over every run of the store's writes, with sector hashes as `Encode` writes them: what is read
    are the hashes that the maps have for the name, and nothing panics. -/
theorem getSectorHashes_run {C : Codec Bytes32 K G D} (hC : ∀ s, C.sectorHashes s = s.bytes) (ops : List (Op Bytes32 K G D))
    (name : Name) :
    Flat.getSectorHashes (Machine.run (Flat.step C) OrderedMap.empty ops) name =
      ((Machine.run DB.step DB.blank ops).sectorHashes name).elim (.error (.err .notFound)) .ok :=
  (Represents.blank.run ops).getSectorHashes hC name

end Fnd.Store

/-
  Fnd.Chain.Encoding — integers, varints and byte strings as Handshake's chain has them
  (`handshake/encoding`).

  Integers are little-endian. A varint is a byte below 0xfd, or a sigil and two or four bytes;
  beyond 32 bits `WriteVarint` writes nothing (its buffer is shadowed), and `ReadVarint` reads
  eight bytes. `ReadVarint` drops the error of its first read: at the end of the input it returns
  zero (`readVarint_nil`), so that a count or a length that is missing passes for none. What is
  written is read back (`readVarint_reads`, `readVarBytes_reads`); cut short, it is refused, or
  read as nothing (`readVarint_cut`, `readVarBytes_cut`).

  The readers are over a `bytes.Reader`: the bytes that are left.
-/

import Fnd.Basic
import Fnd.Lib.Decoder
import Fnd.Lib.LittleEndian

namespace Fnd.Chain

open Decoder (Reads Cut Ends Yields)

inductive DecodeErr where
  /-- `io.EOF` -/
  | eof
  /-- `io.ErrUnexpectedEOF` -/
  | unexpectedEOF
  | addressVersion
  | addressLength
  | covenantType
  | covenantItems
  | witnessItems
  | resourceVersion
  | recordType
  /-- an error of `UnpackDomainName` -/
  | domainName
  deriving DecidableEq, Repr

abbrev Reader (α : Type) := Decoder UInt8 (Fault DecodeErr) α

abbrev ByteArr (n : Nat) := { bs : Bytes // bs.length = n }

/-! ## Writers -/

def writeUint32 (v : UInt32) : Bytes := LittleEndian.put 4 v.toNat

def writeUint64 (v : UInt64) : Bytes := LittleEndian.put 8 v.toNat

/-- `WriteVarint` of a length. In its last branch a second `buf` is filled, and the first one,
    which is empty, is written. -/
def writeVarint (val : Nat) : Bytes :=
  if val ≤ 0xfc then [UInt8.ofNat val]
  else if val ≤ 0xffff then 0xfd :: LittleEndian.put 2 val
  else if val ≤ 0xffffffff then 0xfe :: LittleEndian.put 4 val
  else []

def writeVarBytes (buf : Bytes) : Bytes := writeVarint buf.length ++ buf

/-! ## Readers -/

/-- `io.ReadFull` into `n` bytes; into none it reads nothing and succeeds. -/
def readFull (n : Nat) : Reader (ByteArr n) := fun bs =>
  if h : n ≤ bs.length then .ok (⟨bs.take n, List.length_take_of_le h⟩, bs.drop n)
  else .error (.err (if bs = [] then .eof else .unexpectedEOF))

/-- `r.Read` into an array of zeros: what there is, unless there is nothing. -/
def readArray (n : Nat) : Reader (ByteArr n) := fun bs =>
  if bs = [] then .error (.err .eof)
  else .ok (⟨bs.take n ++ List.replicate (n - bs.length) 0,
    by simp only [List.length_append, List.length_take, List.length_replicate]; omega⟩,
    bs.drop n)

def readUint (k : Nat) : Reader Nat := do
  let buf ← readFull k
  return LittleEndian.get buf.1

def readUint8 : Reader UInt8 := do
  let v ← readUint 1
  return UInt8.ofNat v

def readUint32 : Reader UInt32 := do
  let v ← readUint 4
  return UInt32.ofNat v

def readUint64 : Reader UInt64 := do
  let v ← readUint 8
  return UInt64.ofNat v

def readVarint : Reader Nat := fun bs =>
  match readUint8 bs with
  -- `return 0, nil`
  | .error _ => .ok (0, bs)
  | .ok (sigil, bs) =>
    if sigil < 0xfd then .ok (sigil.toNat, bs)
    else if sigil = 0xfd then readUint 2 bs
    else if sigil = 0xfe then readUint 4 bs
    else readUint 8 bs

/-- The largest slice of bytes that `make` allocates on a 64-bit machine. -/
def maxAlloc : Nat := 2 ^ 48

/-- `ReadVarBytes`: `make` panics on a length that is negative as an `int`, or beyond `maxAlloc`. -/
def readVarBytes : Reader Bytes := do
  let l ← readVarint
  if l > maxAlloc then throw .panic
  let buf ← readFull l
  return buf.1

/-- The rounds of `for i := 0; i < int(count); i++`. -/
def rounds (count : Nat) : Nat := if count < 2 ^ 63 then count else 0

/-! ## Reading back -/

theorem readFull_reads {n : Nat} (b : ByteArr n) : Reads (readFull n) b.1 b := by
  intro rest
  have hle : n ≤ (b.1 ++ rest).length := by rw [List.length_append, b.2]; omega
  simp only [readFull, dif_pos hle]
  congr 2
  · exact Subtype.ext (List.take_left' b.2)
  · exact List.drop_left' b.2

theorem readArray_reads {n : Nat} (hn : 0 < n) (b : ByteArr n) : Reads (readArray n) b.1 b := by
  intro rest
  have hlen : (b.1 ++ rest).length = n + rest.length := by rw [List.length_append, b.2]
  have hne : b.1 ++ rest ≠ [] := fun h => by rw [h, List.length_nil] at hlen; omega
  have hpad : n - (b.1 ++ rest).length = 0 := by omega
  simp only [readArray, if_neg hne, hpad, List.replicate_zero, List.append_nil]
  congr 2
  · exact Subtype.ext (List.take_left' b.2)
  · exact List.drop_left' b.2

theorem readUint_reads {k n : Nat} (h : n < 256 ^ k) : Reads (readUint k) (LittleEndian.put k n) n := by
  refine (readFull_reads ⟨LittleEndian.put k n, LittleEndian.length_put k n⟩).then ?_
  rw [LittleEndian.get_put_of_lt h]
  exact Reads.pure n

theorem readUint8_reads (v : UInt8) : Reads readUint8 [v] v := by
  have hv : LittleEndian.put 1 v.toNat = [v] := by rw [LittleEndian.put, UInt8.ofNat_toNat]; rfl
  have hread := readUint_reads (k := 1) (n := v.toNat) v.toNat_lt
  rw [hv] at hread
  refine hread.then ?_
  rw [UInt8.ofNat_toNat]
  exact Reads.pure v

theorem readUint32_reads (v : UInt32) : Reads readUint32 (writeUint32 v) v := by
  refine (readUint_reads (k := 4) v.toNat_lt).then ?_
  rw [UInt32.ofNat_toNat]
  exact Reads.pure v

theorem readUint64_reads (v : UInt64) : Reads readUint64 (writeUint64 v) v := by
  refine (readUint_reads (k := 8) v.toNat_lt).then ?_
  rw [UInt64.ofNat_toNat]
  exact Reads.pure v

@[simp] theorem readVarint_nil : readVarint [] = .ok (0, []) := rfl

theorem readVarint_cons (sigil : UInt8) (bs : Bytes) : readVarint (sigil :: bs) =
    if sigil < 0xfd then .ok (sigil.toNat, bs)
    else if sigil = 0xfd then readUint 2 bs
    else if sigil = 0xfe then readUint 4 bs
    else readUint 8 bs := by
  have hread : readUint8 (sigil :: bs) = .ok (sigil, bs) := readUint8_reads sigil bs
  simp only [readVarint, hread]

/-- A varint as written: one byte, or a sigil and two or four bytes. -/
theorem writeVarint_cases {n : Nat} (h : n < 2 ^ 32) :
    (∃ b : UInt8, b < 0xfd ∧ b.toNat = n ∧ writeVarint n = [b]) ∨
    (n < 256 ^ 2 ∧ writeVarint n = 0xfd :: LittleEndian.put 2 n) ∨
    (n < 256 ^ 4 ∧ writeVarint n = 0xfe :: LittleEndian.put 4 n) := by
  unfold writeVarint
  by_cases h1 : n ≤ 0xfc
  · rw [if_pos h1]
    have hb : (UInt8.ofNat n).toNat = n := UInt8.toNat_ofNat_of_lt' (show n < 256 by omega)
    exact .inl ⟨UInt8.ofNat n, UInt8.lt_iff_toNat_lt.mpr (by rw [hb]; exact Nat.lt_succ_of_le h1), hb, rfl⟩
  rw [if_neg h1]
  by_cases h2 : n ≤ 0xffff
  · rw [if_pos h2]
    exact .inr (.inl ⟨Nat.lt_succ_of_le h2, rfl⟩)
  · rw [if_neg h2, if_pos (by omega)]
    exact .inr (.inr ⟨h, rfl⟩)

theorem readVarint_reads {n : Nat} (h : n < 2 ^ 32) : Reads readVarint (writeVarint n) n := by
  intro rest
  rcases writeVarint_cases h with ⟨b, hb, hn, hw⟩ | ⟨hn, hw⟩ | ⟨hn, hw⟩
  · rw [hw, List.singleton_append, readVarint_cons, if_pos hb, hn]
  · rw [hw, List.cons_append, readVarint_cons]
    exact readUint_reads hn rest
  · rw [hw, List.cons_append, readVarint_cons]
    exact readUint_reads hn rest

theorem readVarBytes_reads {b : Bytes} (h : b.length < 2 ^ 32) : Reads readVarBytes (writeVarBytes b) b := by
  have hmax : ¬ b.length > maxAlloc := by unfold maxAlloc; omega
  refine (readVarint_reads h).bind ?_
  rw [if_neg hmax]
  exact (readFull_reads ⟨b, rfl⟩).then (Reads.pure b)

/-! ## Cut short -/

theorem readFull_cut {n : Nat} (b : ByteArr n) : Cut (readFull n) b.1 fun _ _ => False := by
  intro ys zs he hz
  have hlen : ys.length + zs.length = n := by rw [← List.length_append, he, b.2]
  have hz := List.length_pos_iff.mpr hz
  have hle : ¬ n ≤ ys.length := by omega
  exact .inl ⟨_, by rw [readFull, dif_neg hle]⟩

theorem readArray_cut {n : Nat} (b : ByteArr n) : Cut (readArray n) b.1 fun us _ => us ≠ [] := by
  intro ys zs he hz
  by_cases hys : ys = []
  · exact .inl ⟨_, by rw [readArray, if_pos hys]⟩
  · have hlen : ys.length + zs.length = n := by rw [← List.length_append, he, b.2]
    have hdrop : ys.drop n = [] := List.drop_eq_nil_of_le (by omega)
    exact .inr ⟨_, by rw [readArray, if_neg hys, hdrop], hys⟩

theorem readUint_cut (k n : Nat) : Cut (readUint k) (LittleEndian.put k n) fun _ _ => False :=
  let b : ByteArr k := ⟨LittleEndian.put k n, LittleEndian.length_put k n⟩
  Cut.then_strict (readFull_reads b) (readFull_cut b)

theorem readUint8_cut (v : UInt8) : Cut readUint8 [v] fun _ _ => False := by
  intro ys zs he hz
  rcases List.append_eq_singleton_iff.mp he with ⟨rfl, -⟩ | ⟨-, rfl⟩
  · exact .inl ⟨.err .eof, rfl⟩
  · exact absurd rfl hz

theorem readUint32_cut (v : UInt32) : Cut readUint32 (writeUint32 v) fun _ _ => False :=
  Cut.then_strict (readUint_reads v.toNat_lt) (readUint_cut _ _)

theorem readUint64_cut (v : UInt64) : Cut readUint64 (writeUint64 v) fun _ _ => False :=
  Cut.then_strict (readUint_reads v.toNat_lt) (readUint_cut _ _)

/-- Cut at its start a varint is zero; after its sigil it is refused. -/
theorem readVarint_cut {n : Nat} (h : n < 2 ^ 32) : Cut readVarint (writeVarint n) fun us m => us = [] ∧ m = 0 := by
  intro ys zs he hz
  cases ys with
  | nil => exact .inr ⟨0, rfl, rfl, rfl⟩
  | cons y ys =>
    left
    rcases writeVarint_cases h with ⟨b, -, -, hw⟩ | ⟨-, hw⟩ | ⟨-, hw⟩
    · rw [hw] at he
      have hnil : ys ++ zs = [] := (List.cons.inj he).2
      exact absurd (List.append_eq_nil_iff.mp hnil).2 hz
    · rw [hw] at he
      obtain ⟨rfl, hys⟩ := List.cons.inj he
      rw [readVarint_cons]
      rcases readUint_cut _ n ys zs hys hz with herr | ⟨_, _, hfalse⟩
      · exact herr
      · exact hfalse.elim
    · rw [hw] at he
      obtain ⟨rfl, hys⟩ := List.cons.inj he
      rw [readVarint_cons]
      rcases readUint_cut _ n ys zs hys hz with herr | ⟨_, _, hfalse⟩
      · exact herr
      · exact hfalse.elim

theorem readVarBytes_cut {b : Bytes} (h : b.length < 2 ^ 32) : Cut readVarBytes (writeVarBytes b) fun _ b' => b' = [] := by
  have hmax : ¬ b.length > maxAlloc := by unfold maxAlloc; omega
  refine Cut.bind (readVarint_reads h) (readVarint_cut h) (fun us l hl => ?_) ?_
  · rw [hl.2]
    exact .inr ⟨[], rfl, rfl⟩
  · rw [if_neg hmax]
    exact Cut.then_strict (readFull_reads ⟨b, rfl⟩) (readFull_cut ⟨b, rfl⟩)

/-! ## What is accepted -/

section Accepted

variable {len : Nat}

theorem yields_readFull (n : Nat) : Yields (readFull n) len n fun _ => True := by
  intro xs b rest _ hread
  by_cases hle : n ≤ xs.length
  · rw [readFull, dif_pos hle] at hread
    cases hread
    refine ⟨?_, trivial⟩
    rw [List.length_drop]
    omega
  · rw [readFull, dif_neg hle] at hread
    cases hread

theorem yields_readArray (n : Nat) : Yields (readArray n) len 0 fun _ => True := by
  intro xs b rest _ hread
  by_cases hxs : xs = []
  · rw [readArray, if_pos hxs] at hread
    cases hread
  · rw [readArray, if_neg hxs] at hread
    cases hread
    refine ⟨?_, trivial⟩
    rw [List.length_drop]
    omega

theorem yields_readUint (k : Nat) : Yields (readUint k) len k fun _ => True :=
  (yields_readFull k).bind fun _ _ => Yields.pure trivial

theorem yields_readUint8 : Yields readUint8 len 1 fun _ => True :=
  (yields_readUint 1).bind fun _ _ => Yields.pure trivial

theorem yields_readUint32 : Yields readUint32 len 4 fun _ => True :=
  (yields_readUint 4).bind fun _ _ => Yields.pure trivial

theorem yields_readUint64 : Yields readUint64 len 8 fun _ => True :=
  (yields_readUint 8).bind fun _ _ => Yields.pure trivial

theorem yields_readVarint : Yields readVarint len 0 fun _ => True := by
  intro xs n rest hlen hread
  refine ⟨?_, trivial⟩
  cases xs with
  | nil => cases hread; exact Nat.le_refl _
  | cons sigil bs =>
    have hbs : bs.length ≤ len := Nat.le_of_succ_le hlen
    have hshort : ∀ {k}, readUint k bs = .ok (n, rest) → rest.length + 0 ≤ (sigil :: bs).length := by
      intro k hk
      have hle := (yields_readUint k bs n rest hbs hk).1
      rw [List.length_cons]
      omega
    rw [readVarint_cons] at hread
    split at hread
    · cases hread
      exact Nat.le_succ _
    split at hread
    · exact hshort hread
    split at hread
    · exact hshort hread
    · exact hshort hread

theorem yields_readVarBytes : Yields readVarBytes len 0 fun b => b.length ≤ len := by
  refine yields_readVarint.bind (j := 0) fun l _ => ?_
  refine Yields.ite (fun _ => Yields.throw _) fun _ => ?_
  refine ((yields_readFull l).le.bind fun b hb => Yields.pure ?_).imp (Nat.zero_le _) fun _ h => h
  rw [b.2]
  exact hb.2

end Accepted

end Fnd.Chain

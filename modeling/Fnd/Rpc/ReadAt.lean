/-
  Fnd.Rpc.ReadAt — reading a blob over RPC (`Server.ReadAt` of `rpc/server.go`).

  The request's offset and length are `uint32`, and so is their sum, which the second bounds
  check compares with the size of a blob. The offset is at most that size by then, so the sum
  wraps only for a length close to 2 ^ 32, and then it is small: the request passes, a buffer of
  its length is allocated, and the blob ends before it is full. Otherwise the guard is exact and
  what passes is answered with the bytes it asks for (`read_at_exact_iff`).
-/

import Fnd.Blob.Stream
import Fnd.Rpc.Server

namespace Fnd.Rpc

open Blob (size slice readBlobAtInto readBlobAtInto_eq length_slice IoErr)
open Protocol (Shared)

variable {H K G : Type}

structure ReadAtReq where
  name : Name
  offset : UInt32
  len : UInt32

inductive ReadAtErr where
  /-- "offset is beyond blob bounds" -/
  | offset
  /-- "read is beyond blob bounds" -/
  | read
  | busy
  | reading (e : IoErr)
  deriving DecidableEq

/-- What a call returns, and the length of the buffer it reads into. -/
structure ReadAtOut where
  res : Except ReadAtErr Bytes
  buf : Nat

/-- The two checks before anything else. -/
def ReadAtReq.guard (req : ReadAtReq) : Option ReadAtErr :=
  if req.offset.toNat > size then some .offset
  else if (req.offset + req.len).toNat > size then some .read
  else none

def readAt (s : Shared H K G) (req : ReadAtReq) : ReadAtOut :=
  match req.guard with
  | some e => ⟨.error e, 0⟩
  | none =>
    if req.len = 0 then ⟨.ok [], 0⟩
    else
      match s.locks.tryRLock req.name with
      | none => ⟨.error .busy, 0⟩
      | some _ =>
        -- the deferred `RUnlock` gives back the lock just taken
        let r := readBlobAtInto (s.blobs req.name) (List.replicate req.len.toNat 0) req.offset.toNat
        match r.err with
        | some e => ⟨.error (.reading e), req.len.toNat⟩
        | none => ⟨.ok r.buf, req.len.toNat⟩

/-- The guard lets pass what lies in the blob; no buffer is larger than the blob; what passes is
    answered with its bytes, unless a writer holds the name. -/
structure ReadAtExact (s : Shared H K G) (req : ReadAtReq) : Prop where
  guard : req.guard = none ↔ req.offset.toNat + req.len.toNat ≤ size
  buf : (readAt s req).buf ≤ size
  bytes : req.guard = none → (s.locks req.name).writers = 0 →
    (readAt s req).res = .ok (slice (s.blobs req.name).contents req.offset.toNat req.len.toNat)

theorem guard_eq_none_iff (req : ReadAtReq) :
    req.guard = none ↔ req.offset.toNat ≤ size ∧ (req.offset.toNat + req.len.toNat) % 2 ^ 32 ≤ size := by
  rw [ReadAtReq.guard, UInt32.toNat_add]
  by_cases hoff : req.offset.toNat > size
  · rw [if_pos hoff]
    exact iff_of_false (fun h => by cases h) fun h => by omega
  · rw [if_neg hoff]
    split
    · exact iff_of_false (fun h => by cases h) fun h => by omega
    · exact iff_of_true rfl (by omega)

theorem readBlobAtInto_in (f : Blob.File) {off n : Nat} (h : off + n ≤ size) :
    readBlobAtInto f (List.replicate n 0) off = ⟨n, none, slice f.contents off n⟩ := by
  rw [readBlobAtInto_eq, Blob.filled, List.length_replicate, if_neg (by omega), Nat.min_eq_left (by omega),
    List.drop_of_length_le (Nat.le_of_eq List.length_replicate), List.append_nil]

theorem readAt_in {s : Shared H K G} {req : ReadAtReq} (hin : req.offset.toNat + req.len.toNat ≤ size)
    (hfree : (s.locks req.name).writers = 0) :
    (readAt s req).res = .ok (slice (s.blobs req.name).contents req.offset.toNat req.len.toNat) := by
  have hguard : req.guard = none := (guard_eq_none_iff req).mpr ⟨by omega, Nat.le_trans (Nat.mod_le _ _) hin⟩
  by_cases h0 : req.len = 0
  · have hnil : slice (s.blobs req.name).contents req.offset.toNat req.len.toNat = [] :=
      List.length_eq_zero_iff.mp (by rw [length_slice, h0]; exact Nat.zero_min _)
    simp only [readAt, hguard, if_pos h0, hnil]
  · obtain ⟨locks, hlock⟩ := Util.MultiLocker.tryRLock_free hfree
    simp only [readAt, hguard, if_neg h0, hlock, readBlobAtInto_in (s.blobs req.name) hin]

theorem readAt_buf_le {s : Shared H K G} {req : ReadAtReq} {n : Nat} (h : req.guard = none → req.len.toNat ≤ n) :
    (readAt s req).buf ≤ n := by
  unfold readAt
  cases hguard : req.guard with
  | some e => exact Nat.zero_le _
  | none =>
    have hlen := h hguard
    dsimp only
    repeat' split
    all_goals first | exact Nat.zero_le _ | exact hlen

theorem readAt_buf {s : Shared H K G} {req : ReadAtReq} (hpass : req.guard = none) (h0 : req.len ≠ 0)
    (hfree : (s.locks req.name).writers = 0) : (readAt s req).buf = req.len.toNat := by
  obtain ⟨locks, hlock⟩ := Util.MultiLocker.tryRLock_free hfree
  simp only [readAt, hpass, if_neg h0, hlock]
  split <;> rfl

/-- Of every request, to a server in any state. -/
theorem read_at_exact_iff (s : Shared H K G) (req : ReadAtReq) :
    ReadAtExact s req ↔ size < req.offset.toNat ∨ req.offset.toNat + req.len.toNat < 2 ^ 32 := by
  have hsize : size = 1048576 := rfl
  have hlt := req.len.toNat_lt
  refine ⟨fun h => ?_, fun h => ?_⟩
  · -- a sum that wraps is below the offset, and passes
    by_contra hnot
    rw [not_or] at hnot
    have hpass : req.guard = none := (guard_eq_none_iff req).mpr (by omega)
    have := h.guard.mp hpass
    omega
  · have hguard : req.guard = none ↔ req.offset.toNat + req.len.toNat ≤ size := by
      rw [guard_eq_none_iff]
      omega
    exact ⟨hguard, readAt_buf_le fun hpass => by have := hguard.mp hpass; omega,
      fun hpass hfree => readAt_in (hguard.mp hpass) hfree⟩

def idle : Shared Unit Unit Unit :=
  ⟨Store.DB.empty (fun _ => none) (fun _ => false), fun _ => Blob.File.zero, Util.MultiLocker.new⟩

/-- 2 ^ 32 - 1 bytes from the second on: the request passes, with a buffer of 4 GiB. -/
theorem a_wrapped_length_passes :
    ¬ ReadAtExact idle ⟨[], 1, 4294967295⟩ ∧ (readAt idle ⟨[], 1, 4294967295⟩).buf = 4294967295 := by
  have hpass : ReadAtReq.guard ⟨[], 1, 4294967295⟩ = none := by decide
  refine ⟨fun h => absurd (h.guard.mp hpass) (by decide), ?_⟩
  exact readAt_buf hpass (by decide) rfl

end Fnd.Rpc

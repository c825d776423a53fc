/-
  Fnd.Lib.LittleEndian — numbers as bytes of fixed count, low ones first.

  What is put in `k` bytes is read back modulo `256 ^ k` (`get_put`); bytes are those of their
  number (`put_get`).
-/

import Mathlib.Algebra.Group.Nat.Defs

namespace LittleEndian

def put : Nat → Nat → List UInt8
  | 0, _ => []
  | k + 1, n => UInt8.ofNat n :: put k (n / 256)

def get : List UInt8 → Nat
  | [] => 0
  | b :: bs => b.toNat + 256 * get bs

@[simp] theorem length_put (k n : Nat) : (put k n).length = k := by
  induction k generalizing n with
  | zero => rfl
  | succ k ih => rw [put, List.length_cons, ih]

theorem get_put (k n : Nat) : get (put k n) = n % 256 ^ k := by
  induction k generalizing n with
  | zero => rw [Nat.pow_zero, Nat.mod_one]; rfl
  | succ k ih =>
    have hb : (UInt8.ofNat n).toNat = n % 256 := UInt8.toNat_ofNat'
    rw [put, get, ih, hb, Nat.pow_succ, Nat.mul_comm (256 ^ k), Nat.mod_mul]

theorem get_put_of_lt {k n : Nat} (h : n < 256 ^ k) : get (put k n) = n := by
  rw [get_put, Nat.mod_eq_of_lt h]

theorem get_lt (bs : List UInt8) : get bs < 256 ^ bs.length := by
  induction bs with
  | nil => exact Nat.one_pos
  | cons b bs ih =>
    have hb := b.toNat_lt
    rw [get, List.length_cons, Nat.pow_succ]
    omega

theorem put_get (bs : List UInt8) : put bs.length (get bs) = bs := by
  induction bs with
  | nil => rfl
  | cons b bs ih =>
    have hb := b.toNat_lt
    have hhead : UInt8.ofNat (b.toNat + 256 * get bs) = b := by
      refine UInt8.toNat_inj.mp ?_
      rw [UInt8.toNat_ofNat']
      omega
    have htail : (b.toNat + 256 * get bs) / 256 = get bs := by omega
    rw [List.length_cons, get, put, hhead, htail, ih]

end LittleEndian

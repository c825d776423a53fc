/-
  Fnd.Protocol.Epoch — the epoch clock of a name over time (`protocol/epoch.go`).

  A name's clock starts at an hour of the first week of 2020 that its hash picks: the hash read
  as a big-endian integer, modulo the hours of a week. The loop takes the remainder byte by
  byte, so no intermediate value is large (`modBuffer_small`). From then on the epoch is the
  number of whole weeks since the start. Before it, the division rounds towards zero, and the
  epoch is 0 as well; so are the epochs of the first week.

  `epoch_staircase` puts this together, for every name and for times from 2020 on until 2 ^ 63 ns
  after its start, the range of a `time.Duration`.
-/

import Mathlib.Data.List.Induction
import Mathlib.Data.Nat.Digits.Defs
import Fnd.Protocol.Names

namespace Fnd.Protocol

variable {H K G : Type} (P : Prims H K G)

/-! ## The offset -/

def bigEndian (b : Bytes) : Nat := Nat.ofDigits 256 (b.reverse.map UInt8.toNat)

theorem bigEndian_concat (b : Bytes) (x : UInt8) : bigEndian (b ++ [x]) = 256 * bigEndian b + x.toNat := by
  rw [bigEndian, List.reverse_append, List.reverse_singleton, List.singleton_append, List.map_cons, Nat.ofDigits_cons,
    Nat.add_comm]
  rfl

theorem modBuffer_concat (b : Bytes) (x : UInt8) (n : Nat) :
    modBuffer (b ++ [x]) n = (256 % n * modBuffer b n + x.toNat) % n := by
  rw [modBuffer, List.foldl_append]
  rfl

theorem modBuffer_eq (b : Bytes) (n : Nat) : modBuffer b n = bigEndian b % n := by
  induction b using List.reverseRecOn with
  | nil => exact (Nat.zero_mod n).symm
  | append_singleton b x ih =>
    rw [modBuffer_concat, bigEndian_concat, ih, Nat.add_mod, ← Nat.mul_mod, ← Nat.add_mod]

theorem modBuffer_lt (b : Bytes) : modBuffer b hoursPerWeek < 168 := by
  rw [modBuffer_eq]
  exact Nat.mod_lt _ (by decide)

theorem modBuffer_small (b : Bytes) (x : UInt8) : 256 % hoursPerWeek * modBuffer b hoursPerWeek + x.toNat < 2 ^ 63 := by
  have hmod := modBuffer_lt b
  have hx := x.toNat_lt
  have hp : 256 % hoursPerWeek = 88 := rfl
  rw [hp]
  omega

/-! ## The clock -/

/-- From 2020 on, within the range of a duration since the name's start. -/
def InRange (name : Name) (t : Time) : Prop := epochDate ≤ t ∧ t - startDate P name < 2 ^ 63

theorem startDate_bounds (name : Name) : epochDate ≤ startDate P name ∧ startDate P name < epochDate + week := by
  have hmod := modBuffer_lt (P.hashName name)
  unfold startDate epochDate secondsPerHour week second
  constructor
  · show (_ : Int) ≤ _
    omega
  · show (_ : Int) < _
    omega

/-- Two divisions that round towards zero: nothing before the start, then the whole weeks. -/
theorem weeks_eq {d : Int} (h : -week < d) : (d.tdiv second).tdiv (week / second) = max 0 d / week := by
  have hweek : week / second = 604800 := rfl
  rw [hweek]
  unfold week at *
  unfold second at *
  by_cases h0 : 0 ≤ d
  · rw [Int.tdiv_eq_ediv_of_nonneg h0, Int.tdiv_eq_ediv_of_nonneg (by omega)]
    omega
  · obtain ⟨e, rfl⟩ : ∃ e, d = -e := ⟨-d, by omega⟩
    rw [Int.neg_tdiv, Int.neg_tdiv, Int.tdiv_eq_ediv_of_nonneg (show 0 ≤ e by omega), Int.tdiv_eq_ediv_of_nonneg (by omega)]
    omega

theorem toNat_currentEpoch {name : Name} {t : Int} (h : InRange P name t) :
    ((currentEpoch P t name).toNat : Int) = max 0 (t - startDate P name) / week := by
  obtain ⟨hfrom, hto⟩ := h
  obtain ⟨-, hstart⟩ := startDate_bounds P name
  change (_ : Int) < _ at hto hstart
  change (_ : Int) ≤ _ at hfrom
  rw [currentEpoch, weeks_eq (by omega)]
  have hsmall : 0 ≤ max 0 (t - startDate P name) / week ∧ max 0 (t - startDate P name) / week < 65536 := by
    unfold week second
    omega
  have hmod : (max 0 (t - startDate P name) / week % 2 ^ 16).toNat < 2 ^ 16 := by omega
  rw [UInt16.ofInt, UInt16.toNat_ofNat_of_lt' hmod]
  omega

/-- The clock of a name. -/
structure Staircase (name : Name) : Prop where
  start : startDate P name = epochDate + (bigEndian (P.hashName name) % 168 : Nat) * 3600 * second
  /-- `int`, in the loop that computes this -/
  noOverflow : ∀ pre x post, P.hashName name = pre ++ x :: post →
    256 % hoursPerWeek * modBuffer pre hoursPerWeek + x.toNat < 2 ^ 63
  first : ∀ t, InRange P name t → t < startDate P name + week → currentEpoch P t name = 0
  weeks : ∀ t, InRange P name t → startDate P name ≤ t →
    ((currentEpoch P t name).toNat : Int) = (t - startDate P name) / week
  mono : ∀ t t', InRange P name t → InRange P name t' → t ≤ t' → currentEpoch P t name ≤ currentEpoch P t' name
  weekly : ∀ t, startDate P name ≤ t → InRange P name (t + week) →
    (currentEpoch P (t + week) name).toNat = (currentEpoch P t name).toNat + 1

theorem staircase (name : Name) : Staircase P name := by
  refine ⟨?_, fun pre x _ _ => modBuffer_small pre x, fun t ht hlt => ?_, fun t ht hle => ?_, fun t t' ht ht' hle => ?_,
    fun t hle ht => ?_⟩
  · rw [startDate, modBuffer_eq]
    rfl
  · have hepoch := toNat_currentEpoch P ht
    change (_ : Int) < _ at hlt
    unfold week second at hlt hepoch
    exact UInt16.toNat_inj.mp (show _ = 0 by omega)
  · have hepoch := toNat_currentEpoch P ht
    change (_ : Int) ≤ _ at hle
    rwa [Int.max_eq_right (by omega)] at hepoch
  · have hepoch := toNat_currentEpoch P ht
    have hepoch' := toNat_currentEpoch P ht'
    change (_ : Int) ≤ _ at hle
    unfold week second at hepoch hepoch'
    exact UInt16.le_iff_toNat_le.mpr (by omega)
  · have hfrom := (startDate_bounds P name).1
    have hto := ht.2
    have hepoch' := toNat_currentEpoch P ht
    change (_ : Int) ≤ _ at hle hfrom
    change (_ : Int) < _ at hto
    have ht' : InRange P name t := by
      refine ⟨?_, ?_⟩
      · show (_ : Int) ≤ _
        omega
      · show (_ : Int) < _
        unfold week second at hto
        omega
    have hepoch := toNat_currentEpoch P ht'
    unfold week second at hepoch hepoch' ⊢
    omega

/-- Each name has such a clock, and two of them are at most one apart. -/
theorem epoch_staircase :
    (∀ name, Staircase P name) ∧
    ∀ name name' t, InRange P name t → InRange P name' t →
      (currentEpoch P t name).toNat ≤ (currentEpoch P t name').toNat + 1 := by
  refine ⟨staircase P, fun name name' t ht ht' => ?_⟩
  obtain ⟨hfrom, hto⟩ := startDate_bounds P name
  obtain ⟨hfrom', hto'⟩ := startDate_bounds P name'
  have hepoch := toNat_currentEpoch P ht
  have hepoch' := toNat_currentEpoch P ht'
  change (_ : Int) ≤ _ at hfrom hfrom'
  change (_ : Int) < _ at hto hto'
  unfold week second at hto hto' hepoch hepoch'
  omega

end Fnd.Protocol

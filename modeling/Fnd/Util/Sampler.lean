/-
  Fnd.Util.Sampler — random indices without repetition (`util/sampler.go`), by rejection.

  What the random source returns is a sequence of draws. `SampleIndices` gives up, with a panic,
  when a hundred draws in a row are indices that it has already. So it returns as many distinct
  indices as it should exactly when the source has a new one in time (`samples_iff`); how likely
  that is goes down as the sample gets close to the whole slice.
-/

import Fnd.Lib.Rejection

namespace Fnd.Util

/-- The draws for one index, at most. -/
def maxDraws : Nat := 100

/-- `SampleIndices`; `none` is the panic. The indices in use are those in `out`. -/
def sampleIndices (r : Nat → Nat) (sliceLen count : Nat) : Option (List Nat) :=
  if sliceLen = 0 then some []
  else if count > sliceLen then some (List.range sliceLen)
  else Rejection.sample r maxDraws count 0 []

def Samples (r : Nat → Nat) (sliceLen count : Nat) : Prop :=
  ∃ out, sampleIndices r sliceLen count = some out ∧ out.length = min count sliceLen ∧ out.Nodup ∧ ∀ i ∈ out, i < sliceLen

/-- The slice is empty or too short anyway; or, as long as fewer indices than wanted have been
    drawn, one of the next hundred draws is new. -/
def NewInTime (r : Nat → Nat) (sliceLen count : Nat) : Prop :=
  sliceLen = 0 ∨ sliceLen < count ∨ ∀ k, (Rejection.seen r k).card < count → Rejection.NewWithin r maxDraws k

theorem samples_cases {r : Nat → Nat} {sliceLen : Nat} (hr : 0 < sliceLen → ∀ i, r i < sliceLen) (count : Nat) :
    Samples r sliceLen count ∧ NewInTime r sliceLen count ∨
    sampleIndices r sliceLen count = none ∧ ¬ NewInTime r sliceLen count := by
  unfold Samples NewInTime sampleIndices
  by_cases h0 : sliceLen = 0
  · rw [if_pos h0]
    exact .inl ⟨⟨[], rfl, by rw [h0, Nat.min_zero]; rfl, List.nodup_nil, fun i hi => absurd hi List.not_mem_nil⟩, .inl h0⟩
  rw [if_neg h0]
  by_cases hall : count > sliceLen
  · rw [if_pos hall]
    refine .inl ⟨⟨_, rfl, ?_, List.nodup_range, fun i hi => List.mem_range.mp hi⟩, .inr (.inl hall)⟩
    rw [List.length_range, Nat.min_eq_right (Nat.le_of_lt hall)]
  rw [if_neg hall, or_iff_right h0, or_iff_right hall, Nat.min_eq_left (Nat.not_lt.mp hall)]
  rcases Rejection.sample_spec (r := r) maxDraws count 0 [] ⟨List.nodup_nil, rfl⟩ with
    ⟨xs, hxs, hnodup, hlen, hfrom, hnew⟩ | ⟨hnone, k, -, hcard, hlate⟩
  · rw [List.length_nil, Nat.zero_add] at hlen hnew
    refine .inl ⟨⟨xs, hxs, hlen, hnodup, fun i hi => ?_⟩, fun k hk => hnew k (Nat.zero_le k) hk⟩
    rcases hfrom i hi with hi | ⟨j, rfl⟩
    · exact absurd hi List.not_mem_nil
    · exact hr (Nat.pos_of_ne_zero h0) j
  · rw [List.length_nil, Nat.zero_add] at hcard
    exact .inr ⟨hnone, fun h => hlate (h k hcard)⟩

theorem samples_iff {r : Nat → Nat} {sliceLen : Nat} (hr : 0 < sliceLen → ∀ i, r i < sliceLen) (count : Nat) :
    Samples r sliceLen count ↔ NewInTime r sliceLen count := by
  rcases samples_cases hr count with ⟨hsamples, hnew⟩ | ⟨hnone, hlate⟩
  · exact iff_of_true hsamples hnew
  · refine iff_of_false (fun ⟨xs, hxs, _⟩ => ?_) hlate
    rw [hnone] at hxs
    cases hxs

end Fnd.Util

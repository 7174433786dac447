import Mathlib.Algebra.BigOperators.Intervals
import Mathlib.Algebra.Order.BigOperators.Group.Finset

/-!
# Parties that meet at a counter

Every party raises one counter when it arrives at its next barrier, and goes on from its barrier `k`
when the counter has reached `k + 1` times the number of parties. The counter is never reset.

* `Meets` is an invariant on two functions: how often each party has arrived, and how often it has
  gone on. What a party does between two barriers is the user's.
* The counter is not part of the state: it is the sum of the arrivals (`count`).
* A user shows that its steps are an arrival, a passing or neither, and gets the invariant of every
  run.

Results:
* `Meets.arrive`, `Meets.pass`: no party is more than one barrier ahead of another.
* `Meets.all_arrived`: a party that goes on has waited for all.
* `exists_pass`: parties that have as many barriers before them do not all wait.
-/

namespace Ringside.Barrier

variable {n : Nat} {arrived passed : Nat → Nat} {i : Nat}

/-- How often each of `n` parties has arrived, and how often it has gone on. -/
structure Meets (n : Nat) (arrived passed : Nat → Nat) : Prop where
  passed_le : ∀ i < n, passed i ≤ arrived i
  arrived_le : ∀ i < n, arrived i ≤ passed i + 1
  skew : ∀ i < n, ∀ j < n, passed i ≤ arrived j

/-- The counter. -/
def count (n : Nat) (arrived : Nat → Nat) : Nat := ∑ i ∈ Finset.range n, arrived i

theorem count_update (arrived : Nat → Nat) (hi : i < n) (v : Nat) :
    count n (Function.update arrived i v) + arrived i = count n arrived + v := by
  unfold count
  have hmem := Finset.mem_range.mpr hi
  rw [Finset.sum_update_of_mem hmem, ← Finset.sum_sdiff (Finset.singleton_subset_iff.mpr hmem),
    Finset.sum_singleton]
  omega

namespace Meets

variable (h : Meets n arrived passed)

include h

/-- **An arrival.** -/
theorem arrive (hi : i < n) (heq : arrived i = passed i) :
    Meets n (Function.update arrived i (passed i + 1)) passed := by
  refine ⟨fun j hj => ?_, fun j hj => ?_, fun j hj k hk => ?_⟩
  · rcases eq_or_ne j i with rfl | hne
    · rw [Function.update_self]
      exact Nat.le_succ _
    · rw [Function.update_of_ne hne]
      exact h.passed_le j hj
  · rcases eq_or_ne j i with rfl | hne
    · rw [Function.update_self]
    · rw [Function.update_of_ne hne]
      exact h.arrived_le j hj
  · rcases eq_or_ne k i with rfl | hne
    · rw [Function.update_self, ← heq]
      exact (h.skew j hj k hk).trans (Nat.le_succ _)
    · rw [Function.update_of_ne hne]
      exact h.skew j hj k hk

/-- **A party that goes on has waited for all.** -/
theorem all_arrived (hcount : (passed i + 1) * n ≤ count n arrived) {j : Nat} (hj : j < n) :
    passed i + 1 ≤ arrived j := by
  by_cases hahead : ∃ k < n, passed i + 1 ≤ passed k
  · obtain ⟨k, hk, hle⟩ := hahead
    exact hle.trans (h.skew k hk j hj)
  · have hle : ∀ k ∈ Finset.range n, arrived k ≤ passed i + 1 := fun k hk => by
      have hnot : ¬passed i + 1 ≤ passed k := fun hle => hahead ⟨k, Finset.mem_range.mp hk, hle⟩
      exact (h.arrived_le k (Finset.mem_range.mp hk)).trans (by omega)
    -- no summand exceeds the average, so none is below it
    by_contra hlt
    have hsum : count n arrived < ∑ _k ∈ Finset.range n, (passed i + 1) :=
      Finset.sum_lt_sum hle ⟨j, Finset.mem_range.mpr hj, not_le.mp hlt⟩
    rw [Finset.sum_const, Finset.card_range, Nat.nsmul_eq_mul, Nat.mul_comm] at hsum
    exact absurd hcount (not_le.mpr hsum)

/-- **Going on.** -/
theorem pass (hi : i < n) (hwait : arrived i = passed i + 1)
    (hcount : (passed i + 1) * n ≤ count n arrived) :
    Meets n arrived (Function.update passed i (passed i + 1)) := by
  refine ⟨fun j hj => ?_, fun j hj => ?_, fun j hj k hk => ?_⟩
  · rcases eq_or_ne j i with rfl | hne
    · rw [Function.update_self, hwait]
    · rw [Function.update_of_ne hne]
      exact h.passed_le j hj
  · rcases eq_or_ne j i with rfl | hne
    · rw [Function.update_self, hwait]
      exact Nat.le_succ _
    · rw [Function.update_of_ne hne]
      exact h.arrived_le j hj
  · rcases eq_or_ne j i with rfl | hne
    · rw [Function.update_self]
      exact h.all_arrived hcount hk
    · rw [Function.update_of_ne hne]
      exact h.skew j hj k hk

end Meets

/-- **Parties with `N` barriers each do not all wait**: one of those that are not through can go on.
-/
theorem exists_pass {N : Nat}
    (hends : ∀ j < n, (arrived j = passed j + 1 ∧ passed j < N) ∨ (arrived j = N ∧ passed j = N))
    (hi : i < n) (hlt : passed i < N) : ∃ j < n, arrived j = passed j + 1 ∧
      (passed j + 1) * n ≤ count n arrived := by
  -- the one that is furthest behind
  obtain ⟨j, hj, hmin⟩ := Finset.exists_min_image (Finset.range n) passed
    ⟨i, Finset.mem_range.mpr hi⟩
  have hjn := Finset.mem_range.mp hj
  have hjlt : passed j < N := (hmin i (Finset.mem_range.mpr hi)).trans_lt hlt
  refine ⟨j, hjn, ((hends j hjn).resolve_right fun h => absurd h.2 hjlt.ne).1, ?_⟩
  have hle : ∀ k ∈ Finset.range n, passed j + 1 ≤ arrived k := fun k hk => by
    rcases hends k (Finset.mem_range.mp hk) with ⟨hk', -⟩ | ⟨hk', -⟩
    · rw [hk']
      exact Nat.succ_le_succ (hmin k hk)
    · rw [hk']
      exact hjlt
  have hsum := Finset.sum_le_sum hle
  rwa [Finset.sum_const, Finset.card_range, Nat.nsmul_eq_mul, Nat.mul_comm] at hsum

end Ringside.Barrier

import Mathlib.Algebra.Order.BigOperators.Group.Finset
import Ringside.Scatter

/-!
# The head of a weighted row

The entries of a row are ordered by value descending, then by index ascending. Where a threshold on
the weight that comes before an entry cuts this order, the entries above some value stay and the
first few at it; a bracket of values around the cut is narrowed until it is found.

* `above t` is the weight above `t`, `before i` that of the entries before entry `i`. With unit
  weights these are counts, and the cut is a top-k.
* Values are of a linear order with a greatest element; an entry's weight is a function of its
  value, so equal entries weigh the same.
* `Keeps tau n` is the set that a value and a number describe: what is above `tau`, and the first
  `n` at it.
* `Bracket lo hi`: what is above `lo` reaches the threshold and what is above `hi` does not. A
  search keeps one, and ends when it is of neighbours.

Results:
* `before_eq`, `sum_keeps`: the weight before an entry, and the weight of what stays.
* `above_next`: the next value takes its weight from what is above.
* `keeps_iff`: a value and a number of its entries are the cut when the weight says so.
* `Bracket.up`, `Bracket.adjacent`: what a value inside a bracket says about the cut.
-/

namespace Ringside.Cut

open Ringside.Scatter

variable {α : Type} [LinearOrder α] (x : Nat → α) (V : Nat)

/-- Entry `j` comes before entry `i`. -/
def Before (j i : Nat) : Prop := x i < x j ∨ (x j = x i ∧ j < i)

instance decidableBefore (j i : Nat) : Decidable (Before x j i) :=
    inferInstanceAs (Decidable (_ ∨ _))

/-- How many entries have a value. -/
def mult (t : α) : Nat := Nat.count (fun j => x j = t) V

/-- The least value above `t`. -/
def next [OrderTop α] (t : α) : α := (Finset.range V).inf fun j => if t < x j then x j else ⊤

/-- Entries above `tau`, and the first `n` at it. -/
def Keeps (tau : α) (n i : Nat) : Prop := tau < x i ∨
    (x i = tau ∧ Nat.count (fun j => x j = tau) i < n)

instance decidableKeeps (tau : α) (n i : Nat) : Decidable (Keeps x tau n i) :=
    inferInstanceAs (Decidable (_ ∨ _))

section Weight

variable {R : Type} [CommRing R] (v : α → R)

/-- The weight above `t`. -/
def above (t : α) : R := ∑ j ∈ Finset.range V, if t < x j then v (x j) else 0

/-- The weight before entry `i`. -/
def before (i : Nat) : R := ∑ j ∈ Finset.range V, if Before x j i then v (x j) else 0

variable {x V v}

theorem sum_eq_value (t : α) (n : Nat) :
    ∑ j ∈ Finset.range n, (if x j = t then v (x j) else 0) =
    v t * (Nat.count (fun j => x j = t) n : R) := by
  have hterm : ∀ j ∈ Finset.range n, (if x j = t then v (x j) else 0) = if x j = t then
    v t else 0 := fun j _ => by
    split_ifs with hj
    · rw [hj]
    · rfl
  rw [Finset.sum_congr rfl hterm, ← Finset.sum_filter, Finset.sum_const,
    Nat.count_eq_card_filter_range, nsmul_eq_mul, mul_comm]

/-- **The weight before an entry**: what is above it, and its equals before it. -/
theorem before_eq {i : Nat} (hi : i < V) :
    before x V v i = above x V v (x i) + v (x i) * (Nat.count (fun j => x j = x i) i : R) := by
  have hequals : ∑ j ∈ Finset.range V, (if x j = x i ∧ j < i then v (x j) else 0) =
      ∑ j ∈ Finset.range i, if x j = x i then v (x j) else 0 := by
    rw [← Finset.sum_filter, ← Finset.sum_filter]
    congr 1
    ext j
    simp only [Finset.mem_filter, Finset.mem_range]
    constructor
    · exact fun h => ⟨h.2.2, h.2.1⟩
    · exact fun h => ⟨h.1.trans hi, h.2, h.1⟩
  unfold before above
  rw [← sum_eq_value, ← hequals, ← Finset.sum_add_distrib]
  refine Finset.sum_congr rfl fun j _ => ?_
  by_cases hlt : x i < x j
  · rw [if_pos (show Before x j i from Or.inl hlt), if_pos hlt, if_neg fun h =>
      hlt.ne' h.1, add_zero]
  · rw [if_neg hlt, zero_add]
    exact if_congr (show Before x j i ↔ _ from or_iff_right hlt) rfl rfl

/-- The first `n` entries at a value. -/
theorem count_first (tau : α) (n m : Nat) :
    Nat.count (fun i => x i = tau ∧ Nat.count (fun j => x j = tau) i < n) m =
    min n (Nat.count (fun j => x j = tau) m) := by
  induction m with
  | zero => simp
  | succ m ih =>
    rw [Nat.count_succ, ih, Nat.count_succ]
    by_cases heq : x m = tau
    · simp only [heq, true_and, if_true]
      split_ifs <;> omega
    · simp only [heq, false_and, if_false, Nat.add_zero]

/-- **The weight of what stays.** -/
theorem sum_keeps {tau : α} {n : Nat} (hn : n ≤ mult x V tau) :
    ∑ i ∈ Finset.range V, (if Keeps x tau n i then v (x i) else 0) =
      above x V v tau + v tau * (n : R) := by
  have hties : ∑ i ∈ Finset.range V, (if x i = tau ∧ Nat.count (fun j => x j = tau) i < n then
    v (x i) else 0) = v tau * (n : R) := by
    have hterm : ∀ i ∈ Finset.range V, (if x i = tau ∧ Nat.count (fun j => x j = tau) i < n then
      v (x i) else 0) =
        if x i = tau ∧ Nat.count (fun j => x j = tau) i < n then v tau else 0 := fun i _ => by
      split_ifs with hi
      · rw [hi.1]
      · rfl
    rw [Finset.sum_congr rfl hterm, ← Finset.sum_filter, Finset.sum_const,
      ← Nat.count_eq_card_filter_range, count_first,
      min_eq_left (show n ≤ Nat.count _ V from hn), nsmul_eq_mul, mul_comm]
  rw [← hties, above, ← Finset.sum_add_distrib]
  refine Finset.sum_congr rfl fun i _ => ?_
  by_cases hlt : tau < x i
  · rw [if_pos (show Keeps x tau n i from Or.inl hlt), if_pos hlt, if_neg fun h =>
      hlt.ne' h.1, add_zero]
  · rw [if_neg hlt, zero_add]
    exact if_congr (show Keeps x tau n i ↔ _ from or_iff_right hlt) rfl rfl

section Next

variable [OrderTop α] {t : α} {j : Nat} (hj : j < V) (h : t < x j)

theorem lt_next (ht : t < ⊤) : t < next x V t := by
  refine (Finset.lt_inf_iff ht).mpr fun j _ => ?_
  split_ifs with hlt
  · exact hlt
  · exact ht

include hj h in
theorem next_le : next x V t ≤ x j := by
  refine (Finset.inf_le (Finset.mem_range.mpr hj)).trans ?_
  rw [if_pos h]

include hj h in
theorem exists_next : ∃ i < V, x i = next x V t := by
  obtain ⟨i, hi, heq⟩ := Finset.exists_mem_eq_inf (Finset.range V) ⟨j, Finset.mem_range.mpr hj⟩
    fun j => if t < x j then x j else ⊤
  by_cases hlt : t < x i
  · exact ⟨i, Finset.mem_range.mp hi, by rw [next, heq, if_pos hlt]⟩
  · rw [if_neg hlt] at heq
    have htop : next x V t = ⊤ := heq
    have hle := next_le hj h
    rw [htop, top_le_iff] at hle
    exact ⟨j, hj, hle.trans htop.symm⟩

include h in
/-- **The next value** takes its weight from what is above. -/
theorem above_next : above x V v t = above x V v (next x V t) + v
    (next x V t) * (mult x V (next x V t) : R) := by
  unfold above mult
  rw [← sum_eq_value, ← Finset.sum_add_distrib]
  refine Finset.sum_congr rfl fun i hi => ?_
  have hnext := lt_next (x := x) (V := V) (h.trans_le le_top)
  rcases lt_trichotomy (next x V t) (x i) with hlt | heq | hlt
  · rw [if_pos (hnext.trans hlt), if_pos hlt, if_neg hlt.ne', add_zero]
  · rw [if_pos (heq ▸ hnext), if_neg heq.not_lt, if_pos heq.symm, zero_add]
  · have hle : ¬ t < x i := fun hti => absurd (next_le (Finset.mem_range.mp hi) hti) hlt.not_ge
    rw [if_neg hle, if_neg hlt.not_gt, if_neg hlt.ne, add_zero]

end Next

variable [LinearOrder R] [IsStrictOrderedRing R] (hv : ∀ j < V, 0 ≤ v (x j))

include hv in
theorem above_antitone {t t' : α} (h : t ≤ t') : above x V v t' ≤ above x V v t := by
  refine Finset.sum_le_sum fun j hj => ?_
  have hj := hv j (Finset.mem_range.mp hj)
  by_cases hlt : t' < x j
  · rw [if_pos hlt, if_pos (h.trans_lt hlt)]
  · rw [if_neg hlt]
    split_ifs
    · exact hj
    · exact le_rfl

include hv in
/-- What is above a value and at it is above every lesser value. -/
theorem above_add_le {t t' : α} (h : t < t') :
    above x V v t' + v t' * (mult x V t' : R) ≤ above x V v t := by
  unfold above mult
  rw [← sum_eq_value, ← Finset.sum_add_distrib]
  refine Finset.sum_le_sum fun j hj => ?_
  have hj := hv j (Finset.mem_range.mp hj)
  rcases lt_trichotomy t' (x j) with hlt | heq | hlt
  · rw [if_pos hlt, if_neg hlt.ne', add_zero, if_pos (h.trans hlt)]
  · rw [if_neg (by rw [← heq]; exact lt_irrefl _), if_pos heq.symm, zero_add, if_pos (heq ▸ h)]
  · rw [if_neg hlt.not_gt, if_neg hlt.ne, add_zero]
    split_ifs
    · exact hj
    · exact le_rfl

include hv in
/-- **The cut**: an entry stays exactly when the weight before it is short of the threshold. -/
theorem keeps_iff {tau : α} {n : Nat} {θ : R} (hn : 0 < n) (hmult : n ≤ mult x V tau)
    (hshort : above x V v tau + v tau * ((n : R) - 1) < θ)
    (hreach : θ ≤ above x V v tau + v tau * n) {i : Nat} (hi : i < V) :
    Keeps x tau n i ↔ before x V v i < θ := by
  have hcount : ∀ {a b : Nat}, a ≤ b → v (x i) * (a : R) ≤ v (x i) * b := fun hab =>
    mul_le_mul_of_nonneg_left (Nat.cast_le.mpr hab) (hv i hi)
  unfold Keeps
  rcases lt_trichotomy tau (x i) with hlt | heq | hlt
  · -- all entries at `x i` are above `tau`
    refine iff_of_true (Or.inl hlt) ?_
    have hall := above_add_le hv hlt
    have hle := hcount (Nat.count_monotone (fun j => x j = x i) hi.le)
    have hnonneg : above x V v tau ≤ above x V v tau + v tau * ((n : R) - 1) := by
      refine le_add_of_nonneg_right (mul_nonneg ?_ ?_)
      · obtain ⟨j, hj, hjt, -⟩ := exists_count_eq (hn.trans_le hmult)
        exact hjt ▸ hv j hj
      · exact sub_nonneg.mpr (by exact_mod_cast hn)
    calc before x V v i = above x V v (x i) + v (x i) * (Nat.count (fun j => x j = x i) i :
      R) := before_eq hi
      _ ≤ above x V v (x i) + v (x i) * (mult x V (x i) : R) := add_le_add_right hle _
      _ ≤ above x V v tau := hall
      _ < θ := hnonneg.trans_lt hshort
  · rw [before_eq hi, ← heq]
    rw [← heq] at hcount
    constructor
    · rintro (hself | ⟨-, hlt⟩)
      · exact absurd hself (lt_irrefl _)
      · have hle := hcount (Nat.le_sub_one_of_lt hlt)
        rw [Nat.cast_sub hn, Nat.cast_one] at hle
        exact (add_le_add_right hle _).trans_lt hshort
    · intro hlt
      refine Or.inr ⟨rfl, ?_⟩
      by_contra hge
      exact absurd (hreach.trans (add_le_add_right (hcount (not_lt.mp hge)) _)) hlt.not_ge
  · refine iff_of_false (by rintro (h | ⟨h, -⟩); exacts [hlt.not_gt h, hlt.ne h]) ?_
    have hmono : v tau * (n : R) ≤ v tau * (mult x V tau : R) := by
      obtain ⟨j, hj, hjt, -⟩ := exists_count_eq (hn.trans_le hmult)
      exact mul_le_mul_of_nonneg_left (Nat.cast_le.mpr hmult) (hjt ▸ hv j hj)
    rw [not_lt, before_eq hi]
    calc θ ≤ above x V v tau + v tau * n := hreach
      _ ≤ above x V v tau + v tau * (mult x V tau : R) := add_le_add_right hmono _
      _ ≤ above x V v (x i) := above_add_le hv hlt
      _ ≤ _ := le_add_of_nonneg_right (mul_nonneg (hv i hi) (Nat.cast_nonneg _))

/-! ## Brackets -/

/-- The cut lies above `lo` and not above `hi`. -/
structure Bracket (x : Nat → α) (V : Nat) (v : α → R) (θ : R) (lo hi : α) : Prop where
  low : θ ≤ above x V v lo
  high : above x V v hi < θ

namespace Bracket

variable {θ : R} {lo hi t : α}

include hv in
theorem lt (h : Bracket x V v θ lo hi) : lo < hi := by
  by_contra hle
  exact absurd (h.low.trans (above_antitone hv (not_lt.mp hle))) h.high.not_ge

include hv in
/-- There is an entry in a bracket. -/
theorem exists_entry (h : Bracket x V v θ lo hi) : ∃ j < V, lo < x j ∧ x j ≤ hi := by
  by_contra hnone
  have hle : above x V v lo ≤ above x V v hi := by
    refine Finset.sum_le_sum fun j hj => ?_
    have hj := Finset.mem_range.mp hj
    by_cases hlo : lo < x j
    · rw [if_pos hlo, if_pos (not_le.mp fun hhi => hnone ⟨j, hj, hlo, hhi⟩)]
    · rw [if_neg hlo]
      split_ifs
      · exact hv j hj
      · exact le_rfl
  exact absurd (h.low.trans hle) h.high.not_ge

variable [OrderTop α]

include hv in
/-- **A value with enough above it**: the next one is within the bracket. -/
theorem up (h : Bracket x V v θ lo hi) (ht : θ ≤ above x V v t) :
    t < next x V t ∧ next x V t ≤ hi ∧ (∃ i < V, x i = next x V t) ∧
      above x V v t = above x V v (next x V t) + v (next x V t) * (mult x V (next x V t) : R) := by
  obtain ⟨j, hj, htj, hjhi⟩ := exists_entry hv ⟨ht, h.high⟩
  exact ⟨lt_next (htj.trans_le le_top), (next_le hj htj).trans hjhi, exists_next hj htj,
    above_next htj⟩

include hv in
/-- **A bracket of neighbours**: the next value is the upper one, and has too little above it. -/
theorem adjacent (h : Bracket x V v θ lo hi) (hadj : ∀ y, lo < y → ¬ y < hi) :
    next x V lo = hi := by
  obtain ⟨hlt, hle, -⟩ := h.up hv h.low
  exact le_antisymm hle (not_lt.mp (hadj _ hlt))

end Bracket

end Weight

end Ringside.Cut

import Mathlib.Algebra.BigOperators.Ring.List
import Mathlib.Algebra.Order.BigOperators.Group.List
import Mathlib.Algebra.Order.Field.Basic
import Mathlib.Tactic.Ring

/-!
# Online softmax

A partial result holds a reference score, a sum of weights and accumulated values, both relative to
the reference. It stands for the items it has seen, whatever the reference is: taking in more items,
moving the reference and merging partial results keep that, and normalizing gives the weighted
average.

* The weight is any positive function that turns sums into products (`Exponential`); scores are
  scaled by `c`. Nothing else is used of an exponential, so the reference need not be the maximum:
  that it is one is a matter of overflow.
* An item is a score and a value; values are functions into the field, so a row of values is one
  item.
* `absorb` is a step of a kernel's loop, `merge` is what combines partial results that were computed
  apart, after they are brought to one reference.

Results:
* `stands_nil`: nothing seen yet, at any reference.
* `Stands.absorb`: more items, at a new reference.
* `stands_merge`: partial results of parts, at one reference.
* `Stands.normalize`: the average, and exactly zero of nothing.
-/

namespace Ringside.OnlineSoftmax

variable {R ι : Type*}

/-- What is used of an exponential. -/
structure Exponential [Mul R] [Add R] [Zero R] [LT R] (w : R → R) : Prop where
  add : ∀ a b, w (a + b) = w a * w b
  pos : ∀ a, 0 < w a

structure Item (R ι : Type*) where
  score : R
  value : ι → R

structure Partial (R ι : Type*) where
  m : R
  sum : R
  acc : ι → R

section Field

variable [Field R] (w : R → R) (c : R)

def weight (t : Item R ι) : R := w (t.score * c)

def weights (items : List (Item R ι)) : R := (items.map (weight w c)).sum

def weighted (items : List (Item R ι)) (d : ι) : R :=
    (items.map fun t => weight w c t * t.value d).sum

/-- The weighted average of the items; zero of none. -/
def average (items : List (Item R ι)) (d : ι) : R :=
  if items = [] then 0 else weighted w c items d / weights w c items

/-- A partial result takes in items, at a new reference. -/
def absorb (m : R) (p : Partial R ι) (items : List (Item R ι)) : Partial R ι :=
  let a := w ((p.m - m) * c)
  ⟨m, p.sum * a + (items.map fun t => w (t.score * c - m * c)).sum,
    fun d => p.acc d * a + (items.map fun t => w (t.score * c - m * c) * t.value d).sum⟩

/-- Partial results at one reference. -/
def merge (m : R) (ps : List (Partial R ι)) : Partial R ι :=
  ⟨m, (ps.map fun p => p.sum * w ((p.m - m) * c)).sum, fun d =>
    (ps.map fun p => p.acc d * w ((p.m - m) * c)).sum⟩

/-- A partial result stands for items. -/
structure Stands (p : Partial R ι) (items : List (Item R ι)) : Prop where
  sum : p.sum * w (p.m * c) = weights w c items
  acc : ∀ d, p.acc d * w (p.m * c) = weighted w c items d

variable {w c}

theorem weights_append (xs ys : List (Item R ι)) :
    weights w c (xs ++ ys) = weights w c xs + weights w c ys := by
  simp [weights]

theorem weighted_append (xs ys : List (Item R ι)) (d : ι) :
    weighted w c (xs ++ ys) d = weighted w c xs d + weighted w c ys d := by
  simp [weighted]

/-- **Nothing seen yet**, at any reference. -/
theorem stands_nil (m : R) : Stands w c (⟨m, 0, fun _ => 0⟩ : Partial R ι) [] :=
  ⟨by simp [weights], fun d => by simp [weighted]⟩

end Field

section Ordered

variable [Field R] [LinearOrder R] {w : R → R} {c : R}

variable (hw : Exponential w) {p : Partial R ι} {xs ys : List (Item R ι)}

include hw

/-- A weight does not depend on the reference it was taken at. -/
theorem Exponential.relative (a m : R) : w (a - m * c) * w (m * c) = w a := by
  rw [← hw.add, sub_add_cancel]

theorem Exponential.moved (m m' : R) : w ((m - m') * c) * w (m' * c) = w (m * c) := by
  rw [← hw.add, ← add_mul, sub_add_cancel]

theorem sum_relative (m : R) (items : List (Item R ι)) (f : Item R ι → R) :
    (items.map fun t => w (t.score * c - m * c) * f t).sum * w (m * c) =
    (items.map fun t => weight w c t * f t).sum := by
  rw [← List.sum_map_mul_right]
  refine congrArg _ (List.map_congr_left fun t _ => ?_)
  rw [mul_right_comm, hw.relative]
  rfl

/-- **More items**, at a new reference. -/
theorem Stands.absorb (h : Stands w c p xs) (m : R) :
    Stands w c (absorb w c m p ys) (xs ++ ys) := by
  have hmoved : ∀ x, x * w ((p.m - m) * c) * w (m * c) = x * w (p.m * c) := fun x => by
    rw [mul_assoc, hw.moved]
  refine ⟨?_, fun d => ?_⟩
  · have hnew := sum_relative hw (c := c) m ys fun _ => 1
    simp only [mul_one] at hnew
    simp only [OnlineSoftmax.absorb, add_mul, hmoved, h.sum, hnew, weights_append]
    rfl
  · simp only [OnlineSoftmax.absorb, add_mul, hmoved, h.acc, sum_relative hw m ys fun t =>
      t.value d, weighted_append]
    rfl

/-- **Partial results of parts**, at one reference. -/
theorem stands_merge (m : R) : ∀ {ps : List (Partial R ι)} {parts : List (List (Item R ι))},
    List.Forall₂ (Stands w c) ps parts → Stands w c (merge w c m ps) parts.flatten
  | _, _, .nil => stands_nil m
  | p :: ps, part :: parts, .cons h hs => by
    have hmoved : ∀ x, x * w ((p.m - m) * c) * w (m * c) = x * w (p.m * c) := fun x => by
      rw [mul_assoc, hw.moved]
    have ih := stands_merge m hs
    refine ⟨?_, fun d => ?_⟩
    · have hsum := ih.sum
      simp only [merge] at hsum ⊢
      rw [List.map_cons, List.sum_cons, add_mul, hmoved, h.sum, hsum, List.flatten_cons,
        weights_append]
    · have hacc := ih.acc d
      simp only [merge] at hacc ⊢
      rw [List.map_cons, List.sum_cons, add_mul, hmoved, h.acc, hacc, List.flatten_cons,
        weighted_append]

variable [IsStrictOrderedRing R]

theorem weights_pos (hne : xs ≠ []) : 0 < weights w c xs := by
  refine List.sum_pos _ (fun x hx => ?_) (by simpa using hne)
  obtain ⟨t, -, rfl⟩ := List.mem_map.mp hx
  exact hw.pos _

/-- **The average**, and exactly zero of nothing. -/
theorem Stands.normalize (h : Stands w c p xs) (d : ι) :
    p.acc d * (if 0 < p.sum then 1 / p.sum else 0) = average w c xs d := by
  have hpos := hw.pos (p.m * c)
  unfold average
  by_cases hnil : xs = []
  · have hsum : p.sum = 0 := by
      have := h.sum
      rw [hnil, weights, List.map_nil, List.sum_nil] at this
      exact (mul_eq_zero.mp this).resolve_right hpos.ne'
    rw [if_pos hnil, hsum, if_neg (lt_irrefl _), mul_zero]
  · have hsum : 0 < p.sum := by
      refine pos_of_mul_pos_left ?_ hpos.le
      rw [h.sum]
      exact weights_pos hw hnil
    rw [if_neg hnil, if_pos hsum, ← h.sum, ← h.acc, mul_div_mul_right _ _ hpos.ne', mul_one_div]

end Ordered

end Ringside.OnlineSoftmax

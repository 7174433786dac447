import Ringside.Segments

/-!
# First maxima

The first maximum of a function on a range is the least index of its greatest value. A scan that
replaces its best value only by a greater one finds it, and so do the first maxima of the range's
segments, of which the first greatest is taken.

* `FirstMax f a b i` is a relation, so that it can be stated of any way to find `i`. `argmax` is the
  index itself.
* Values are of a linear order. Ties go to the lower index throughout, which makes the maximum of
  the segments' maxima the one of the whole range.

Results:
* `FirstMax.append`: two adjacent ranges.
* `FirstMax.congr`, `FirstMax.shift`: the same values, and a range that is read from 0 on.
* `scan_firstMax`: the scan.
* `FirstMax.segments`: segments laid end to end.
* `argmax_eq`: a first maximum is the one that `argmax` names.
-/

namespace Ringside.Argmax

open Ringside.Segments

variable {α : Type} [LinearOrder α]

/-- `i` is the least index of the greatest value of `f` on `[a, b)`. -/
structure FirstMax (f : Nat → α) (a b i : Nat) : Prop where
  from_start : a ≤ i
  in_range : i < b
  greatest : ∀ j, a ≤ j → j < b → f j ≤ f i
  first : ∀ j, a ≤ j → j < i → f j < f i

/-- The lowest index below `n` of a greatest value. -/
def argmax (f : Nat → α) (n : Nat) : Nat :=
  ((List.range n).find? fun i => (List.range n).all fun j => f j ≤ f i).getD 0

section FirstMax

variable {f g : Nat → α} {a b c i j : Nat}

theorem FirstMax.single : FirstMax f a (a + 1) a :=
  ⟨le_rfl, Nat.lt_succ_self a, fun j h h' => by rw [show j = a by omega], fun j h h' =>
    absurd h' (by omega)⟩

/-- **Two adjacent ranges**: the second one's maximum counts when it is greater. -/
theorem FirstMax.append (hi : FirstMax f a b i) (hj : FirstMax f b c j) :
    FirstMax f a c (if f i < f j then j else i) := by
  have hbi := hi.in_range
  have hbj := hj.from_start
  have hcj := hj.in_range
  have hai := hi.from_start
  split_ifs with hlt
  · refine ⟨by omega, hcj, fun k hk hk' => ?_, fun k hk hk' => ?_⟩
    · rcases lt_or_ge k b with hb | hb
      · exact (hi.greatest k hk hb).trans hlt.le
      · exact hj.greatest k hb hk'
    · rcases lt_or_ge k b with hb | hb
      · exact (hi.greatest k hk hb).trans_lt hlt
      · exact hj.first k hb hk'
  · refine ⟨hai, by omega, fun k hk hk' => ?_, hi.first⟩
    rcases lt_or_ge k b with hb | hb
    · exact hi.greatest k hk hb
    · exact (hj.greatest k hb hk').trans (not_lt.mp hlt)

/-- A range of values that agree. -/
theorem FirstMax.congr (hi : FirstMax f a b i) (h : ∀ k, a ≤ k → k < b → f k = g k) :
    FirstMax g a b i := by
  have hgi := h i hi.from_start hi.in_range
  refine ⟨hi.from_start, hi.in_range, fun k hk hk' => ?_, fun k hk hk' => ?_⟩
  · rw [← h k hk hk', ← hgi]
    exact hi.greatest k hk hk'
  · rw [← h k hk (hk'.trans hi.in_range), ← hgi]
    exact hi.first k hk hk'

/-- A range of shifted places. -/
theorem FirstMax.shift (s : Nat) (hi : FirstMax (fun k => f (s + k)) 0 b i) :
    FirstMax f s (s + b) (s + i) := by
  have hib := hi.in_range
  refine ⟨by omega, by omega, fun k hk hk' => ?_, fun k hk hk' => ?_⟩
  · have := hi.greatest (k - s) (Nat.zero_le _) (by omega)
    rwa [Nat.add_sub_cancel' hk] at this
  · have := hi.first (k - s) (Nat.zero_le _) (by omega)
    rwa [Nat.add_sub_cancel' hk] at this

end FirstMax

/-! ## Scans -/

/-- One step of a scan: the best value and its index. -/
def better (best : α × Nat) (v : α) (i : Nat) : α × Nat := if best.1 < v then (v, i) else best

/-- The scan of `n + 1` places from the first one on. -/
def scan (f : Nat → α) (n : Nat) : α × Nat :=
    (List.range n).foldl (fun best i => better best (f (i + 1)) (i + 1)) (f 0, 0)

/-- **A scan finds the first maximum.** -/
theorem scan_firstMax (f : Nat → α) (n : Nat) :
    FirstMax f 0 (n + 1) (scan f n).2 ∧ (scan f n).1 = f (scan f n).2 := by
  induction n with
  | zero => exact ⟨FirstMax.single, rfl⟩
  | succ n ih =>
    obtain ⟨hmax, hval⟩ := ih
    have hstep : scan f (n + 1) = better (scan f n) (f (n + 1)) (n + 1) := by
      unfold scan
      rw [List.range_succ, List.foldl_append]
      rfl
    have hnext := hmax.append (FirstMax.single (f := f) (a := n + 1))
    rw [hstep, better, hval]
    split_ifs with hlt
    · rw [if_pos hlt] at hnext
      exact ⟨hnext, rfl⟩
    · rw [if_neg hlt] at hnext
      exact ⟨hnext, hval⟩

theorem exists_firstMax (f : Nat → α) {n : Nat} (h : 0 < n) : ∃ i, FirstMax f 0 n i := by
  obtain ⟨m, rfl⟩ := Nat.exists_eq_succ_of_ne_zero h.ne'
  exact ⟨_, (scan_firstMax f m).1⟩

/-- The first maximum is what `argmax` finds. -/
theorem argmax_eq {f : Nat → α} {n i : Nat} (h : FirstMax f 0 n i) : argmax f n = i := by
  have hall : ∀ k, ((List.range n).all fun j => decide (f j ≤ f k)) = true ↔ ∀ j < n, f j ≤ f k :=
    fun k => by simp
  have hfind : (List.range n).find? (fun k => (List.range n).all fun j =>
    decide (f j ≤ f k)) = some i := by
    rw [List.find?_range_eq_some]
    refine ⟨(hall i).mpr fun j hj => h.greatest j (Nat.zero_le j) hj, List.mem_range.mpr h.in_range,
      fun j hj => ?_⟩
    rw [Bool.not_eq_true', ← Bool.not_eq_true, hall]
    exact fun hc => absurd (hc i h.in_range) (not_le.mpr (h.first j (Nat.zero_le j) hj))
  unfold argmax
  rw [hfind]
  rfl

/-! ## Segments -/

/-- **Segments laid end to end**: among their first maxima the first greatest is the first maximum
of all. -/
theorem FirstMax.segments {f : Nat → α} {len : Nat → Nat} {w r : Nat} {best : Nat → Nat}
    (hbest : ∀ k < w, FirstMax f (start len k) (start len (k + 1)) (best k))
    (hr : FirstMax (fun k => f (best k)) 0 w r) : FirstMax f 0 (start len w) (best r) := by
  have hrw := hr.in_range
  have hlocal := hbest r hrw
  refine ⟨Nat.zero_le _, hlocal.in_range.trans_le (start_mono hrw), fun i _ hi =>
    ?_, fun i _ hi => ?_⟩
  · obtain ⟨k, hk, hlo, hhi⟩ := exists_segment hi
    exact ((hbest k hk).greatest i hlo hhi).trans (hr.greatest k (Nat.zero_le k) hk)
  · obtain ⟨k, hk, hlo, hhi⟩ := exists_segment
      (hi.trans (hlocal.in_range.trans_le (start_mono hrw)))
    rcases Nat.lt_trichotomy k r with hkr | rfl | hkr
    · exact ((hbest k hk).greatest i hlo hhi).trans_lt (hr.first k (Nat.zero_le k) hkr)
    · exact hlocal.first i hlo hi
    · have := @start_mono len _ _ (show r + 1 ≤ k from hkr)
      have := hlocal.in_range
      omega

end Ringside.Argmax

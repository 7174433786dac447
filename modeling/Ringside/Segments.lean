import Mathlib.Tactic

/-!
# Segments laid end to end

Segment `c` has `len c` places and begins where segment `c - 1` ends. `place len c j` is the
position of its place `j` in the whole row. Segments may be empty where that is not excluded.

Results:
* `start_succ`, `start_mono`: where segments begin.
* `place_lt_place`: positions are ordered by segment, then by place.
* `place_inj`, `exists_place`: every position is one place of one segment.
* `exists_segment`: the segment of a position below the start of another one.
-/

namespace Ringside.Segments

variable {len : Nat → Nat}

/-- Where segment `c` begins. -/
def start (len : Nat → Nat) : Nat → Nat
  | 0 => 0
  | c + 1 => start len c + len c

/-- The position of place `j` of segment `c`. -/
def place (len : Nat → Nat) (c j : Nat) : Nat := start len c + j

@[simp] theorem start_zero : start len 0 = 0 := rfl

theorem start_succ (c : Nat) : start len (c + 1) = start len c + len c := rfl

theorem start_mono {c c' : Nat} (h : c ≤ c') : start len c ≤ start len c' := by
  induction h with
  | refl => rfl
  | step _ ih => exact ih.trans (Nat.le_add_right _ _)

theorem place_len (c : Nat) : place len c (len c) = start len (c + 1) := rfl

theorem place_lt_start {c c' j : Nat} (hj : j < len c) (h : c < c') :
    place len c j < start len c' := by
  have : start len (c + 1) ≤ start len c' := start_mono h
  rw [start_succ] at this
  unfold place
  omega

/-- **Positions are ordered by segment, then by place.** -/
theorem place_lt_place {c c' j j' : Nat} (hj : j < len c) (hj' : j' < len c') :
    place len c j < place len c' j' ↔ c < c' ∨ (c = c' ∧ j < j') := by
  constructor
  · intro h
    rcases Nat.lt_trichotomy c c' with hc | rfl | hc
    · exact Or.inl hc
    · exact Or.inr ⟨rfl, by unfold place at h; omega⟩
    · have := place_lt_start hj' hc
      unfold place at h this
      omega
  · rintro (hc | ⟨rfl, hjj⟩)
    · exact (place_lt_start hj hc).trans_le (Nat.le_add_right _ _)
    · unfold place
      omega

theorem place_inj {c c' j j' : Nat} (hj : j < len c) (hj' : j' < len c')
    (h : place len c j = place len c' j') : c = c' ∧ j = j' := by
  have h1 := (not_congr (place_lt_place hj hj')).mp (by omega)
  have h2 := (not_congr (place_lt_place hj' hj)).mp (by omega)
  omega

/-- **Every position is a place of a segment**, when no segment is empty. -/
theorem exists_place (hpos : ∀ c, 0 < len c) (i : Nat) : ∃ c j, j < len c ∧ place len c j = i := by
  induction i with
  | zero => exact ⟨0, 0, hpos 0, rfl⟩
  | succ i ih =>
    obtain ⟨c, j, hj, rfl⟩ := ih
    by_cases h : j + 1 < len c
    · exact ⟨c, j + 1, h, rfl⟩
    · refine ⟨c + 1, 0, hpos (c + 1), ?_⟩
      unfold place
      rw [start_succ]
      omega

/-- A position before the end of some segments lies in one of them. -/
theorem exists_segment {w i : Nat} (h : i < start len w) : ∃ k < w, start len k ≤ i ∧
    i < start len (k + 1) := by
  induction w with
  | zero => exact absurd h (Nat.not_lt_zero i)
  | succ w ih =>
    rcases lt_or_ge i (start len w) with hlt | hge
    · obtain ⟨k, hk, hin⟩ := ih hlt
      exact ⟨k, by omega, hin⟩
    · exact ⟨w, by omega, hge, h⟩

end Ringside.Segments

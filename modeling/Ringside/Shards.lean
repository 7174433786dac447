import Mathlib.Tactic

/-!
# Rows in equal shares

Every rank holds a share of the rows, all shares of one extent and the last ones padded, and the
shares of all ranks are gathered in rank order. What the padding holds is arbitrary; a share may be
all padding.

Results:
* `length_gather`: how many rows are gathered.
* `getElem?_gather`: row `j` of rank `r` is row `r * extent + j` of what is gathered.
* `take_gather`: gathered shares that agree with the rows are the rows, then padding.
-/

namespace Ringside.Shards

variable {β γ : Type*}

/-- The shares of `w` ranks, in rank order. -/
def gather (w : Nat) (f : Nat → List β) : List β := (List.range w).flatMap f

theorem gather_succ (w : Nat) (f : Nat → List β) : gather (w + 1) f = gather w f ++ f w := by
  simp [gather, List.range_succ]

section Gather

variable {w extent : Nat} {f : Nat → List β}

theorem length_gather (h : ∀ r < w, (f r).length = extent) : (gather w f).length = w * extent := by
  induction w with
  | zero => simp [gather]
  | succ w ih =>
    rw [gather_succ, List.length_append, ih fun r hr => h r (by omega),
      h w (by omega), Nat.succ_mul]

/-- **Row `j` of rank `r` is row `r * extent + j`** of what is gathered. -/
theorem getElem?_gather (h : ∀ r < w, (f r).length = extent) {r j : Nat} (hr : r < w)
    (hj : j < extent) :
    (gather w f)[r * extent + j]? = (f r)[j]? := by
  induction w with
  | zero => omega
  | succ w ih =>
    have hlen : (gather w f).length = w * extent := length_gather fun r hr => h r (by omega)
    rw [gather_succ]
    rcases Nat.lt_succ_iff_lt_or_eq.mp hr with hlt | rfl
    · have hin : r * extent + j < w * extent := by
        have := Nat.mul_le_mul_right extent (show r + 1 ≤ w from hlt)
        rw [Nat.succ_mul] at this
        omega
      rw [List.getElem?_append_left (by omega), ih (fun r hr => h r (by omega)) hlt]
    · rw [List.getElem?_append_right (by omega), hlen, Nat.add_sub_cancel_left]

/-- **Shares that agree with the rows give the rows back**; what is behind them is padding. -/
theorem take_gather {l : List β} (h : ∀ r < w, (f r).length = extent) (hl : l.length ≤ w * extent)
    (hrow : ∀ r < w, ∀ j < extent, r * extent + j < l.length → (f r)[j]? = l[r * extent + j]?) :
    (gather w f).take l.length = l := by
  refine List.ext_getElem? fun i => ?_
  rw [List.getElem?_take]
  split_ifs with hi
  · have hpos : 0 < extent := by
      rcases Nat.eq_zero_or_pos extent with h0 | h0
      · simp [h0] at hl
        simp [hl] at hi
      · exact h0
    have hr : i / extent < w := (Nat.div_lt_iff_lt_mul hpos).mpr (hi.trans_le hl)
    have hj := Nat.mod_lt i hpos
    have hi' : i / extent * extent + i % extent = i := Nat.div_add_mod' i extent
    rw [← hi', getElem?_gather h hr hj]
    exact hrow _ hr _ hj (by rwa [hi'])
  · exact (List.getElem?_eq_none (by omega)).symm

end Gather

end Ringside.Shards

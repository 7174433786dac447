import Ringside.Scatter

/-!
# The canonical sparse top-k (`deterministic_sparse_topk.py`)

A selector leaves an exact top-k of every score row, with ties cut anyhow and in any order. The
kernels read only the least selected score from it, count the scores above it and equal to it tile
by tile, and scatter the kept positions: what comes out no longer depends on how the selector cut
its ties.

* A score is a value of a linear order whose top is `inf`; the order is the floats' without NaN.
* `Args` is what `canonicalize_topk` is called with: a row's bounds lie within the width, which is
  not 0, as its callers guarantee.
* `threshold`, `counts`, `countsThr`, `scatter` and `scatterSkip` are the kernels under the source's
  names, for the whole grid; `canonicalizeTopk` is the choice between the two-kernel and the
  three-kernel path.
* The kernels run one after another. The programs of one kernel run in any order, so the scatter's
  stores are applied in any order. `junk` is what the memory of `counts` held before: programs that
  return at once leave it, and nothing may depend on it.
* Masked lanes of a load have the value the source gives them (`gtTotal`).

The specification is `canonical`: the `k` positions of a row that precede all others by score, then
by index, in ascending order and relative to the row's start, padded with -1.

Results:
* `keep_iff`: a position is kept exactly when fewer than `k` positions precede it, so keeping by
  threshold and counted ties is taking the best `k`.
* `nodup_grid`, `stored_unique`, `canonical_stored`: no slot is stored twice, and the canonical
  entry of every slot is stored.
* `canonicalize_topk_canonical`: both paths write the canonical row, whatever the selector's tie
  cut, the order of the stores and the memory of `counts`.
-/

namespace Ringside.SparseTopk

open Ringside.Scatter

variable {α : Type} [LinearOrder α]

/-! ## The canonical row

The row is described twice. `best` goes by rank, the number of positions that precede one, and knows
nothing of a selector. `Keep` goes by the threshold of what the selector found, as the kernels do.
-/

/-- A row of scores and its bounds. -/
structure Row (α : Type) where
  score : Nat → α
  start : Nat
  stop : Nat

namespace Row

variable (R : Row α)

/-- A position within the bounds. -/
def Valid (i : Nat) : Prop := R.start ≤ i ∧ i < R.stop

/-- Position `j` precedes `i`: by score descending, then by index ascending. -/
def Precedes (j i : Nat) : Prop := R.score i < R.score j ∨ (R.score j = R.score i ∧ j < i)

instance : DecidablePred R.Valid := fun _ => inferInstanceAs (Decidable (_ ∧ _))

instance : DecidableRel R.Precedes := fun _ _ => inferInstanceAs (Decidable (_ ∨ _))

/-- How many positions precede `i`. -/
def rank (i : Nat) : Nat := Nat.count (fun j => R.Valid j ∧ R.Precedes j i) R.stop

/-- The `k` best positions, ascending. -/
def best (k : Nat) : List Nat := (List.range R.stop).filter fun i => R.Valid i ∧ R.rank i < k

/-- The canonical row: the best positions relative to the start, padded with -1. -/
def canonical (k : Nat) : List Int :=
  (R.best k).map (fun i : Nat => (i : Int) - R.start) ++ List.replicate (k - (R.best k).length) (-1)

/-- An entry of the selector's row picks a position. -/
def Picks (id : Int) : Prop := 0 ≤ id ∧ R.start + id < R.stop

instance : DecidablePred R.Picks := fun _ => inferInstanceAs (Decidable (_ ∧ _))

/-- The positions that the selector's row picks. -/
def picked (ids : Nat → Int) (k : Nat) : Finset Nat :=
  ((Finset.range k).filter fun s => R.Picks (ids s)).image fun s => (R.start + ids s).toNat

/-- The selector's row is an exact top-k: nothing outside scores above anything inside. -/
structure IsTopK (ids : Nat → Int) (k : Nat) : Prop where
  card : (R.picked ids k).card = min k (R.stop - R.start)
  best : ∀ i ∈ R.picked ids k, ∀ j, R.Valid j → j ∉ R.picked ids k → R.score j ≤ R.score i

/-- `threshold`: the least selected score. -/
def threshold [OrderTop α] (ids : Nat → Int) (k : Nat) : α :=
  (Finset.range k).inf fun s =>
    if R.Picks (ids s) then R.score (R.start + ids s).toNat else ⊤

/-- Above the threshold. -/
def Greater (θ : α) (i : Nat) : Prop := R.Valid i ∧ θ < R.score i

/-- At the threshold. -/
def Equal (θ : α) (i : Nat) : Prop := R.Valid i ∧ R.score i = θ

instance (θ : α) : DecidablePred (R.Greater θ) := fun _ => inferInstanceAs (Decidable (_ ∧ _))

instance (θ : α) : DecidablePred (R.Equal θ) := fun _ => inferInstanceAs (Decidable (_ ∧ _))

/-- The ties that still fit. -/
def tieSlots (θ : α) (k : Nat) : Nat := k - Nat.count (R.Greater θ) R.stop

/-- A position above the threshold, or one of the first ties that fit. -/
def Keep (θ : α) (k i : Nat) : Prop :=
  R.Greater θ i ∨ (R.Equal θ i ∧ Nat.count (R.Equal θ) (i + 1) ≤ R.tieSlots θ k)

instance (θ : α) (k : Nat) : DecidablePred (R.Keep θ k) := fun _ =>
  inferInstanceAs (Decidable (_ ∨ _))

variable {R}

omit [LinearOrder α] in
theorem mem_picked {ids : Nat → Int} {k i : Nat} :
    i ∈ R.picked ids k ↔ ∃ s < k, R.Picks (ids s) ∧ (R.start + ids s).toNat = i := by
  simp [picked, and_assoc]

omit [LinearOrder α] in
theorem valid_of_picked {ids : Nat → Int} {k i : Nat} (h : i ∈ R.picked ids k) : R.Valid i := by
  obtain ⟨s, -, ⟨h1, h2⟩, rfl⟩ := mem_picked.mp h
  unfold Valid
  omega

section Threshold

variable [OrderTop α] {ids : Nat → Int} {k : Nat}

theorem threshold_le {i : Nat} (h : i ∈ R.picked ids k) : R.threshold ids k ≤ R.score i := by
  obtain ⟨s, hs, hp, rfl⟩ := mem_picked.mp h
  refine (Finset.inf_le (Finset.mem_range.mpr hs)).trans ?_
  rw [if_pos hp]

/-- The threshold is a selected score, or `inf` when nothing is selected. -/
theorem threshold_spec : R.threshold ids k = ⊤ ∨ ∃ i ∈ R.picked ids k,
    R.score i = R.threshold ids k := by
  rcases Nat.eq_zero_or_pos k with rfl | hk
  · exact Or.inl (by simp [threshold])
  · obtain ⟨s, hs, he⟩ := Finset.exists_mem_eq_inf (Finset.range k)
      (Finset.nonempty_range_iff.mpr hk.ne') fun s =>
        if R.Picks (ids s) then R.score (R.start + ids s).toNat else ⊤
    by_cases hp : R.Picks (ids s)
    · refine Or.inr ⟨_, mem_picked.mpr ⟨s, Finset.mem_range.mp hs, hp, rfl⟩, ?_⟩
      rw [threshold, he, if_pos hp]
    · exact Or.inl (by rw [threshold, he, if_neg hp])

/-- What scores above the threshold is selected. -/
theorem picked_of_greater (h : R.IsTopK ids k) {i : Nat} (hi : R.Greater (R.threshold ids k) i) :
    i ∈ R.picked ids k := by
  by_contra hn
  rcases (threshold_spec : R.threshold ids k = ⊤ ∨ _) with ht | ⟨j, hj, ht⟩
  · exact absurd hi.2 (by rw [ht]; exact not_top_lt)
  · exact absurd (h.best j hj i hi.1 hn) (by rw [ht]; exact not_le.mpr hi.2)

theorem count_greater_le (h : R.IsTopK ids k) :
    Nat.count (R.Greater (R.threshold ids k)) R.stop ≤ k := by
  rw [Nat.count_eq_card_filter_range]
  refine (Finset.card_le_card fun i hi => ?_).trans (h.card.trans_le (Nat.min_le_left _ _))
  exact picked_of_greater h (Finset.mem_filter.mp hi).2

/-! ## What is kept

The two descriptions agree where the selector's set is an exact top-k: a position above the
threshold is preceded by others above it only, and a tie by all of those and the ties before it.
-/

omit [LinearOrder α] in
theorem count_valid : Nat.count R.Valid R.stop = R.stop - R.start := by
  rw [Nat.count_eq_card_filter_range, show (Finset.range R.stop).filter R.Valid =
    Finset.Ico R.start R.stop by ext i; simp [Valid], Nat.card_Ico]

omit [OrderTop α] in
theorem not_greater_of_equal {θ : α} {i : Nat} (h : R.Greater θ i) : ¬ R.Equal θ i :=
  fun he => absurd h.2 (by rw [he.2]; exact lt_irrefl θ)

omit [OrderTop α] in
/-- Before a position above the threshold come only others above it. -/
theorem rank_lt_of_greater {θ : α} {i : Nat} (h : R.Greater θ i) :
    R.rank i < Nat.count (R.Greater θ) R.stop := by
  rw [rank, Nat.count_eq_card_filter_range, Nat.count_eq_card_filter_range]
  have hsub : (Finset.range R.stop).filter (fun j => R.Valid j ∧ R.Precedes j i) ⊆
      (Finset.range R.stop).filter (R.Greater θ) := by
    intro j hj
    obtain ⟨hj, hv, hp⟩ := Finset.mem_filter.mp hj
    refine Finset.mem_filter.mpr ⟨hj, hv, ?_⟩
    rcases hp with hp | ⟨hp, -⟩
    · exact h.2.trans hp
    · rw [hp]
      exact h.2
  refine Finset.card_lt_card ((Finset.ssubset_iff_of_subset hsub).mpr ⟨i, ?_, fun hm => ?_⟩)
  · exact Finset.mem_filter.mpr ⟨Finset.mem_range.mpr h.1.2, h⟩
  · simpa [Precedes] using (Finset.mem_filter.mp hm).2.2

omit [OrderTop α] in
/-- Before a tie come all positions above the threshold and the ties before it. -/
theorem rank_of_equal {θ : α} {i : Nat} (h : R.Equal θ i) :
    R.rank i = Nat.count (R.Greater θ) R.stop + Nat.count (R.Equal θ) i := by
  have hsplit : ∀ j, (R.Valid j ∧ R.Precedes j i) ↔ R.Greater θ j ∨ (R.Equal θ j ∧ j < i) := by
    intro j
    simp only [Precedes, Greater, Equal, h.2]
    tauto
  have hties : Nat.count (fun j => R.Equal θ j ∧ j < i) R.stop = Nat.count (R.Equal θ) i := by
    rw [count_eq_of_le h.1.2.le fun j hj hq => absurd hq.2 (by omega)]
    exact count_congr fun j hj => by simp [hj]
  rw [rank, ← hties, ← count_or fun j hg he => not_greater_of_equal hg he.1]
  exact count_congr fun j _ => hsplit j

/-- Every selected position precedes one below the threshold. -/
theorem le_rank_of_lt (h : R.IsTopK ids k) {i : Nat} (hi : R.Valid i)
    (hlt : R.score i < R.threshold ids k) : k ≤ R.rank i := by
  have hsub : R.picked ids k ⊆ (Finset.range R.stop).filter fun j => R.Valid j ∧
    R.Precedes j i := by
    intro j hj
    have hv := valid_of_picked hj
    exact Finset.mem_filter.mpr
      ⟨Finset.mem_range.mpr hv.2, hv, Or.inl (hlt.trans_le (threshold_le hj))⟩
  have hcard := Finset.card_le_card hsub
  rw [h.card] at hcard
  rw [rank, Nat.count_eq_card_filter_range]
  rcases Nat.le_total k (R.stop - R.start) with hk | hk
  · rwa [Nat.min_eq_left hk] at hcard
  · -- then everything in the bounds is selected, `i` too
    exfalso
    have hall : R.picked ids k = Finset.Ico R.start R.stop := by
      refine Finset.eq_of_subset_of_card_le (fun j hj => ?_) ?_
      · exact Finset.mem_Ico.mpr (valid_of_picked hj)
      · rw [h.card, Nat.card_Ico, Nat.min_eq_right hk]
    have hmem : i ∈ R.picked ids k := by
      rw [hall]
      exact Finset.mem_Ico.mpr hi
    exact absurd (threshold_le hmem) (not_le.mpr hlt)

/-- **A position is kept exactly when fewer than `k` precede it.** -/
theorem keep_iff (h : R.IsTopK ids k) (i : Nat) :
    R.Keep (R.threshold ids k) k i ↔ R.Valid i ∧ R.rank i < k := by
  have hle := count_greater_le h
  by_cases hv : R.Valid i
  · rcases lt_trichotomy (R.threshold ids k) (R.score i) with hs | hs | hs
    · have hg : R.Greater (R.threshold ids k) i := ⟨hv, hs⟩
      have hrank := rank_lt_of_greater hg
      exact ⟨fun _ => ⟨hv, by omega⟩, fun _ => Or.inl hg⟩
    · have he : R.Equal (R.threshold ids k) i := ⟨hv, hs.symm⟩
      have hn : ¬ R.Greater (R.threshold ids k) i := fun hg => not_greater_of_equal hg he
      simp only [Keep, hn, he, hv, false_or, true_and, rank_of_equal he, tieSlots, Nat.count_succ,
        if_true]
      omega
    · have hrank := le_rank_of_lt h hv hs
      refine iff_of_false ?_ fun hr => by omega
      rintro (hg | ⟨he, -⟩)
      · exact absurd hg.2 hs.not_gt
      · exact absurd he.2 hs.ne
  · refine iff_of_false ?_ fun hr => hv hr.1
    rintro (hg | ⟨he, -⟩)
    · exact hv hg.1
    · exact hv he.1

omit [OrderTop α] in
/-- What is kept of the first `n`: what is above, and the ties that fit. -/
theorem count_keep (θ : α) (n : Nat) : Nat.count (R.Keep θ k) n =
    Nat.count (R.Greater θ) n + min (Nat.count (R.Equal θ) n) (R.tieSlots θ k) := by
  induction n with
  | zero => simp
  | succ n ih =>
    rw [Nat.count_succ, ih, Nat.count_succ (R.Greater θ)]
    have hkeep : R.Keep θ k n ↔ R.Greater θ n ∨
        (R.Equal θ n ∧ Nat.count (R.Equal θ) n + 1 ≤ R.tieSlots θ k) := by
      unfold Keep
      by_cases he : R.Equal θ n <;> simp [he, Nat.count_succ]
    rw [Nat.count_succ (R.Equal θ)]
    by_cases hg : R.Greater θ n
    · have he := not_greater_of_equal hg
      simp only [hkeep, hg, he, true_or, if_true, if_false]
      omega
    · by_cases he : R.Equal θ n
      · simp only [hkeep, hg, he, false_or, true_and, if_true, if_false]
        split_ifs <;> omega
      · simp only [hkeep, hg, he, false_or, false_and, if_false]
        omega

/-- As many are kept as the row has places for. -/
theorem count_keep_stop (h : R.IsTopK ids k) :
    Nat.count (R.Keep (R.threshold ids k) k) R.stop = min k (R.stop - R.start) := by
  have hle := count_greater_le h
  -- what is selected is at or above the threshold, and within the bounds
  have hlow : min k (R.stop - R.start) ≤ Nat.count (R.Greater (R.threshold ids k)) R.stop +
      Nat.count (R.Equal (R.threshold ids k)) R.stop := by
    rw [← count_or fun _ hg he => not_greater_of_equal hg he, ← h.card,
      Nat.count_eq_card_filter_range]
    refine Finset.card_le_card fun i hi => ?_
    have hv := valid_of_picked hi
    refine Finset.mem_filter.mpr ⟨Finset.mem_range.mpr hv.2, ?_⟩
    rcases (threshold_le hi).lt_or_eq with hs | hs
    · exact Or.inl ⟨hv, hs⟩
    · exact Or.inr ⟨hv, hs.symm⟩
  have hhigh : Nat.count (R.Greater (R.threshold ids k)) R.stop +
      Nat.count (R.Equal (R.threshold ids k)) R.stop ≤ R.stop - R.start := by
    rw [← count_or fun _ hg he => not_greater_of_equal hg he, ← count_valid (R := R)]
    exact Nat.count_mono_left fun i _ hi => hi.elim And.left And.left
  rw [count_keep, tieSlots]
  omega

end Threshold

end Row

/-! ## The kernels

The programs of a grid are lists of stores. A tile counts its positions above and at the threshold;
a tile's own offset is the sum of the counts of the tiles before it, which `counts` has left in
memory.
-/

/-- The arguments of `canonicalize_topk`: a row's bounds lie within the width, which is not 0. -/
structure Args (α : Type) where
  rows : Nat
  /-- The width. -/
  n : Nat
  k : Nat
  scores : Nat → Nat → α
  /-- `None` for rows that all begin at 0. -/
  starts : Option (Nat → Nat)
  ends : Nat → Nat
  n_pos : 0 < n
  ends_le : ∀ r < rows, ends r ≤ n

/-- The width of a tile. -/
def B : Nat := 1024

/-- `tr.cdiv`. -/
def cdiv (a b : Nat) : Nat := (a + b - 1) / b

/-- `tr.next_power_of_2`. -/
def nextPowerOf2 (n : Nat) : Nat := 2 ^ Nat.clog 2 n

namespace Args

variable (A : Args α)

/-- `start`. -/
def start (r : Nat) : Nat :=
  match A.starts with
  | some f => f r
  | none => 0

def row (r : Nat) : Row α := ⟨A.scores r, A.start r, A.ends r⟩

def tiles : Nat := cdiv A.n B

/-- `valid` of a column. -/
def Valid (r c : Nat) : Prop := c < A.n ∧ A.start r ≤ c ∧ c < A.ends r

instance (r : Nat) : DecidablePred (A.Valid r) := fun _ => inferInstanceAs (Decidable (_ ∧ _ ∧ _))

section Programs

variable (θ : α)

/-- `greater` and `equal` of one tile. -/
def tileCounts (r tile : Nat) : Nat × Nat :=
  (Nat.count (fun o => A.Valid r (tile * B + o) ∧ θ < A.scores r (tile * B + o)) B,
    Nat.count (fun o => A.Valid r (tile * B + o) ∧ A.scores r (tile * B + o) = θ) B)

/-- A tile past the row's end returns at once. -/
def Skips (r tile : Nat) : Prop := 0 < tile ∧ A.ends r ≤ tile * B

instance (r tile : Nat) : Decidable (A.Skips r tile) := inferInstanceAs (Decidable (_ ∧ _))

/-- The counts that a row's tiles read: `live` of them, the others masked. -/
def gtTotal (live : Nat) (counts : Nat → Nat × Nat) : Nat :=
  ∑ t ∈ Finset.range (nextPowerOf2 A.tiles), if t < live then (counts t).1 else 0

/-- `gt_before`. -/
def gtBefore (live tile : Nat) (counts : Nat → Nat × Nat) : Nat :=
  ∑ t ∈ Finset.range (nextPowerOf2 A.tiles), if t < tile ∧ t < live then (counts t).1 else 0

/-- `eq_before`. -/
def eqBefore (live tile : Nat) (counts : Nat → Nat × Nat) : Nat :=
  ∑ t ∈ Finset.range (nextPowerOf2 A.tiles), if t < tile ∧ t < live then (counts t).2 else 0

/-- The stores of one program of `_scatter` or `_scatter_skip` that does not return at once. -/
def tileStores (r tile live : Nat) (counts : Nat → Nat × Nat) : List ((Nat × Nat) × Int) :=
  let tieSlots := A.k - A.gtTotal live counts
  let eqs := A.eqBefore live tile counts
  let equal := fun o => A.Valid r (tile * B + o) ∧ A.scores r (tile * B + o) = θ
  let keep := fun o => A.Valid r (tile * B + o) ∧
    (θ < A.scores r (tile * B + o) ∨ (equal o ∧ eqs + Nat.count equal (o + 1) ≤ tieSlots))
  let offset := A.gtBefore live tile counts + min eqs tieSlots
  ((List.range B).filterMap fun o =>
    let dest := offset + Nat.count keep (o + 1) - 1
    if keep o ∧ dest < A.k then some ((r, dest), ((tile * B + o : Nat) : Int) - A.start r)
      else none) ++
  if tile = 0 then
    (List.range A.k).filterMap fun s =>
      if min A.k (A.ends r - A.start r) ≤ s then some ((r, s), -1) else none
  else []

end Programs

section Launch

variable [OrderTop α]

/-- `_threshold`, and the threshold part of `_counts`. -/
def threshold (output : Nat → Nat → Int) (r : Nat) : α := (A.row r).threshold (output r) A.k

/-- `_counts`. -/
def counts (output : Nat → Nat → Int) (r tile : Nat) : Nat × Nat :=
  A.tileCounts (A.threshold output r) r tile

/-- `_counts_thr`; what it skips keeps what the memory held. -/
def countsThr (output : Nat → Nat → Int) (junk : Nat → Nat → Nat × Nat)
    (r tile : Nat) : Nat × Nat :=
  if A.Skips r tile then junk r tile else A.tileCounts (A.threshold output r) r tile

/-- `_scatter`, over its grid. -/
def scatter (output : Nat → Nat → Int) : List ((Nat × Nat) × Int) :=
  (List.range A.rows).flatMap fun r => (List.range A.tiles).flatMap fun tile =>
    A.tileStores (A.threshold output r) r tile A.tiles (A.counts output r)

/-- `_scatter_skip`, over its grid. -/
def scatterSkip (output : Nat → Nat → Int) (junk : Nat → Nat → Nat × Nat) :
    List ((Nat × Nat) × Int) :=
  (List.range A.rows).flatMap fun r => (List.range A.tiles).flatMap fun tile =>
    if A.Skips r tile then []
    else A.tileStores (A.threshold output r) r tile (max (min (cdiv (A.ends r) B) A.tiles) 1)
      (A.countsThr output junk r)

/-- `canonicalize_topk`: the stores to `output`. -/
def canonicalizeTopk (smallRows : Nat) (output : Nat → Nat → Int) (junk : Nat → Nat → Nat × Nat) :
    List ((Nat × Nat) × Int) :=
  if A.rows ≤ smallRows then A.scatter output else A.scatterSkip output junk

end Launch

/-! ## What a program stores

The sums over tiles are turned into counts over positions, so that the stores of a program are
described by positions alone: a kept one goes to the number of kept ones before it.
-/

variable {A}

theorem B_pos : 0 < B := by
  unfold B
  omega

theorem cdiv_mul (a : Nat) : a ≤ cdiv a B * B := by
  have := B_pos
  unfold cdiv
  have := Nat.lt_div_mul_add (a := a + B - 1) B_pos
  omega

theorem lt_of_lt_cdiv {a t : Nat} (h : t < cdiv a B) : t * B < a := by
  have := B_pos
  unfold cdiv at h
  have := (Nat.le_div_iff_mul_le B_pos).mp (show t + 1 ≤ (a + B - 1) / B from h)
  rw [Nat.succ_mul] at this
  omega

omit [LinearOrder α] in
theorem tiles_le : A.tiles ≤ nextPowerOf2 A.tiles := Nat.le_pow_clog (by omega) _

omit [LinearOrder α] in
theorem tiles_pos : 0 < A.tiles := by
  have hn := cdiv_mul A.n
  have := A.n_pos
  by_contra h
  rw [show cdiv A.n B = 0 by unfold tiles at h; omega] at hn
  omega

variable {r : Nat}

omit [LinearOrder α] in
theorem valid_iff (hr : r < A.rows) (c : Nat) : A.Valid r c ↔ (A.row r).Valid c := by
  have := A.ends_le r hr
  simp only [Valid, Row.Valid, row]
  omega

theorem tileCounts_eq (hr : r < A.rows) (θ : α) (tile : Nat) : A.tileCounts θ r tile =
    (Nat.count (fun o => (A.row r).Greater θ (tile * B + o)) B,
      Nat.count (fun o => (A.row r).Equal θ (tile * B + o)) B) := by
  simp only [tileCounts, valid_iff hr]
  rfl

omit [LinearOrder α] in
/-- Beyond its end a row counts nothing. -/
theorem count_stop {p : Nat → Prop} [DecidablePred p] (hp : ∀ c, p c → (A.row r).Valid c) {m : Nat}
    (hm : A.ends r ≤ m) : Nat.count p m = Nat.count p (A.row r).stop :=
  count_eq_of_le hm fun c hc hpc => absurd (hp c hpc).2 (by simpa [row] using hc)

/-- The counts that the live lanes of a row's tiles hold. -/
structure Counted (A : Args α) (r : Nat) (θ : α) (live : Nat)
    (counts : Nat → Nat × Nat) : Prop where
  counts : ∀ t < live, counts t = A.tileCounts θ r t
  le : live ≤ A.tiles
  covers : A.ends r ≤ live * B

section Stores

variable {θ : α} {live tile : Nat} {cs : Nat → Nat × Nat}

theorem gtTotal_eq (hr : r < A.rows) (h : Counted A r θ live cs) :
    A.gtTotal live cs = Nat.count ((A.row r).Greater θ) (A.row r).stop := by
  rw [gtTotal, sum_lanes (h.le.trans tiles_le), ← count_stop (fun c hc => hc.1) h.covers, count_mul]
  refine Finset.sum_congr rfl fun t ht => ?_
  rw [h.counts t (Finset.mem_range.mp ht), tileCounts_eq hr]

theorem gtBefore_eq (hr : r < A.rows) (h : Counted A r θ live cs) (ht : tile ≤ live) :
    A.gtBefore live tile cs = Nat.count ((A.row r).Greater θ) (tile * B) := by
  have hmask : ∀ t, (t < tile ∧ t < live) ↔ t < tile := fun t => by omega
  simp only [gtBefore, hmask]
  rw [sum_lanes ((ht.trans h.le).trans tiles_le), count_mul]
  refine Finset.sum_congr rfl fun t ht' => ?_
  rw [h.counts t (by have := Finset.mem_range.mp ht'; omega), tileCounts_eq hr]

theorem eqBefore_eq (hr : r < A.rows) (h : Counted A r θ live cs) (ht : tile ≤ live) :
    A.eqBefore live tile cs = Nat.count ((A.row r).Equal θ) (tile * B) := by
  have hmask : ∀ t, (t < tile ∧ t < live) ↔ t < tile := fun t => by omega
  simp only [eqBefore, hmask]
  rw [sum_lanes ((ht.trans h.le).trans tiles_le), count_mul]
  refine Finset.sum_congr rfl fun t ht' => ?_
  rw [h.counts t (by have := Finset.mem_range.mp ht'; omega), tileCounts_eq hr]

/-- What the programs of one row store: a kept position at its count, and the padding from tile 0.
-/
def Stored (A : Args α) (r : Nat) (θ : α) (tile : Nat) (w : (Nat × Nat) × Int) : Prop :=
  (∃ o < B, (A.row r).Keep θ A.k (tile * B + o) ∧
      w = ((r, Nat.count ((A.row r).Keep θ A.k) (tile * B + o)),
      ((tile * B + o : Nat) : Int) - A.start r)) ∨
    (tile = 0 ∧ ∃ s < A.k, min A.k (A.ends r - A.start r) ≤ s ∧ w = ((r, s), -1))

/-- The flags of a tile are those of its columns. -/
theorem keep_tile (hr : r < A.rows) (h : Counted A r θ live cs) (ht : tile ≤ live) (o : Nat) :
    (A.Valid r (tile * B + o) ∧ (θ < A.scores r (tile * B + o) ∨
      ((A.Valid r (tile * B + o) ∧ A.scores r (tile * B + o) = θ) ∧
        A.eqBefore live tile cs +
          Nat.count (fun o => A.Valid r (tile * B + o) ∧ A.scores r (tile * B + o) = θ) (o + 1) ≤
            A.k - A.gtTotal live cs))) ↔
      (A.row r).Keep θ A.k (tile * B + o) := by
  have hties : A.eqBefore live tile cs +
      Nat.count (fun o => A.Valid r (tile * B + o) ∧ A.scores r (tile * B + o) = θ) (o + 1) =
        Nat.count ((A.row r).Equal θ) (tile * B + o + 1) := by
    rw [eqBefore_eq hr h ht, Nat.add_assoc (tile * B), Nat.count_add _ (tile * B) (o + 1)]
    simp only [valid_iff hr]
    rfl
  rw [hties, gtTotal_eq hr h]
  simp only [valid_iff hr, Row.Keep, Row.Greater, Row.Equal, Row.tieSlots]
  have hs : (A.row r).score = A.scores r := rfl
  rw [hs]
  tauto

/-- The offset of a tile is the count of what is kept before it. -/
theorem offset_eq (hr : r < A.rows) (h : Counted A r θ live cs) (ht : tile ≤ live) :
    A.gtBefore live tile cs + min (A.eqBefore live tile cs) (A.k - A.gtTotal live cs) =
      Nat.count ((A.row r).Keep θ A.k) (tile * B) := by
  rw [Row.count_keep, gtBefore_eq hr h ht, eqBefore_eq hr h ht, gtTotal_eq hr h]
  rfl

theorem mem_tileStores (hr : r < A.rows) (h : Counted A r θ live cs) (ht : tile ≤ live)
    (hk : ∀ c, (A.row r).Keep θ A.k c → Nat.count ((A.row r).Keep θ A.k) c < A.k)
    (w : (Nat × Nat) × Int) : w ∈ A.tileStores θ r tile live cs ↔ Stored A r θ tile w := by
  have hdest : ∀ o, (A.row r).Keep θ A.k (tile * B + o) →
      Nat.count ((A.row r).Keep θ A.k) (tile * B) +
        Nat.count (fun o => (A.row r).Keep θ A.k (tile * B + o)) (o + 1) - 1 =
      Nat.count ((A.row r).Keep θ A.k) (tile * B + o) := by
    intro o ho
    have := Nat.count_add ((A.row r).Keep θ A.k) (tile * B) (o + 1)
    rw [← Nat.add_assoc, Nat.count_succ, if_pos ho] at this
    omega
  simp only [tileStores, keep_tile hr h ht, offset_eq hr h ht, List.mem_append, List.mem_filterMap,
    List.mem_range]
  refine or_congr (exists_congr fun o => and_congr_right fun _ => ?_) ?_
  · constructor
    · intro hw
      split_ifs at hw with hkeep
      rw [hdest o hkeep.1] at hw
      exact ⟨hkeep.1, (Option.some_inj.mp hw).symm⟩
    · rintro ⟨hkeep, rfl⟩
      rw [hdest o hkeep, if_pos ⟨hkeep, hk _ hkeep⟩]
  · by_cases h0 : tile = 0
    · simp only [h0, if_true, true_and, List.mem_filterMap, List.mem_range]
      refine exists_congr fun s => and_congr_right fun _ => ?_
      split_ifs with hs <;> simp [hs, eq_comm]
    · simp [h0]

theorem nodup_tileStores : (A.tileStores θ r tile live cs).Nodup := by
  unfold tileStores
  refine List.nodup_append.mpr ⟨?_, ?_, ?_⟩
  · refine List.Nodup.filterMap (fun o o' w hw hw' => ?_) List.nodup_range
    simp only [Option.mem_def] at hw hw'
    split_ifs at hw with h1
    split_ifs at hw' with h2
    have := congrArg Prod.snd ((Option.some_inj.mp hw).trans (Option.some_inj.mp hw').symm)
    simp only [] at this
    omega
  · split_ifs
    · refine List.Nodup.filterMap (fun s s' w hw hw' => ?_) List.nodup_range
      simp only [Option.mem_def] at hw hw'
      split_ifs at hw with h1
      split_ifs at hw' with h2
      have := congrArg (fun w => w.1.2) ((Option.some_inj.mp hw).trans
        (Option.some_inj.mp hw').symm)
      exact this
    · exact List.nodup_nil
  · -- a position is not -1
    intro w hw w' hw' hww
    subst hww
    obtain ⟨o, -, hw⟩ := List.mem_filterMap.mp hw
    dsimp only at hw
    split_ifs at hw with h1
    have hval := congrArg Prod.snd (Option.some_inj.mp hw)
    have hstart := h1.1.1.2.1
    split_ifs at hw' with h0
    · obtain ⟨s, -, hw'⟩ := List.mem_filterMap.mp hw'
      split_ifs at hw' with h2
      have hval' := congrArg Prod.snd (Option.some_inj.mp hw')
      simp only [] at hval hval'
      omega
    · simp at hw'

end Stores

/-! ## Every slot is stored once

Two kept positions have different numbers, and the padding starts behind the last of them. So the
outcome does not depend on the order of the programs.
-/

section Row

variable {θ : α}

/-- The kept positions have the first slots of the row. -/
def Fits (A : Args α) (r : Nat) (θ : α) : Prop :=
  ∀ c, (A.row r).Keep θ A.k c →
    Nat.count ((A.row r).Keep θ A.k) c < min A.k (A.ends r - A.start r)

theorem tile_unique {t t' o o' : Nat} (ho : o < B) (ho' : o' < B) (h : t * B + o = t' * B + o') :
    t = t' := by
  have hdiv : ∀ {t o : Nat}, o < B → (t * B + o) / B = t := by
    intro t o ho
    rw [Nat.add_comm, Nat.add_mul_div_right _ _ B_pos, Nat.div_eq_of_lt ho, Nat.zero_add]
  rw [← hdiv (t := t) ho, h, hdiv ho']

/-- **Two stores of a row to one slot are one store.** -/
theorem stored_unique (hfit : Fits A r θ) {t t' : Nat} {w w' : (Nat × Nat) × Int}
    (h : Stored A r θ t w) (h' : Stored A r θ t' w') (hslot : w.1 = w'.1) : t = t' ∧ w = w' := by
  rcases h with ⟨o, ho, hk, rfl⟩ | ⟨rfl, s, hs, hlow, rfl⟩ <;>
    rcases h' with ⟨o', ho', hk', rfl⟩ | ⟨rfl, s', hs', hlow', rfl⟩ <;>
    simp only [Prod.mk.injEq, true_and] at hslot
  · have hc := Nat.count_injective hk hk' hslot
    exact ⟨tile_unique ho ho' hc, by rw [hc]⟩
  · have := hfit _ hk
    omega
  · have := hfit _ hk'
    omega
  · exact ⟨rfl, by rw [hslot]⟩

/-- The programs of a grid, each with the stores of its row and tile. -/
def IsScatter (A : Args α) (θ : Nat → α) (program : Nat → Nat → List ((Nat × Nat) × Int)) : Prop :=
  ∀ r < A.rows, ∀ tile < A.tiles,
    (program r tile).Nodup ∧ ∀ w, w ∈ program r tile ↔ Stored A r (θ r) tile w

/-- The stores of the whole grid. -/
def grid (A : Args α) (program : Nat → Nat → List ((Nat × Nat) × Int)) : List ((Nat × Nat) × Int) :=
  (List.range A.rows).flatMap fun r => (List.range A.tiles).flatMap fun tile => program r tile

variable {thr : Nat → α} {program : Nat → Nat → List ((Nat × Nat) × Int)}

theorem mem_grid (h : IsScatter A thr program) (w : (Nat × Nat) × Int) :
    w ∈ grid A program ↔ ∃ r < A.rows, ∃ tile < A.tiles, Stored A r (thr r) tile w := by
  simp only [grid, List.mem_flatMap, List.mem_range]
  refine exists_congr fun r => and_congr_right fun hr => exists_congr fun tile =>
    and_congr_right fun ht => (h r hr tile ht).2 w

theorem slot_row {t : Nat} {w : (Nat × Nat) × Int} (h : Stored A r θ t w) : w.1.1 = r := by
  rcases h with ⟨o, -, -, rfl⟩ | ⟨-, s, -, -, rfl⟩ <;> rfl

/-- **No slot is stored twice.** -/
theorem nodup_grid (h : IsScatter A thr program) (hfit : ∀ r < A.rows, Fits A r (thr r)) :
    ((grid A program).map Prod.fst).Nodup := by
  refine List.Nodup.map_on (fun w hw w' hw' hslot => ?_) ?_
  · obtain ⟨r, hr, t, ht, hs⟩ := (mem_grid h w).mp hw
    obtain ⟨r', hr', t', ht', hs'⟩ := (mem_grid h w').mp hw'
    obtain rfl : r = r' := by rw [← slot_row hs, hslot, slot_row hs']
    exact (stored_unique (hfit r hr) hs hs' hslot).2
  · refine nodup_flatMap_range (fun r hr => ?_) fun r hr r' hr' hne w hw hw' => ?_
    · refine nodup_flatMap_range (fun t ht => (h r hr t ht).1) fun t ht t' ht' hne w hw hw' => ?_
      exact hne (stored_unique (hfit r hr) (((h r hr t ht).2 w).mp hw)
        (((h r hr t' ht').2 w).mp hw')
        rfl).1
    · obtain ⟨t, ht, hw⟩ := List.mem_flatMap.mp hw
      obtain ⟨t', ht', hw'⟩ := List.mem_flatMap.mp hw'
      rw [List.mem_range] at ht ht'
      have h1 := slot_row (((h r hr t ht).2 w).mp hw)
      have h2 := slot_row (((h r' hr' t' ht').2 w).mp hw')
      exact hne (h1.symm.trans h2)

end Row

/-! ## The result -/

section Result

variable [OrderTop α] {output : Nat → Nat → Int}

theorem fits_of_topk (h : (A.row r).IsTopK (output r) A.k) : Fits A r (A.threshold output r) := by
  intro c hc
  have hlast := Row.count_keep_stop h
  have hlt : c < (A.row r).stop := ((Row.keep_iff h c).mp hc).1.2
  exact (Nat.count_strict_mono hc hlt).trans_eq hlast

/-- The best positions are the kept ones. -/
theorem best_eq (h : (A.row r).IsTopK (output r) A.k) : (A.row r).best A.k =
    (List.range (A.row r).stop).filter ((A.row r).Keep (A.threshold output r) A.k ·) :=
  List.filter_congr fun i _ => decide_eq_decide.mpr (Row.keep_iff h i).symm

theorem length_best (h : (A.row r).IsTopK (output r) A.k) :
    ((A.row r).best A.k).length = min A.k (A.ends r - A.start r) := by
  rw [best_eq h, length_filter_range, threshold, Row.count_keep_stop h]
  rfl

/-- **The canonical entry of a slot is stored.** -/
theorem canonical_stored (h : (A.row r).IsTopK (output r) A.k) (hr : r < A.rows) {s : Nat}
    (hs : s < A.k) : ∃ v, ((A.row r).canonical A.k)[s]? = some v ∧
      ∃ tile < A.tiles, Stored A r (A.threshold output r) tile ((r, s), v) := by
  have hlen := length_best h
  rcases Nat.lt_or_ge s ((A.row r).best A.k).length with hlt | hge
  · obtain ⟨i, hi⟩ : ∃ i, ((A.row r).best A.k)[s]? = some i := ⟨_, List.getElem?_eq_getElem hlt⟩
    have hmem := List.mem_of_getElem? hi
    rw [best_eq h] at hmem hi
    obtain ⟨hstop, hkeep⟩ := List.mem_filter.mp hmem
    rw [List.mem_range] at hstop
    have hkeep : (A.row r).Keep (A.threshold output r) A.k i := by simpa using hkeep
    -- the count of `i` is its place in the list
    have hplace := getElem?_filter_range hstop hkeep
    have hnodup := List.nodup_range.filter (p := ((A.row r).Keep (A.threshold output r) A.k ·))
      (l := List.range (A.row r).stop)
    have hs : Nat.count ((A.row r).Keep (A.threshold output r) A.k) i = s := by
      obtain ⟨h1, e1⟩ := List.getElem?_eq_some_iff.mp hplace
      obtain ⟨h2, e2⟩ := List.getElem?_eq_some_iff.mp hi
      exact hnodup.getElem_inj_iff.mp (e1.trans e2.symm)
    refine ⟨(i : Int) - A.start r, ?_, i / B, ?_, Or.inl ⟨i % B, Nat.mod_lt _ B_pos, ?_⟩⟩
    · rw [Row.canonical, List.getElem?_append_left (by simpa using hlt), List.getElem?_map,
        best_eq h, hi]
      rfl
    · have h1 : i < A.ends r := hstop
      have h2 := A.ends_le r hr
      have h3 := cdiv_mul A.n
      refine (Nat.div_lt_iff_lt_mul B_pos).mpr ?_
      exact (h1.trans_le h2).trans_le h3
    · rw [Nat.div_add_mod']
      exact ⟨hkeep, by rw [hs]⟩
  · refine ⟨-1, ?_, 0, tiles_pos, Or.inr ⟨rfl, s, hs, by omega, rfl⟩⟩
    rw [Row.canonical, List.getElem?_append_right (by simpa using hge), List.getElem?_replicate,
      if_pos (by simp; omega)]

theorem length_canonical (h : (A.row r).IsTopK (output r) A.k) :
    ((A.row r).canonical A.k).length = A.k := by
  have := length_best h
  simp [Row.canonical]
  omega

/-! ## The two paths

The skipping path counts and scatters only tiles that begin before the row's end. What a skipped
tile would have contributed is zero, and its stores are none.
-/

/-- The counts of the small path. -/
theorem counted_small (hr : r < A.rows) :
    Counted A r (A.threshold output r) A.tiles (A.counts output r) :=
  ⟨fun _ _ => rfl, le_rfl, (A.ends_le r hr).trans (cdiv_mul A.n)⟩

/-- The counts of the skipping path: its live lanes are tiles that ran. -/
theorem counted_skip (hr : r < A.rows) (junk : Nat → Nat → Nat × Nat) :
    Counted A r (A.threshold output r) (max (min (cdiv (A.ends r) B) A.tiles) 1)
      (A.countsThr output junk r) := by
  have hle : cdiv (A.ends r) B ≤ A.tiles :=
    Nat.div_le_div_right (by have := A.ends_le r hr; omega)
  have htiles := tiles_pos (A := A)
  rw [Nat.min_eq_left hle]
  refine ⟨fun t ht => ?_, by omega, ?_⟩
  · unfold countsThr
    rw [if_neg]
    rintro ⟨hpos, hskip⟩
    have := lt_of_lt_cdiv (show t < cdiv (A.ends r) B by omega)
    omega
  · exact (cdiv_mul _).trans (Nat.mul_le_mul_right B (Nat.le_max_left _ _))

theorem isScatter_small (h : ∀ r < A.rows, (A.row r).IsTopK (output r) A.k) :
    IsScatter A (A.threshold output) fun r tile =>
      A.tileStores (A.threshold output r) r tile A.tiles (A.counts output r) := by
  intro r hr tile ht
  refine ⟨nodup_tileStores, mem_tileStores hr (counted_small hr) ht.le fun c hc => ?_⟩
  exact (fits_of_topk (h r hr) c hc).trans_le (Nat.min_le_left _ _)

omit [OrderTop α] in
/-- A tile that is skipped has nothing to store. -/
theorem not_stored_of_skips {θ : α} {tile : Nat} (h : A.Skips r tile) (w : (Nat × Nat) × Int) :
    ¬ Stored A r θ tile w := by
  rintro (⟨o, -, hk, -⟩ | ⟨h0, -⟩)
  · have hv : (A.row r).Valid (tile * B + o) := hk.elim And.left fun hk => hk.1.1
    have h1 : tile * B + o < A.ends r := hv.2
    have h2 := h.2
    omega
  · have := h.1
    omega

theorem isScatter_skip (h : ∀ r < A.rows, (A.row r).IsTopK (output r) A.k)
    (junk : Nat → Nat → Nat × Nat) :
    IsScatter A (A.threshold output) fun r tile =>
      if A.Skips r tile then []
      else A.tileStores (A.threshold output r) r tile (max (min (cdiv (A.ends r) B) A.tiles) 1)
        (A.countsThr output junk r) := by
  intro r hr tile ht
  by_cases hskip : A.Skips r tile
  · simp only [hskip, if_true]
    exact ⟨List.nodup_nil, fun w => iff_of_false (by simp) (not_stored_of_skips hskip w)⟩
  · have hlive : tile ≤ max (min (cdiv (A.ends r) B) A.tiles) 1 := by
      by_contra hlt
      refine hskip ⟨by omega, ?_⟩
      refine (cdiv_mul (A.ends r)).trans (Nat.mul_le_mul_right B ?_)
      omega
    simp only [hskip, if_false]
    refine ⟨nodup_tileStores, mem_tileStores hr (counted_skip hr junk) hlive fun c hc => ?_⟩
    exact (fits_of_topk (h r hr) c hc).trans_le (Nat.min_le_left _ _)

/-- **The top-k is canonical**: on both paths and in any order of the stores, every row becomes its
canonical row, every slot is stored once, and nothing else is. -/
theorem canonicalize_topk_canonical (A : Args α) (smallRows : Nat) (output : Nat → Nat → Int)
    (junk : Nat → Nat → Nat × Nat) (h : ∀ r < A.rows, (A.row r).IsTopK (output r) A.k)
    (ws : List ((Nat × Nat) × Int)) (hws : ws.Perm (A.canonicalizeTopk smallRows output junk)) :
    (∀ r < A.rows, (List.range A.k).map (fun s => stores ws (fun p => output p.1 p.2) (r, s)) =
      (A.row r).canonical A.k) ∧
    (∀ r < A.rows, ∀ s < A.k, (ws.map Prod.fst).count (r, s) = 1) ∧
    ∀ w ∈ ws, w.1.1 < A.rows ∧ w.1.2 < A.k := by
  obtain ⟨program, hprog, hgrid⟩ : ∃ program, IsScatter A (A.threshold output) program ∧
      A.canonicalizeTopk smallRows output junk = grid A program := by
    unfold canonicalizeTopk
    split_ifs
    · exact ⟨_, isScatter_small h, rfl⟩
    · exact ⟨_, isScatter_skip h junk, rfl⟩
  rw [hgrid] at hws
  have hfit := fun r hr => fits_of_topk (h r hr)
  have hnodup : (ws.map Prod.fst).Nodup := (hws.map Prod.fst).nodup_iff.mpr (nodup_grid hprog hfit)
  have hmem : ∀ r < A.rows, ∀ s < A.k, ∃ v, ((A.row r).canonical A.k)[s]? = some v ∧
    ((r, s), v) ∈ ws := by
    intro r hr s hs
    obtain ⟨v, hv, tile, ht, hst⟩ := canonical_stored (h r hr) hr hs
    exact ⟨v, hv, hws.mem_iff.mpr ((mem_grid hprog _).mpr ⟨r, hr, tile, ht, hst⟩)⟩
  refine ⟨fun r hr => ?_, fun r hr s hs => ?_, fun w hw => ?_⟩
  · refine List.ext_getElem? fun s => ?_
    rcases Nat.lt_or_ge s A.k with hs | hs
    · obtain ⟨v, hv, hw⟩ := hmem r hr s hs
      rw [hv, List.getElem?_map, List.getElem?_range hs, Option.map_some, stores_of_mem hnodup hw]
    · rw [List.getElem?_eq_none (by simpa using hs),
        List.getElem?_eq_none (by rw [length_canonical (h r hr)]; exact hs)]
  · obtain ⟨v, -, hw⟩ := hmem r hr s hs
    exact List.count_eq_one_of_mem hnodup (List.mem_map.mpr ⟨_, hw, rfl⟩)
  · obtain ⟨r, hr, tile, -, hst⟩ := (mem_grid hprog w).mp (hws.mem_iff.mp hw)
    rcases hst with ⟨o, -, hk, rfl⟩ | ⟨-, s, hs, -, rfl⟩
    · exact ⟨hr, (hfit r hr _ hk).trans_le (Nat.min_le_left _ _)⟩
    · exact ⟨hr, hs⟩

end Result

/-- Three scores, the first and last equal: the selector kept the later one. -/
def twoOfThree : Args (Fin 9) where
  rows := 1
  n := 3
  k := 2
  scores := fun _ c => [5, 7, 5].getD c 0
  starts := none
  ends := fun _ => 3
  n_pos := by decide
  ends_le := fun _ _ => le_rfl

theorem twoOfThree_canonical :
    (List.range 2).map (fun s => stores
      (twoOfThree.canonicalizeTopk 16 (fun _ s => [2, 1].getD s 0) fun _ _ => (9, 9))
        (fun p => [2, 1].getD p.2 0) (0, s)) = [0, 1] := by
  have htop : ∀ r < 1, (twoOfThree.row r).IsTopK (fun s => [2, 1].getD s 0) 2 := by
    intro r hr
    obtain rfl : r = 0 := by omega
    refine ⟨by decide, fun i hi j hj => ?_⟩
    have hj : j < 3 := hj.2
    revert i
    interval_cases j <;> decide
  exact ((canonicalize_topk_canonical twoOfThree 16 (fun _ s => [2, 1].getD s 0)
    (fun _ _ => (9, 9)) htop _ (List.Perm.refl _)).1 0 (by decide)).trans (by decide)

end Args

end Ringside.SparseTopk

import Ringside.Checkpoint.Plan

/-!
# The planner with the replay boundary (`glm53_replay_boundary.py`)

Model of `replay_boundary` and of its `plan_chunk`. The replay boundary is the longest prefix that a
replay of the prompt can hit. `planChunk` also exports it off the block grid, into the column of its
block. When another export or the chunk's final state needs that column, the chunk ends at the
boundary.

* The loop over the stops is `Checkpoint.walkStops`, with `exportable` for what may be exported;
  `settle` is what comes behind it.
* A boundary of 0 is none, and is no stop inside a chunk (`planChunk_eq`). Its unit is the hash
  block, which is positive.
* The check of the grid is the one that the plain planner makes.

Results:
* `settle_covers`: what `walk_covers` says of a walk holds with the boundary too.
* `settle_columns`: the export columns are distinct, and the final state has its own.
* `plan_chunk_sound`: the plan as a whole (`PlanSound`), when the validator accepts it, and that it
  is the plain planner's where the boundary is none of the stops.

Out of scope: which requests have a boundary (`Checkpoint.requestBoundary`), and the registry that
keeps the blocks of one (`Registry`).
-/

namespace Ringside.ReplayBoundary

open Ringside.Checkpoint Ringside.Checks

/-- `replay_boundary`: the longest prefix that a replay of the prompt can hit, for a positive unit.
-/
def replayBoundary (numPromptTokens unit : Nat) : Nat := (numPromptTokens - 1) / unit * unit - unit

/-- What the walk may export: a stop on the grid or the boundary, tiles away from the start. -/
def exportable (start grid boundary s : Nat) : Bool :=
  (s % grid == 0 || s == boundary) && (s - start) % chunkTokens == 0

/-- The end of `plan_chunk`: the boundary's column must be its own. -/
def settle (grid boundary : Nat) (walked : Nat × List Nat) : Nat × List Nat :=
  let (stopAt, exports) := walked
  let cols := exports.map (column grid)
  if boundary ∈ exports ∧ (column grid boundary = column grid stopAt ∨
    1 < cols.count (column grid boundary)) then
    (boundary, exports.filter (· < boundary))
  else (stopAt, exports)

/-- `plan_chunk`. -/
def planChunk (start stop : Nat) (stops : List Nat) (grid boundary : Nat) (maxExports : Int) :
    Except String (Nat × List Nat) := do
  checkGrid grid
  return settle grid boundary
    (walkStops (exportable start grid boundary) maxExports stop 0 (inside start stop stops))

section Settle

variable {start stop grid boundary stopAt : Nat} {stops exports : List Nat}

/-- **Ending at the boundary keeps what the walk promised.** -/
theorem settle_covers (h : Covers start stop stops stopAt exports) :
    Covers start stop stops (settle grid boundary (stopAt, exports)).1
      (settle grid boundary (stopAt, exports)).2 := by
  unfold settle
  dsimp only
  split_ifs with hclash
  case neg => exact h
  obtain ⟨hmem, -⟩ := hclash
  obtain ⟨hb, hb'⟩ := h.inside boundary hmem
  refine ⟨hb, hb'.le.trans h.le_stop, fun _ => h.from_stops boundary hmem, ?_,
    h.sorted.filter _, ?_, ?_, ?_⟩
  · intro s hs hlt hlt'
    exact List.mem_filter.mpr ⟨h.covers s hs hlt (hlt'.trans hb'), decide_eq_true hlt'⟩
  · exact fun p hp => h.from_stops p (List.mem_of_mem_filter hp)
  · intro p hp
    exact ⟨(h.inside p (List.mem_of_mem_filter hp)).1, of_decide_eq_true (List.mem_filter.mp hp).2⟩
  · -- no stop before the boundary: it is the first
    intro hnil
    have hfirst : ∀ s ∈ inside start stop stops, boundary ≤ s := by
      intro s hs
      obtain ⟨hs, hlt, -⟩ := mem_inside.mp hs
      by_contra hlt'
      rw [not_le] at hlt'
      have hs' : s ∈ exports.filter (· < boundary) :=
        List.mem_filter.mpr ⟨h.covers s hs hlt (hlt'.trans hb'), decide_eq_true hlt'⟩
      exact List.not_mem_nil (hnil ▸ hs' : s ∈ [])
    have hin : boundary ∈ inside start stop stops :=
      mem_inside.mpr ⟨h.from_stops boundary hmem, hb, hb'.trans_le h.le_stop⟩
    rw [← headD_inside]
    cases hl : inside start stop stops with
    | nil => rw [hl] at hin; exact absurd hin List.not_mem_nil
    | cons s rest =>
      have hsorted := inside_sorted (l := stops) start stop
      rw [hl] at hin hsorted hfirst
      rcases List.mem_cons.mp hin with rfl | hin
      · rfl
      · exact absurd ((List.pairwise_cons.mp hsorted).1 boundary hin)
          (hfirst s List.mem_cons_self).not_gt

/-- Columns that occur once belong to one export. -/
theorem column_ne_of_count {p q : Nat}
    (hcount : ¬ 1 < (exports.map (column grid)).count (column grid p)) (hp : p ∈ exports)
    (hq : q ∈ exports) (hne : p ≠ q) : column grid p ≠ column grid q := by
  intro heq
  rw [List.count, List.countP_map, List.countP_eq_length_filter] at hcount
  have hmem : ∀ r ∈ exports, column grid r = column grid p →
      r ∈ exports.filter ((· == column grid p) ∘ column grid) :=
    fun r hr he => List.mem_filter.mpr ⟨hr, beq_iff_eq.mpr he⟩
  have hp' := hmem p hp rfl
  have hq' := hmem q hq heq.symm
  generalize exports.filter ((· == column grid p) ∘ column grid) = l at hcount hp' hq'
  match l, hp', hq', hcount with
  | [r], hp', hq', _ =>
    exact hne ((List.mem_singleton.mp hp').trans (List.mem_singleton.mp hq').symm)
  | r :: r' :: l, _, _, hcount => exact hcount (by simp)

/-- **The export columns are distinct, and the final state has its own**: an export on the grid is
in an earlier column than what comes after it, and the boundary shares none or ends the chunk. -/
theorem settle_columns (hg : 0 < grid) (h : Covers start stop stops stopAt exports)
    (hexp : ∀ p ∈ exports, p % grid = 0 ∨ p = boundary) :
    ((settle grid boundary (stopAt, exports)).2.map (column grid)).Nodup ∧
      column grid (settle grid boundary (stopAt, exports)).1 ∉
        (settle grid boundary (stopAt, exports)).2.map (column grid) := by
  have hgrid : ∀ p ∈ exports, p % grid = 0 → ∀ q, p < q → column grid p < column grid q :=
    fun p hp hdvd q hlt => column_lt_of_dvd hg (by have := (h.inside p hp).1; omega) hdvd hlt
  unfold settle
  dsimp only
  split_ifs with hclash
  · -- only exports before the boundary are left, and they are on the grid
    have hon : ∀ p ∈ exports.filter (· < boundary), p ∈ exports ∧ p % grid = 0 ∧ p < boundary := by
      intro p hp
      have hlt : p < boundary := of_decide_eq_true (List.mem_filter.mp hp).2
      have hmem := List.mem_of_mem_filter hp
      exact ⟨hmem, (hexp p hmem).resolve_right hlt.ne, hlt⟩
    constructor
    · refine List.Pairwise.map _ (fun _ _ h => h) (List.Pairwise.imp_of_mem ?_ (h.sorted.filter _))
      intro p q hp _ hlt
      obtain ⟨hmem, hdvd, -⟩ := hon p hp
      exact (hgrid p hmem hdvd q hlt).ne
    · intro hcol
      obtain ⟨p, hp, heq⟩ := List.mem_map.mp hcol
      obtain ⟨hmem, hdvd, hlt⟩ := hon p hp
      exact (hgrid p hmem hdvd boundary hlt).ne heq
  · -- the boundary, if exported, has a column of its own
    have hown : boundary ∈ exports → column grid boundary ≠ column grid stopAt ∧
        ¬ 1 < (exports.map (column grid)).count (column grid boundary) := by
      intro hb
      constructor
      · exact fun he => hclash ⟨hb, Or.inl he⟩
      · exact fun hc => hclash ⟨hb, Or.inr hc⟩
    constructor
    · refine List.Pairwise.map _ (fun _ _ h => h) (List.Pairwise.imp_of_mem ?_ h.sorted)
      intro p q hp hq hlt
      rcases hexp p hp with hdvd | rfl
      · exact (hgrid p hp hdvd q hlt).ne
      · exact column_ne_of_count (hown hp).2 hp hq hlt.ne
    · intro hcol
      obtain ⟨p, hp, heq⟩ := List.mem_map.mp hcol
      rcases hexp p hp with hdvd | rfl
      · exact (hgrid p hp hdvd stopAt (h.inside p hp).2).ne heq
      · exact (hown hp).1 heq

/-- Without the boundary among the exports there is nothing to settle. -/
theorem settle_of_notMem (h : boundary ∉ exports) :
    settle grid boundary (stopAt, exports) = (stopAt, exports) := if_neg fun hc => h hc.1

theorem settle_subset {p : Nat} (h : p ∈ (settle grid boundary (stopAt, exports)).2) :
    p ∈ exports := by
  unfold settle at h
  dsimp only at h
  split_ifs at h
  · exact List.mem_of_mem_filter h
  · exact h

end Settle

/-! ## The plan -/

section Plan

variable {start stop grid boundary : Nat} {stops : List Nat} {limit : Int}

/-- The planner raises only for its grid. -/
theorem planChunk_ok (hg : 0 < grid) (hgrid : chunkTokens ∣ grid) :
    planChunk start stop stops grid boundary limit = .ok (settle grid boundary
      (walkStops (exportable start grid boundary) limit stop 0 (inside start stop stops))) := by
  rw [planChunk, checkGrid_ok.mpr ⟨hg, hgrid⟩]
  rfl

/-- Without the boundary among the stops inside the chunk, the walk is that of the plain planner. -/
theorem planChunk_eq (h : boundary ∉ inside start stop stops) :
    planChunk start stop stops grid boundary limit =
      Checkpoint.planChunk start stop stops grid limit := by
  have hwalk : walkStops (exportable start grid boundary) limit stop 0 (inside start stop stops) =
      walkStops (fun s => s % grid == 0 && (s - start) % chunkTokens == 0) limit stop 0
        (inside start stop stops) := by
    refine walkStops_congr fun s hs => ?_
    have hne : s ≠ boundary := fun e => h (e ▸ hs)
    rw [exportable, beq_eq_false_iff_ne.mpr hne, Bool.or_false]
  unfold planChunk Checkpoint.planChunk
  rw [hwalk, ← Prod.mk.eta (p := walkStops _ _ _ _ _), settle_of_notMem]
  exact fun hmem => h (mem_of_mem_walk hmem)

/-- **A plan of the chunk** `[start, stop)`: its end, and what the claims on its exports are. -/
structure PlanSound (start stop grid : Nat) (stops : List Nat) (plan : Nat × List Nat) : Prop where
  after : start < plan.1
  le_stop : plan.1 ≤ stop
  covers : ∀ s ∈ stops, start < s → s < plan.1 → s ∈ plan.2
  sorted : plan.2.Pairwise (· < ·)
  tiles : ∀ p ∈ plan.2, chunkTokens ∣ p
  inside : ∀ p ∈ plan.2, start < p ∧ p < plan.1
  columns : (plan.2.map (column grid)).Nodup
  final : column grid plan.1 ∉ plan.2.map (column grid)

/-- **The planner's plans are sound.** From a start on the tiles, the validator accepts a plan
exactly when it exports something; without the boundary among the stops the plan is the plain
planner's; without an export the chunk ends at the first stop. -/
theorem plan_chunk_sound (hlt : start < stop) (hb : chunkTokens ∣ boundary) (hg : 0 < grid)
    (hgrid : chunkTokens ∣ grid) : ∃ plan, planChunk start stop stops grid boundary
      limit = .ok plan ∧
      PlanSound start stop grid stops plan ∧
      (chunkTokens ∣ start → (validatePlan (start, plan.1, plan.2) grid =
      .ok (start, plan.1, plan.2) ↔ plan.2 ≠ [])) ∧
      (boundary ∉ stops → Checkpoint.planChunk start stop stops grid limit = .ok plan) ∧
      (plan.2 = [] → plan.1 = earliest start stop stops) := by
  have hplan := @planChunk_ok start stop grid boundary stops limit hg hgrid
  have hwalk := @walk_covers (exportable start grid boundary) limit _ _ stops hlt
  have hexp : ∀ p ∈ (walkStops (exportable start grid boundary) limit stop 0
    (inside start stop stops)).2,
      p % grid = 0 ∨ p = boundary := by
    intro p hp
    have := exportable_of_mem hp
    simp only [exportable, Bool.and_eq_true, Bool.or_eq_true, beq_iff_eq] at this
    exact this.1
  generalize walkStops (exportable start grid boundary) limit stop 0 (inside start stop stops) = w
    at hplan hwalk hexp
  obtain ⟨stopAt, exports⟩ := w
  have hcovers := @settle_covers _ _ grid boundary _ _ _ hwalk
  have hcols := @settle_columns _ _ _ boundary _ _ _ hg hwalk hexp
  have htiles : ∀ p ∈ (settle grid boundary (stopAt, exports)).2, chunkTokens ∣ p := by
    intro p hp
    rcases hexp p (settle_subset hp) with hdvd | rfl
    · exact hgrid.trans (Nat.dvd_of_mod_eq_zero hdvd)
    · exact hb
  generalize settle grid boundary (stopAt, exports) = plan at hplan hcovers hcols htiles
  refine ⟨plan, hplan, ⟨hcovers.after, hcovers.le_stop, hcovers.covers, hcovers.sorted, htiles,
    hcovers.inside, hcols.1, hcols.2⟩, ?_, ?_, hcovers.first⟩
  · intro hstart
    rw [validatePlan_ok]
    refine ⟨fun h => h.2.1.1, fun hne => ⟨⟨hcovers.after, Nat.mod_eq_zero_of_dvd hstart⟩,
      ⟨hne, hcovers.sorted⟩, fun p hp => ⟨hcovers.inside p hp, ?_⟩, hcols, rfl⟩⟩
    exact Nat.mod_eq_zero_of_dvd (Nat.dvd_sub (htiles p hp) hstart)
  · intro hnot
    rw [← planChunk_eq fun hin => hnot (mem_inside.mp hin).1]
    exact hplan

/-- Two stops on the grid and a boundary between them. -/
theorem plan_three_stops : ∃ plan, planChunk 0 256 [64, 144, 192] 64 144 4 = .ok plan ∧
    PlanSound 0 256 64 [64, 144, 192] plan :=
  let ⟨plan, h, hs, _⟩ := @plan_chunk_sound 0 256 64 144 [64, 144, 192] 4 (by decide) (by decide)
    (by decide) (by decide)
  ⟨plan, h, hs⟩

/-- A chunk without a stop has a plan that the validator raises on. -/
theorem empty_plan_rejected : ¬ ∀ (start stop : Nat) (stops : List Nat) (grid boundary :
    Nat) (limit : Int)
    (plan : Nat × List Nat), start < stop → chunkTokens ∣ boundary → 0 < grid → chunkTokens ∣ grid →
      chunkTokens ∣ start → planChunk start stop stops grid boundary limit = .ok plan →
      ∃ v, validatePlan (start, plan.1, plan.2) grid = .ok v := by
  intro h
  obtain ⟨v, hv⟩ := h 0 64 [] 64 0 4 (64, []) (by decide) (by decide) (by decide) (by decide)
    (by decide) rfl
  exact (validatePlan_ok.mp hv).2.1.1 rfl

end Plan

end Ringside.ReplayBoundary

import Mathlib.Data.List.Sort
import Ringside.Checks

/-!
# Checkpoint plans of a prefill chunk (`glm53_kda_ckpt_plan.py`)

Model of `plan_chunk`, `validate_plan` and `export_columns`. A chunk `[start, stop)` runs past a
mandatory stop whose state it can export: one on the block grid, a multiple of the tile away from
`start`, of at most `maxExports`. The first other stop ends it. `validatePlan` is what the mamba
managers and the workers check a plan with.

* Positions are numbers of prompt tokens, so `0 <= start` always holds. The export limit is an
  environment value and may be negative.
* `walkStops` is the loop that the two planners share; what may be exported is its parameter. The
  planner with the replay boundary is in `ReplayBoundary.Plan`.
* Sets are sorted lists without repetitions (`sortedSet`), which is how the source uses them.
* Errors carry the source's texts.

Results:
* `sortedSet_sorted`, `mem_sortedSet`: sorted sets.
* `headD_inside`: the first stop inside a chunk is the scheduler's own end.
* `walkStops_split`: the stops are the exports, then the one that ends the chunk, then the rest.
* `walk_covers`: the exports are the stops passed, in order, and none is the end.
* `column_lt_of_dvd`: a state on the grid has an earlier column than every later one.
* `validatePlan_ok`: what the validator accepts.
* `exportColumns_ok`: its plans have a column for each export and another one for the final state.

Out of scope: where the environment values are read, and how the workers execute a plan (`KdaConv`).
-/

namespace Ringside.Checkpoint

open Ringside.Checks

/-- `CHUNK_TOKENS`. -/
def chunkTokens : Nat := 16

def cdiv (a b : Nat) : Nat := (a + b - 1) / b

/-- The block column that holds the state after `p` tokens. -/
def column (grid p : Nat) : Nat := cdiv p grid - 1

/-- `sorted(set(l))`. -/
def sortedSet (l : List Nat) : List Nat := l.dedup.insertionSort (· ≤ ·)

/-- `sorted({int(s) for s in stops if start < s < end})`. -/
def inside (start stop : Nat) (stops : List Nat) : List Nat :=
  sortedSet (stops.filter fun s => start < s && s < stop)

/-- The scheduler's own end: `min((s for s in stops if start < s < end), default=end)`. -/
def earliest (start stop : Nat) (stops : List Nat) : Nat :=
  ((stops.filter fun s => start < s && s < stop).min?).getD stop

/-- The loop over the stops, with `n` exports so far: the chunk's end and the exports from here on.
-/
def walkStops (exportable : Nat → Bool) (maxExports : Int) (stop : Nat) : Nat → List Nat →
    Nat × List Nat
  | _, [] => (stop, [])
  | n, s :: rest =>
    if exportable s ∧ (n : Int) < maxExports then
      let (stopAt, exports) := walkStops exportable maxExports stop (n + 1) rest
      (stopAt, s :: exports)
    else (s, [])

/-- `grid must be a positive multiple of CHUNK_TOKENS`. -/
def checkGrid (grid : Nat) : Except String Unit :=
  if grid = 0 ∨ grid % chunkTokens ≠ 0 then
    throw s!"grid {grid} must be a positive multiple of {chunkTokens}"
  else return ()

/-- `plan_chunk`. -/
def planChunk (start stop : Nat) (stops : List Nat) (grid : Nat) (maxExports : Int) :
    Except String (Nat × List Nat) := do
  checkGrid grid
  let exportable s := s % grid == 0 && (s - start) % chunkTokens == 0
  return walkStops exportable maxExports stop 0 (inside start stop stops)

/-- A tuple's text. -/
def tupleText (l : List Nat) : String :=
  "(" ++ ", ".intercalate (l.map toString) ++ if l.length = 1 then ",)" else ")"

/-- `validate_plan`. -/
def validatePlan (plan : Nat × Nat × List Nat) (blockSize : Nat) :
    Except String (Nat × Nat × List Nat) := do
  let (start, stop, exports) := plan
  if ¬ start < stop ∨ start % chunkTokens ≠ 0 then
    throw (s!"KDA checkpoint plan span [{start}, {stop}) must start on the " ++
      s!"{chunkTokens}-token tile grid")
  if exports = [] ∨ exports ≠ sortedSet exports then
    throw "KDA checkpoint exports must be sorted, unique and non-empty"
  let columns := exports.map (column blockSize)
  match exports.find? fun p => !(start < p && p < stop) || (p - start) % chunkTokens != 0 with
  | some p =>
    throw (s!"KDA checkpoint export {p} is not an interior tile state of [{start}, {stop})")
  | none => pure ()
  if ¬ columns.Nodup ∨ column blockSize stop ∈ columns then
    throw (s!"KDA checkpoint exports {tupleText exports} of [{start}, {stop}) share a block column")
  return (start, stop, exports)

/-- `export_columns`. -/
def exportColumns (plan : Nat × Nat × List Nat) (blockSize : Nat) : Except String (List Nat) := do
  let (_, _, exports) ← validatePlan plan blockSize
  return exports.map (column blockSize)

/-! ## Sorted stops -/

section Sorted

variable {l : List Nat}

theorem mem_sortedSet {p : Nat} : p ∈ sortedSet l ↔ p ∈ l := by
  rw [sortedSet, List.mem_insertionSort, List.mem_dedup]

theorem sortedSet_sorted : (sortedSet l).Pairwise (· < ·) := by
  have hle : (sortedSet l).Pairwise (· ≤ ·) := List.pairwise_insertionSort (· ≤ ·) _
  have hne : (sortedSet l).Nodup := (List.perm_insertionSort _ _).nodup_iff.mpr (List.nodup_dedup l)
  exact hle.imp₂ (fun _ _ h h' => lt_of_le_of_ne h h') hne

/-- A list without repetitions in order is its own sorted set. -/
theorem sortedSet_eq (h : l.Pairwise (· < ·)) : sortedSet l = l :=
  List.Pairwise.eq_of_mem_iff sortedSet_sorted h fun _ => mem_sortedSet

theorem inside_sorted (start stop : Nat) : (inside start stop l).Pairwise (· < ·) :=
    sortedSet_sorted

theorem mem_inside {start stop s : Nat} : s ∈ inside start stop l ↔ s ∈ l ∧ start < s ∧
    s < stop := by
  rw [inside, mem_sortedSet, List.mem_filter, Bool.and_eq_true, decide_eq_true_eq,
    decide_eq_true_eq]

theorem headD_inside (start stop : Nat) : (inside start stop l).headD stop =
    earliest start stop l := by
  unfold earliest inside
  generalize l.filter (fun s => start < s && s < stop) = l
  cases hl : sortedSet l with
  | nil =>
    have : l = [] := List.eq_nil_iff_forall_not_mem.mpr fun p hp =>
      List.not_mem_nil (hl ▸ mem_sortedSet.mpr hp)
    rw [this]
    rfl
  | cons p rest =>
    have hsorted := sortedSet_sorted (l := l)
    rw [hl] at hsorted
    have hmin : l.min? = some p := by
      refine List.min?_eq_some_iff.mpr ⟨mem_sortedSet.mp (hl ▸ List.mem_cons_self), fun q hq => ?_⟩
      rcases List.mem_cons.mp (hl ▸ mem_sortedSet.mpr hq : q ∈ p :: rest) with rfl | hq
      · exact le_rfl
      · exact ((List.pairwise_cons.mp hsorted).1 q hq).le
    rw [hmin]
    rfl

end Sorted

/-! ## The walk

The walk is known by what it passes: the stops before its end are exported, and the end is the first
stop that is not. This is the form in which it is compared with other walks.
-/

section Walk

variable {exportable : Nat → Bool} {limit : Int} {stop n : Nat} {l : List Nat}

/-- **The stops are the exports, then the stop that ends the chunk, then the rest.** -/
theorem walkStops_split : ∃ rest, l = (walkStops exportable limit stop n l).2 ++ rest ∧
    (walkStops exportable limit stop n l).1 = rest.headD stop := by
  induction l generalizing n with
  | nil => exact ⟨[], rfl, rfl⟩
  | cons s l ih =>
    unfold walkStops
    split_ifs with h
    · obtain ⟨rest, hl, hend⟩ := ih (n := n + 1)
      exact ⟨rest, congrArg (s :: ·) hl, hend⟩
    · exact ⟨s :: l, rfl, rfl⟩

theorem mem_of_mem_walk {p : Nat} (h : p ∈ (walkStops exportable limit stop n l).2) : p ∈ l := by
  obtain ⟨rest, hl, -⟩ := @walkStops_split exportable limit stop n l
  rw [hl]
  exact List.mem_append_left rest h

/-- Only what may be exported is. -/
theorem exportable_of_mem {p : Nat} (h : p ∈ (walkStops exportable limit stop n l).2) :
    exportable p := by
  induction l generalizing n with
  | nil => exact absurd h List.not_mem_nil
  | cons s l ih =>
    unfold walkStops at h
    split_ifs at h with hs
    · rcases List.mem_cons.mp h with rfl | h
      · exact hs.1
      · exact ih h
    · exact absurd h List.not_mem_nil

/-- The walk looks only at what the stops are. -/
theorem walkStops_congr {exportable' : Nat → Bool} (h : ∀ s ∈ l, exportable s = exportable' s) :
    walkStops exportable limit stop n l = walkStops exportable' limit stop n l := by
  induction l generalizing n with
  | nil => rfl
  | cons s l ih =>
    unfold walkStops
    rw [h s List.mem_cons_self, ih fun s' hs' => h s' (List.mem_cons_of_mem s hs')]

/-- The walk goes on while it may export and exports are left. -/
theorem walkStops_passes : ((walkStops exportable limit stop n l).2 = [] ∨
      (n + (walkStops exportable limit stop n l).2.length : Int) ≤ limit) ∧
    ∀ rest, l = (walkStops exportable limit stop n l).2 ++ rest → ∀ s ∈ rest.head?,
      ¬ (exportable s ∧ (n + (walkStops exportable limit stop n l).2.length : Int) < limit) := by
  induction l generalizing n with
  | nil => exact ⟨Or.inl rfl, fun rest h s hs => by cases h; cases hs⟩
  | cons s l ih =>
    unfold walkStops
    split_ifs with hpass
    · obtain ⟨hlen, hnext⟩ := ih (n := n + 1)
      have hcount : ∀ x : List Nat, (n + (s :: x).length : Int) = (n + 1 : Nat) + x.length := by
        intro x
        rw [List.length_cons]
        push_cast
        ring
      constructor
      · right
        rw [hcount]
        rcases hlen with hnil | hlen
        · rw [hnil, List.length_nil]
          push_cast
          omega
        · exact hlen
      · intro rest hl s' hs'
        rw [hcount]
        exact hnext rest (List.cons.inj hl).2 s' hs'
    · refine ⟨Or.inl rfl, fun rest hl s' hs' hc => hpass ?_⟩
      have hrest : rest = s :: l := hl.symm
      subst hrest
      cases hs'
      simpa using hc

/-- A walk is known by what it passes and by the stop where it cannot go on. -/
theorem walkStops_eq {a : Nat} {x rest : List Nat} (hx : ∀ p ∈ x, exportable p)
    (hlen : x = [] ∨ (n + x.length : Int) ≤ limit)
    (ha : ¬ (exportable a ∧ (n + x.length : Int) < limit)) :
    walkStops exportable limit stop n (x ++ a :: rest) = (a, x) := by
  induction x generalizing n with
  | nil =>
    rw [List.nil_append, walkStops, if_neg (by simpa using ha)]
  | cons s x ih =>
    have hcount : (n + (s :: x).length : Int) = (n + 1 : Nat) + x.length := by
      rw [List.length_cons]
      push_cast
      ring
    rw [hcount] at hlen ha
    have hlen' := hlen.resolve_left (List.cons_ne_nil s x)
    rw [List.cons_append, walkStops, if_pos ⟨hx s List.mem_cons_self, by push_cast at hlen'; omega⟩,
      ih (fun p hp => hx p (List.mem_cons_of_mem s hp)) (Or.inr hlen') ha]

/-- A sorted list around one of its members. -/
theorem sorted_split {a : Nat} {l x : List Nat} (h : l.Pairwise (· < ·))
    (hx : x.Pairwise (· < ·)) (ha : a ∈ l)
    (hmem : ∀ s, s ∈ x ↔ s ∈ l ∧ s < a) : ∃ rest, l = x ++ a :: rest := by
  refine ⟨l.filter (a < ·), List.Pairwise.eq_of_mem_iff h ?_ fun s => ?_⟩
  · refine List.pairwise_append.mpr ⟨hx, List.pairwise_cons.mpr ⟨?_, h.filter _⟩, ?_⟩
    · exact fun s hs => of_decide_eq_true (List.mem_filter.mp hs).2
    · intro s hs s' hs'
      refine ((hmem s).mp hs).2.trans_le ?_
      rcases List.mem_cons.mp hs' with rfl | hs'
      · exact le_rfl
      · exact (of_decide_eq_true (List.mem_filter.mp hs').2 : a < s').le
  · rw [List.mem_append, List.mem_cons, List.mem_filter, hmem, decide_eq_true_eq]
    constructor
    · intro hs
      rcases Nat.lt_trichotomy s a with hlt | rfl | hlt
      · exact Or.inl ⟨hs, hlt⟩
      · exact Or.inr (Or.inl rfl)
      · exact Or.inr (Or.inr ⟨hs, hlt⟩)
    · rintro (hs | rfl | hs)
      · exact hs.1
      · exact ha
      · exact hs.1

/-- What a planner promises of the end it chose and of its exports. -/
structure Covers (start stop : Nat) (stops : List Nat) (stopAt : Nat)
    (exports : List Nat) : Prop where
  after : start < stopAt
  le_stop : stopAt ≤ stop
  at_stop : stopAt < stop → stopAt ∈ stops
  covers : ∀ s ∈ stops, start < s → s < stopAt → s ∈ exports
  sorted : exports.Pairwise (· < ·)
  from_stops : ∀ p ∈ exports, p ∈ stops
  inside : ∀ p ∈ exports, start < p ∧ p < stopAt
  first : exports = [] → stopAt = earliest start stop stops

/-- **The walk exports every stop it passes**, in order, and ends at the first other one. -/
theorem walk_covers {start : Nat} {stops : List Nat} (h : start < stop) :
    Covers start stop stops (walkStops exportable limit stop 0 (inside start stop stops)).1
      (walkStops exportable limit stop 0 (inside start stop stops)).2 := by
  obtain ⟨rest, hl, hend⟩ := @walkStops_split exportable limit stop 0 (inside start stop stops)
  have hsorted := inside_sorted (l := stops) start stop
  have hmem : ∀ {s}, s ∈ inside start stop stops ↔ s ∈ stops ∧ start < s ∧ s < stop := mem_inside
  generalize walkStops exportable limit stop 0 (inside start stop stops) = out at hl hend
  obtain ⟨stopAt, exports⟩ := out
  simp only at hl hend ⊢
  rw [hl] at hsorted
  obtain ⟨hexports, hrest, hcross⟩ := List.pairwise_append.mp hsorted
  simp only [hl, List.mem_append] at hmem
  have hbound : start < stopAt ∧ stopAt ≤ stop ∧ (stopAt < stop → stopAt ∈ stops) ∧
      ∀ p ∈ exports, p < stopAt := by
    cases rest with
    | nil =>
      simp only [List.headD_nil] at hend
      subst hend
      exact ⟨h, le_rfl, fun hlt => absurd hlt (lt_irrefl _), fun p hp => (hmem.mp (Or.inl hp)).2.2⟩
    | cons r rest =>
      simp only [List.headD_cons] at hend
      subst hend
      have hr := hmem.mp (Or.inr List.mem_cons_self)
      exact ⟨hr.2.1, hr.2.2.le, fun _ => hr.1, fun p hp => hcross p hp _ List.mem_cons_self⟩
  refine ⟨hbound.1, hbound.2.1, hbound.2.2.1, ?_, hexports, fun p hp => (hmem.mp (Or.inl hp)).1,
    fun p hp => ⟨(hmem.mp (Or.inl hp)).2.1, hbound.2.2.2 p hp⟩, ?_⟩
  · intro s hs hlt hlt'
    rcases hmem.mpr ⟨hs, hlt, hlt'.trans_le hbound.2.1⟩ with hs | hs
    · exact hs
    · -- a stop behind the walk lies at or after the end
      cases rest with
      | nil => exact absurd hs List.not_mem_nil
      | cons r rest =>
        simp only [List.headD_cons] at hend
        subst hend
        rcases List.mem_cons.mp hs with rfl | hs
        · exact absurd hlt' (lt_irrefl _)
        · exact absurd hlt' ((List.pairwise_cons.mp hrest).1 s hs).not_gt
  · rintro rfl
    rw [hend, ← headD_inside, hl, List.nil_append]

end Walk

/-! ## Columns and the validator

The states after a chunk and at its exports go to columns of blocks. Two positions share one only if
no block boundary lies between them.
-/

section Columns

variable {grid p q : Nat}

theorem cdiv_mono (h : p ≤ q) : cdiv p grid ≤ cdiv q grid := Nat.div_le_div_right (by omega)

theorem cdiv_pos (hg : 0 < grid) (hp : 0 < p) : 0 < cdiv p grid := Nat.div_pos (by omega) hg

/-- On the grid. -/
theorem cdiv_mul (hg : 0 < grid) (k : Nat) : cdiv (k * grid) grid = k := by
  unfold cdiv
  rw [show k * grid + grid - 1 = k * grid + (grid - 1) by omega, Nat.mul_comm,
    Nat.mul_add_div hg, Nat.div_eq_of_lt (by omega), Nat.add_zero]

/-- What comes after a whole block needs another one. -/
theorem cdiv_lt_of_dvd (hg : 0 < grid) (hp : p % grid = 0) (h : p < q) :
    cdiv p grid < cdiv q grid := by
  obtain ⟨k, rfl⟩ := Nat.dvd_of_mod_eq_zero hp
  rw [Nat.mul_comm grid k] at h ⊢
  rw [cdiv_mul hg, cdiv, Nat.lt_iff_add_one_le, Nat.le_div_iff_mul_le hg, Nat.succ_mul]
  omega

/-- **The column of a whole number of blocks is before that of every later position.** -/
theorem column_lt_of_dvd (hg : 0 < grid) (hpos : 0 < p) (hp : p % grid = 0) (h : p < q) :
    column grid p < column grid q := by
  have hlt := cdiv_lt_of_dvd hg hp h
  have hp' := cdiv_pos hg hpos
  unfold column
  omega

end Columns

/-- **What the validator accepts.** -/
theorem validatePlan_ok {start stop blockSize : Nat} {exports : List Nat}
    {v : Nat × Nat × List Nat} :
    validatePlan (start, stop, exports) blockSize = .ok v ↔
      (start < stop ∧ start % chunkTokens = 0) ∧ (exports ≠ [] ∧ exports.Pairwise (· < ·)) ∧
      (∀ p ∈ exports, (start < p ∧ p < stop) ∧ (p - start) % chunkTokens = 0) ∧
      ((exports.map (column blockSize)).Nodup ∧
      column blockSize stop ∉ exports.map (column blockSize)) ∧
      (start, stop, exports) = v := by
  have hset : exports = sortedSet exports ↔ exports.Pairwise (· < ·) :=
    ⟨fun h => h ▸ sortedSet_sorted, fun h => (sortedSet_eq h).symm⟩
  simp only [validatePlan, guarded_ok, not_or, not_not, hset]
  refine and_congr_right fun _ => and_congr_right fun _ => ?_
  cases hfind : exports.find? fun p => !(start < p && p < stop) ||
    (p - start) % chunkTokens != 0 with
  | some p =>
    have hp := List.find?_some hfind
    have hmem := List.mem_of_find?_eq_some hfind
    refine ⟨nofun, fun h => ?_⟩
    obtain ⟨⟨h1, h2⟩, h3⟩ := h.1 p hmem
    simp [h1, h2, h3] at hp
  | none =>
    have hall : ∀ p ∈ exports, (start < p ∧ p < stop) ∧ (p - start) % chunkTokens = 0 := by
      intro p hp
      simpa using List.find?_eq_none.mp hfind p hp
    simp only [pure_ok, guarded_ok, not_or, not_not]
    exact ⟨fun h => ⟨hall, h⟩, And.right⟩

/-- **Every export has a column of its own**, and none is the final state's. -/
theorem exportColumns_ok {start stop blockSize : Nat} {exports cols : List Nat}
    (h : exportColumns (start, stop, exports) blockSize = .ok cols) :
    cols = exports.map (column blockSize) ∧ cols ≠ [] ∧ cols.Nodup ∧
      column blockSize stop ∉ cols := by
  obtain ⟨v, hv, h⟩ := bind_ok.mp h
  obtain ⟨-, ⟨hne, -⟩, -, hcols, rfl⟩ := validatePlan_ok.mp hv
  obtain rfl := pure_ok.mp h
  exact ⟨rfl, fun hnil => hne (List.map_eq_nil_iff.mp hnil), hcols⟩

theorem checkGrid_ok {grid : Nat} : checkGrid grid = .ok () ↔ 0 < grid ∧ chunkTokens ∣ grid := by
  rw [checkGrid, checked_ok]
  simp only [not_or, ne_eq, not_not, Nat.pos_iff_ne_zero, Nat.dvd_iff_mod_eq_zero,
    pure_ok, and_true]

end Ringside.Checkpoint

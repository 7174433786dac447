import Mathlib.Data.List.Pairwise
import Mathlib.Tactic

/-!
# Merging streams by step

A stream issues one item at every step from `start` on, `count` of them. Several streams are merged
into one work list by step, the streams' own order breaking ties. `itemAt` finds the `i`-th item of
that list without building it: a binary search for the step, then a scan of the streams.

* `row` is the specification: the items of one step, in the order of the streams. The merged list is
  the rows laid end to end, and `itemsBefore` says where a row begins.
* The kinds of the items tell the streams apart (`itemAt_inj`); they are of any type.
* The search has fuel for every step.

Results:
* `itemAt_row`: the item found is the one the merged list holds.
* `exists_itemAt`: every item of every stream is found, at an index that only depends on it.
* `step_mono`: later items have later steps.
* `itemAt_inj`: with one stream for each kind an item has one index.
-/

namespace Ringside.Merge

/-- A stream of `count` items of one kind, the first at step `start`. -/
structure Stream (κ : Type*) where
  kind : κ
  start : Nat
  count : Nat

/-- An item of the merged list: its kind, its index in its stream, and its step. -/
structure Item (κ : Type*) where
  kind : κ
  index : Nat
  step : Nat
  deriving DecidableEq, Repr

variable {κ : Type*}

/-- How many items come before step `t`. -/
def itemsBefore (sts : List (Stream κ)) (t : Nat) : Nat :=
  (sts.map fun st => min (t - st.start) st.count).sum

/-- The first step after every stream. -/
def lastStep (sts : List (Stream κ)) : Nat :=
  (sts.map fun st => st.start + st.count).foldr max 0

/-- The binary search: `itemsBefore lo ≤ i < itemsBefore hi` narrows to `hi = lo + 1`. -/
def search (sts : List (Stream κ)) (i : Nat) : Nat → Nat → Nat → Nat
  | 0, lo, _ => lo
  | fuel + 1, lo, hi =>
    if hi - lo > 1 then
      let mid := (lo + hi) / 2
      if itemsBefore sts mid ≤ i then search sts i fuel mid hi else search sts i fuel lo mid
    else lo

/-- The scan: the `k`-th of the streams that issue an item at step `t`. -/
def pick (t : Nat) : List (Stream κ) → Nat → Option (Item κ)
  | [], _ => none
  | st :: sts, k =>
    if st.start ≤ t ∧ t < st.start + st.count then
      if k = 0 then some ⟨st.kind, t - st.start, t⟩ else pick t sts (k - 1)
    else pick t sts k

/-- Item `i` of the merged list. -/
def itemAt (sts : List (Stream κ)) (i : Nat) : Option (Item κ) :=
  let lo := search sts i (lastStep sts) 0 (lastStep sts)
  pick lo sts (i - itemsBefore sts lo)

/-- The items of step `t`, in the order of the streams. -/
def row (sts : List (Stream κ)) (t : Nat) : List (Item κ) :=
  sts.filterMap fun st =>
    if st.start ≤ t ∧ t < st.start + st.count then some ⟨st.kind, t - st.start, t⟩ else none

variable {sts : List (Stream κ)}

theorem row_cons (st : Stream κ) (t : Nat) : row (st :: sts) t =
    (if st.start ≤ t ∧ t < st.start + st.count then [⟨st.kind, t - st.start, t⟩] else []) ++
      row sts t := by
  unfold row
  rw [List.filterMap_cons]
  by_cases h : st.start ≤ t ∧ t < st.start + st.count <;> simp [h]

theorem pick_eq_row (t : Nat) : ∀ (sts : List (Stream κ)) (k : Nat), pick t sts k = (row sts t)[k]?
  | [], k => by simp [pick, row]
  | st :: sts, k => by
    unfold pick
    rw [row_cons]
    by_cases h : st.start ≤ t ∧ t < st.start + st.count
    · cases k with
      | zero => simp [h]
      | succ k => simpa [h] using pick_eq_row t sts k
    · simpa [h] using pick_eq_row t sts k

theorem mem_row {t : Nat} {it : Item κ} : it ∈ row sts t ↔
    it.step = t ∧ ∃ st ∈ sts, it.kind = st.kind ∧ it.index < st.count ∧
    t = st.start + it.index := by
  unfold row
  rw [List.mem_filterMap]
  constructor
  · rintro ⟨st, hst, h⟩
    by_cases hact : st.start ≤ t ∧ t < st.start + st.count
    · rw [if_pos hact, Option.some.injEq] at h
      subst h
      exact ⟨rfl, st, hst, rfl, by simp only; omega, by simp only; omega⟩
    · rw [if_neg hact] at h
      exact absurd h (by simp)
  · rintro ⟨ht, st, hst, hk, hi, hts⟩
    refine ⟨st, hst, ?_⟩
    rw [if_pos (by omega)]
    obtain ⟨kind, index, step⟩ := it
    simp only at ht hk hi hts
    subst ht hk
    simp only [Option.some.injEq, Item.mk.injEq, true_and, and_true]
    omega

theorem itemsBefore_succ (t : Nat) :
    itemsBefore sts (t + 1) = itemsBefore sts t + (row sts t).length := by
  induction sts with
  | nil => rfl
  | cons st sts ih =>
    rw [row_cons, List.length_append]
    simp only [itemsBefore, List.map_cons, List.sum_cons] at ih ⊢
    by_cases h : st.start ≤ t ∧ t < st.start + st.count
    · rw [if_pos h, List.length_singleton]
      omega
    · rw [if_neg h, List.length_nil]
      omega

theorem itemsBefore_zero : itemsBefore sts 0 = 0 := by
  induction sts with
  | nil => rfl
  | cons st sts ih =>
    simp only [itemsBefore, List.map_cons, List.sum_cons] at ih ⊢
    omega

theorem itemsBefore_mono {t t' : Nat} (h : t ≤ t') : itemsBefore sts t ≤ itemsBefore sts t' := by
  induction h with
  | refl => rfl
  | step _ ih => rw [Nat.succ_eq_add_one, itemsBefore_succ]; omega

theorem le_lastStep {st : Stream κ} (h : st ∈ sts) : st.start + st.count ≤ lastStep sts := by
  induction sts with
  | nil => exact absurd h List.not_mem_nil
  | cons st' sts ih =>
    simp only [lastStep, List.map_cons, List.foldr_cons] at ih ⊢
    rcases List.mem_cons.mp h with rfl | h
    · omega
    · have := ih h
      omega

/-- The merged list holds what the streams issue. -/
theorem itemsBefore_lastStep : itemsBefore sts (lastStep sts) = (sts.map (·.count)).sum := by
  unfold itemsBefore
  refine congrArg List.sum (List.map_congr_left fun st hst => ?_)
  have := le_lastStep hst
  omega

theorem search_spec {i : Nat} : ∀ (fuel : Nat) {lo hi : Nat}, hi - lo ≤ fuel + 1 → lo < hi →
    itemsBefore sts lo ≤ i → i < itemsBefore sts hi →
    itemsBefore sts (search sts i fuel lo hi) ≤ i ∧
      i < itemsBefore sts (search sts i fuel lo hi + 1)
  | 0, lo, hi, hf, hlt, hlo, hhi => by
    obtain rfl : hi = lo + 1 := by omega
    exact ⟨hlo, hhi⟩
  | fuel + 1, lo, hi, hf, hlt, hlo, hhi => by
    unfold search
    split
    · simp only
      split
      · exact search_spec fuel (by omega) (by omega) ‹_› hhi
      · exact search_spec fuel (by omega) (by omega) hlo (by omega)
    · obtain rfl : hi = lo + 1 := by omega
      exact ⟨hlo, hhi⟩

/-- **The search finds the merged list's item**: the step the index falls into, and the item of that
step's row. -/
theorem itemAt_row {i : Nat} (hi : i < (sts.map (·.count)).sum) :
    ∃ t, itemsBefore sts t ≤ i ∧ i < itemsBefore sts (t + 1) ∧
      itemAt sts i = (row sts t)[i - itemsBefore sts t]? := by
  rw [← itemsBefore_lastStep] at hi
  have hpos : 0 < lastStep sts := by
    rcases Nat.eq_zero_or_pos (lastStep sts) with h | h
    · rw [h, itemsBefore_zero] at hi
      omega
    · exact h
  obtain ⟨hle, hlt⟩ := search_spec (lastStep sts) (by omega) hpos
    (by rw [itemsBefore_zero]; omega) hi
  exact ⟨_, hle, hlt, pick_eq_row _ _ _⟩

/-- The step an index falls into is unique. -/
theorem step_unique {i t t' : Nat} (h : itemsBefore sts t ≤ i) (h' : i < itemsBefore sts (t + 1))
    (g : itemsBefore sts t' ≤ i) (g' : i < itemsBefore sts (t' + 1)) : t = t' := by
  rcases Nat.lt_trichotomy t t' with hlt | rfl | hlt
  · have : itemsBefore sts (t + 1) ≤ itemsBefore sts t' := itemsBefore_mono hlt
    omega
  · rfl
  · have : itemsBefore sts (t' + 1) ≤ itemsBefore sts t := itemsBefore_mono hlt
    omega

/-- What `itemAt` returns is an item of a stream, issued at its step. -/
theorem itemAt_spec {i : Nat} (hi : i < (sts.map (·.count)).sum) :
    ∃ it, itemAt sts i = some it ∧ itemsBefore sts it.step ≤ i ∧
      i < itemsBefore sts (it.step + 1) ∧ it ∈ row sts it.step := by
  obtain ⟨t, hle, hlt, hit⟩ := itemAt_row hi
  rw [itemsBefore_succ] at hlt
  have hk : i - itemsBefore sts t < (row sts t).length := by omega
  rw [List.getElem?_eq_getElem hk] at hit
  have hmem := List.getElem_mem hk
  have hstep := (mem_row.mp hmem).1
  refine ⟨_, hit, ?_, ?_, ?_⟩
  · rw [hstep]; exact hle
  · rw [hstep, itemsBefore_succ]; exact hlt
  · rw [hstep]; exact hmem

/-- **Later items have later steps.** -/
theorem step_mono {i i' : Nat} (h : i ≤ i') {it it' : Item κ} (hi : i' < (sts.map (·.count)).sum)
    (hit : itemAt sts i = some it) (hit' : itemAt sts i' = some it') : it.step ≤ it'.step := by
  obtain ⟨jt, hj, hle, hlt, -⟩ := itemAt_spec (lt_of_le_of_lt h hi)
  obtain ⟨jt', hj', hle', hlt', -⟩ := itemAt_spec hi
  obtain rfl := Option.some.inj (hj.symm.trans hit)
  obtain rfl := Option.some.inj (hj'.symm.trans hit')
  by_contra hgt
  have : itemsBefore sts (jt'.step + 1) ≤ itemsBefore sts jt.step :=
    itemsBefore_mono (not_le.mp hgt)
  omega

/-- **Every item of every stream is found.** -/
theorem exists_itemAt {st : Stream κ} (hst : st ∈ sts) {j : Nat} (hj : j < st.count) :
    ∃ i < (sts.map (·.count)).sum, itemAt sts i = some ⟨st.kind, j, st.start + j⟩ := by
  let t := st.start + j
  have hmem : (⟨st.kind, j, t⟩ : Item κ) ∈ row sts t := mem_row.mpr ⟨rfl, st, hst, rfl, hj, rfl⟩
  obtain ⟨k, hk, hget⟩ := List.getElem_of_mem hmem
  have hlt : itemsBefore sts t + k < itemsBefore sts (t + 1) := by
    rw [itemsBefore_succ]
    omega
  have hsum : itemsBefore sts t + k < (sts.map (·.count)).sum := by
    rw [← itemsBefore_lastStep]
    refine lt_of_lt_of_le hlt (itemsBefore_mono ?_)
    have := le_lastStep hst
    omega
  refine ⟨itemsBefore sts t + k, hsum, ?_⟩
  obtain ⟨t', hle', hlt', hit⟩ := itemAt_row hsum
  obtain rfl := step_unique (Nat.le_add_right _ k) hlt hle' hlt'
  rw [hit, Nat.add_sub_cancel_left, List.getElem?_eq_getElem hk, hget]

/-- With one stream for each kind a row holds an item once. -/
theorem row_nodup (hn : (sts.map (·.kind)).Nodup) (t : Nat) : (row sts t).Nodup := by
  induction sts with
  | nil => exact List.nodup_nil
  | cons st sts ih =>
    rw [List.map_cons, List.nodup_cons] at hn
    rw [row_cons]
    split
    · rw [List.singleton_append, List.nodup_cons]
      refine ⟨fun hmem => hn.1 ?_, ih hn.2⟩
      obtain ⟨-, st', hst', hk, -⟩ := mem_row.mp hmem
      exact List.mem_map.mpr ⟨st', hst', hk.symm⟩
    · exact ih hn.2

/-- **With one stream for each kind an item has one index.** -/
theorem itemAt_inj (hn : (sts.map (·.kind)).Nodup) {i i' : Nat} {it : Item κ}
    (hi : i < (sts.map (·.count)).sum) (hi' : i' < (sts.map (·.count)).sum)
    (h : itemAt sts i = some it) (h' : itemAt sts i' = some it) : i = i' := by
  obtain ⟨t, hle, hlt, hit⟩ := itemAt_row hi
  obtain ⟨t', hle', hlt', hit'⟩ := itemAt_row hi'
  rw [h] at hit
  rw [h'] at hit'
  have ht := (mem_row.mp (List.mem_of_getElem? hit.symm)).1
  have ht' := (mem_row.mp (List.mem_of_getElem? hit'.symm)).1
  subst ht'
  subst ht
  rw [itemsBefore_succ] at hlt
  have hk : i - itemsBefore sts it.step < (row sts it.step).length := by omega
  have := (List.getElem?_inj hk (row_nodup hn it.step)).mp (hit.symm.trans hit')
  omega

end Ringside.Merge

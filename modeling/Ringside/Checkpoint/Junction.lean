import Ringside.Checkpoint.Split

/-!
# Junctions of shared prefixes and the block-aligned split (`_mamba_block_aligned_split`)

A junction is the length of a prefix that a request shares with another one. Its state is cached at
its block floor, and the split makes that a mandatory stop. It computes the stop from the chunk's
start, in whole blocks; from a start inside a block, where the replay boundary lets a chunk run on,
that stop lies off the grid. This file says what the stop is for, when a split meets that, and shows
a split that does not.

* `Meets`: the chunk keeps the state at the junction's floor, and ends off the grid only at the
  replay boundary, at the prompt's tail or where the budget ends.
* `Astray`: the stop is computed from a start inside a block.
* `Spared`: the last cacheable position and the tail make up for it. It is stated by the positions,
  what of them the planner can export, and the export limit, and it does not run the planner.
  `SparedByWalk` says the same by the planner's loop and is a step of the proof only.
* A chunk is one of a prefill (`start < prefillEnd`) for which the split returns. Nothing is assumed
  of the block sizes, the budget or the plan table before the call.
* A stop that ties with the junction's counts as one of the other stops.

Results:
* `walk_after`, `walk_before`: what one more stop does to a walk.
* `meets_of`: what makes a plan meet the claims, whatever planned it.
* `sparedByWalk_iff`: the loop over the two other stops, case by case.
* `meets_iff_of_before`: the chunks that the junction's stop ends.
* `split_meets_iff`: a split meets the claims on junctions and ends exactly when it is not astray or
  is spared.
* `shared_prompt_astray`: a split that does not: blocks of 64, a start of 16, a junction of 96, a
  chunk that ends at 80.
-/

namespace Ringside.Checkpoint

open Ringside.Checks

/-! ## Multiples of the block size -/

section Floor

variable {a b x y : Nat}

theorem floor_le : a / b * b ≤ a := Nat.div_mul_le_self a b

theorem lt_floor_add (hb : 0 < b) : a < a / b * b + b := Nat.lt_div_mul_add hb

theorem dvd_floor : b ∣ a / b * b := Nat.dvd_mul_left b _

theorem floor_mono (h : a ≤ x) : a / b * b ≤ x / b * b :=
    Nat.mul_le_mul_right b (Nat.div_le_div_right h)

theorem add_le_of_dvd (hx : b ∣ x) (hy : b ∣ y) (h : x < y) : x + b ≤ y := by
  have := Nat.le_of_dvd (by omega) (Nat.dvd_sub hy hx)
  omega

theorem floor_eq (hb : 0 < b) (hx : b ∣ x) (h : x ≤ a) (h' : a < x + b) : a / b * b = x := by
  have h1 := lt_floor_add (a := a) hb
  have h2 := floor_le (a := a) (b := b)
  rcases Nat.lt_trichotomy (a / b * b) x with hlt | heq | hlt
  · have := add_le_of_dvd dvd_floor hx hlt
    omega
  · exact heq
  · have := add_le_of_dvd hx dvd_floor hlt
    omega

end Floor

/-! ## One more stop

The walk over all stops is compared with the walk without the junction's. Where it ends before that
stop it is the same; where it gets there, a stop that cannot be exported ends it. A junction stop
off the grid cannot, unless it is the replay boundary.
-/

section Insert

variable {exportable : Nat → Bool} {limit : Int} {start stop j : Nat} {l l' : List Nat}

/-- **A stop behind the end of a walk does not change it.** -/
theorem walk_after (hl : ∀ s, s ∈ inside start stop l' ↔ s ∈ inside start stop l ∨ s = j)
    (h : start < stop)
    (hj : (walkStops exportable limit stop 0 (inside start stop l)).1 < j) (hjs : j < stop) :
    walkStops exportable limit stop 0 (inside start stop l') =
      walkStops exportable limit stop 0 (inside start stop l) := by
  have hc := @walk_covers exportable limit _ _ l h
  obtain ⟨rest, hsplit, hend⟩ := @walkStops_split exportable limit stop 0 (inside start stop l)
  obtain ⟨hlen, hstay⟩ := @walkStops_passes exportable limit stop 0 (inside start stop l)
  have hexp := fun p => @exportable_of_mem exportable limit stop 0 (inside start stop l) p
  generalize walkStops exportable limit stop 0 (inside start stop l) = w at *
  obtain ⟨e, x⟩ := w
  have he : e ∈ inside start stop l := mem_inside.mpr ⟨hc.at_stop (hj.trans hjs),
    hc.after, hj.trans hjs⟩
  obtain ⟨rest', hsplit'⟩ := sorted_split (a := e) (x := x) (inside_sorted start stop)
    hc.sorted ((hl e).mpr (Or.inl he)) (fun s => by
      constructor
      · intro hs
        exact ⟨(hl s).mpr (Or.inl (mem_inside.mpr ⟨hc.from_stops s hs, (hc.inside s hs).1,
          (hc.inside s hs).2.trans (hj.trans hjs)⟩)), (hc.inside s hs).2⟩
      · rintro ⟨hs, hlt⟩
        have hs' := mem_inside.mp (((hl s).mp hs).resolve_right (hlt.trans hj).ne)
        exact hc.covers s hs'.1 hs'.2.1 hlt)
  have hhead : rest.head? = some e := by
    cases rest with
    | nil => exact absurd (hj.trans hjs) (hend ▸ lt_irrefl _)
    | cons r rest => exact congrArg some hend.symm
  rw [hsplit']
  exact walkStops_eq hexp (by simpa using hlen) (by simpa using hstay rest hsplit e hhead)

/-- **A stop before the end of a walk that cannot be exported ends it.** -/
theorem walk_before (hl : ∀ s, s ∈ inside start stop l' ↔ s ∈ inside start stop l ∨ s = j)
    (h : start < stop) (hj : j < (walkStops exportable limit stop 0 (inside start stop l)).1)
    (hexp : exportable j = false) :
    walkStops exportable limit stop 0 (inside start stop l') =
      (j, (walkStops exportable limit stop 0 (inside start stop l)).2.filter (· < j)) := by
  have hc := @walk_covers exportable limit _ _ l h
  obtain ⟨hlen, -⟩ := @walkStops_passes exportable limit stop 0 (inside start stop l)
  have hpass := fun p => @exportable_of_mem exportable limit stop 0 (inside start stop l) p
  generalize walkStops exportable limit stop 0 (inside start stop l) = w at *
  obtain ⟨e, x⟩ := w
  have hfilter : ∀ {s}, s ∈ x.filter (· < j) ↔ s ∈ x ∧ s < j := by
    intro s
    rw [List.mem_filter, decide_eq_true_eq]
  obtain ⟨rest', hsplit'⟩ := sorted_split (a := j) (x := x.filter (· < j))
    (inside_sorted start stop) (hc.sorted.filter _) ((hl j).mpr (Or.inr rfl))
    (fun s => by
      rw [hfilter]
      constructor
      · rintro ⟨hs, hlt⟩
        exact ⟨(hl s).mpr (Or.inl (mem_inside.mpr ⟨hc.from_stops s hs, (hc.inside s hs).1,
          (hc.inside s hs).2.trans_le hc.le_stop⟩)), hlt⟩
      · rintro ⟨hs, hlt⟩
        have hs' := mem_inside.mp (((hl s).mp hs).resolve_right hlt.ne)
        exact ⟨hc.covers s hs'.1 hs'.2.1 (hlt.trans hj), hlt⟩)
  rw [hsplit']
  refine walkStops_eq (fun p hp => hpass p (hfilter.mp hp).1) ?_ (fun hcon => by
    simp [hexp] at hcon)
  rcases hlen with hnil | hlen
  · left
    rw [show x = [] from hnil, List.filter_nil]
  · right
    have := List.length_filter_le (· < j) x
    push_cast at hlen ⊢
    omega

end Insert

/-! ## The positions of a split -/

section Positions

variable {Rid : Type} (c : Config) (r : Request Rid) (t : Offer)

/-- The junction, rounded down to the block size. -/
def junctionFloor : Nat := r.sharedPrefixBoundary / c.block * c.block

/-- The chunk keeps the state at the junction's floor, unless another mandatory stop ends it before;
and it ends off the grid only at the replay boundary, at the prompt's tail, or where the budget
ends. -/
structure Meets (stopAt : Nat) (exports : List Nat) : Prop where
  junction : start r t < r.sharedPrefixBoundary →
    r.sharedPrefixBoundary < start r t + t.numNewTokens →
    start r t < junctionFloor c r →
    stopAt = junctionFloor c r ∨ junctionFloor c r ∈ exports ∨
      (stopAt < junctionFloor c r ∧ stopAt ∈ otherStops c r t)
  ends : start r t < stopAt → stopAt < r.numPromptTokens → stopAt % c.block ≠ 0 →
    (requestBoundary c r t).map Prod.fst = some stopAt ∨ stopAt = tailStop c r t ∨
      stopAt = start r t + t.numNewTokens

/-- The junction's stop is computed from a start inside a block. -/
def Astray : Prop :=
  (requestBoundary c r t).isSome ∧ start r t % c.block ≠ 0 ∧ start r t < r.sharedPrefixBoundary ∧
    r.sharedPrefixBoundary < chunkEnd c r t ∧ start r t < junctionFloor c r

/-- A position strictly inside the chunk. -/
def Within (s : Nat) : Prop := start r t < s ∧ s < chunkEnd c r t

/-- A stop that the planner can export: on the grid or the replay boundary, tiles from the start. -/
def Exportable (s : Nat) : Prop :=
  ReplayBoundary.exportable (start r t) c.block (boundaryTokens c r t) s

/-- The chunk runs on past the last cacheable position, whose state it exports. -/
def LastExported : Prop :=
  Within c r t (lastStop c r t) ∧ Exportable c r t (lastStop c r t) ∧ 0 < exportLimit c r t

instance (s : Nat) : Decidable (Within c r t s) := inferInstanceAs (Decidable (_ ∧ _))

instance (s : Nat) : Decidable (Exportable c r t s) := inferInstanceAs (Decidable (_ = true))

instance : Decidable (LastExported c r t) := inferInstanceAs (Decidable (_ ∧ _ ∧ _))

/-- The chunk cannot run on past the last cacheable position. -/
def LastEnds : Prop := Within c r t (lastStop c r t) ∧ ¬ LastExported c r t

/-- The tail's state can be exported, after that of the last cacheable position. -/
def TailExported : Prop :=
  Exportable c r t (tailStop c r t) ∧ 0 < exportLimit c r t ∧
    (LastExported c r t → 1 < exportLimit c r t)

/-- The other stops make up for it: the junction's stop is not the first to end the chunk, and the
junction's floor is one of them or comes behind the one that does. -/
def Spared : Prop :=
  -- the last cacheable position ends the chunk
  (LastEnds c r t ∧ lastStop c r t ≤ junctionFloor c r ∧
    ¬ (start r t < junctionStop c r t ∧ junctionStop c r t < lastStop c r t)) ∨
  -- the tail is inside: an exported one before the junction's stop has that stop's column, and ends
  -- the chunk for it
  (¬ LastEnds c r t ∧ Within c r t (tailStop c r t) ∧
    ¬ (start r t < junctionStop c r t ∧ junctionStop c r t < tailStop c r t) ∧
    (TailExported c r t → tailStop c r t < junctionStop c r t →
      column c.block (tailStop c r t) = column c.block (junctionStop c r t)) ∧
    (LastExported c r t ∧ lastStop c r t = junctionFloor c r ∨
      tailStop c r t = junctionFloor c r ∨
      tailStop c r t < junctionFloor c r ∧
        (TailExported c r t → tailStop c r t < junctionStop c r t))) ∨
  -- neither: the junction lies in the block behind the start
  (¬ LastEnds c r t ∧ ¬ Within c r t (tailStop c r t) ∧ junctionStop c r t ≤ start r t ∧
    LastExported c r t ∧ lastStop c r t = junctionFloor c r)

/-- The same by the walk over the other stops. Where it gets past the junction's stop, only the
replay boundary helps: exported before that stop into the column of its block, it ends the chunk.
Else the plan of the other stops must keep the junction's floor. -/
def SparedByWalk : Prop :=
  let w := walk c r t (otherStops c r t)
  let plan := ReplayBoundary.settle c.block (boundaryTokens c r t) w
  if start r t < junctionStop c r t ∧ junctionStop c r t < w.1 ∧
      junctionStop c r t ≠ tailStop c r t then
    tailStop c r t ∈ w.2 ∧ tailStop c r t < junctionStop c r t ∧
      column c.block (tailStop c r t) = column c.block (junctionStop c r t) ∧
      (tailStop c r t < junctionFloor c r ∨ junctionFloor c r ∈ w.2)
  else plan.1 ≤ junctionFloor c r ∨ junctionFloor c r ∈ plan.2

variable {c r t}

theorem chunkEnd_cases : chunkEnd c r t = start r t + t.numNewTokens ∨
    chunkEnd c r t = (start r t + t.numNewTokens) / c.block * c.block := by
  unfold chunkEnd
  dsimp only
  split_ifs <;> first | exact Or.inl rfl | exact Or.inr rfl

theorem chunkEnd_le : chunkEnd c r t ≤ start r t + t.numNewTokens := by
  rcases chunkEnd_cases (c := c) (r := r) (t := t) with h | h
  · exact h.le
  · exact h ▸ floor_le

theorem junctionFloor_le_end (h : r.sharedPrefixBoundary < start r t + t.numNewTokens) :
    junctionFloor c r ≤ chunkEnd c r t := by
  rcases chunkEnd_cases (c := c) (r := r) (t := t) with he | he
  · rw [he]
    exact floor_le.trans h.le
  · rw [he]
    exact floor_mono h.le

/-- A junction that the alignment cut off lies behind its floor, the chunk's end. -/
theorem junctionFloor_eq_end (h : r.sharedPrefixBoundary < start r t + t.numNewTokens)
    (h' : chunkEnd c r t ≤ r.sharedPrefixBoundary) : junctionFloor c r = chunkEnd c r t := by
  refine le_antisymm (junctionFloor_le_end h) ?_
  rcases chunkEnd_cases (c := c) (r := r) (t := t) with he | he
  · omega
  · rw [he] at h' ⊢
    exact Nat.mul_le_mul_right _ ((Nat.le_div_iff_mul_le c.block_pos).mpr h')

theorem dvd_lastCachePosition : c.block ∣ lastCachePosition c r t := by
  unfold lastCachePosition
  split_ifs
  · exact dvd_zero _
  · exact dvd_floor
  · exact Nat.dvd_sub (Nat.dvd_sub_mod _) dvd_rfl
  · exact Nat.dvd_sub_mod _

theorem dvd_lastStop : c.block ∣ lastStop c r t := by
  unfold lastStop
  split
  · split_ifs
    · exact dvd_zero _
    · exact dvd_lastCachePosition
  · exact dvd_lastCachePosition

theorem dvd_nextStop : c.block ∣ nextStop c r t := by
  unfold nextStop
  split_ifs
  · exact Nat.dvd_mul_left _ _
  · exact dvd_zero _

theorem junctionStop_of_in (h : start r t < r.sharedPrefixBoundary)
    (h' : r.sharedPrefixBoundary < chunkEnd c r t) :
    junctionStop c r t = start r t + (r.sharedPrefixBoundary - start r t) / c.block * c.block :=
    if_pos ⟨h, h'⟩

theorem in_of_junctionStop (h : start r t < junctionStop c r t) :
    start r t < r.sharedPrefixBoundary ∧ r.sharedPrefixBoundary < chunkEnd c r t := by
  by_contra hin
  rw [junctionStop, if_neg hin] at h
  omega

/-- From a block-aligned start the stop is the junction's floor. -/
theorem junctionStop_aligned (hs : start r t % c.block = 0) (h : start r t < r.sharedPrefixBoundary)
    (h' : r.sharedPrefixBoundary < chunkEnd c r t) : junctionStop c r t = junctionFloor c r := by
  have hdvd := Nat.dvd_of_mod_eq_zero hs
  have h1 := floor_le (a := r.sharedPrefixBoundary - start r t) (b := c.block)
  have h2 := lt_floor_add (a := r.sharedPrefixBoundary - start r t) c.block_pos
  have hfloor : r.sharedPrefixBoundary / c.block * c.block =
      start r t + (r.sharedPrefixBoundary - start r t) / c.block * c.block :=
    floor_eq c.block_pos (Nat.dvd_add hdvd dvd_floor) (by omega) (by omega)
  rw [junctionStop_of_in h h', junctionFloor, hfloor]

/-- From a start inside a block it is off the grid. -/
theorem junctionStop_astray (hs : start r t % c.block ≠ 0) (h : start r t < junctionStop c r t) :
    ¬ c.block ∣ junctionStop c r t ∧ start r t + c.block ≤ junctionStop c r t := by
  obtain ⟨hin, hin'⟩ := in_of_junctionStop h
  rw [junctionStop_of_in hin hin'] at h ⊢
  constructor
  · rw [Nat.dvd_add_left dvd_floor]
    exact fun hdvd => hs (Nat.mod_eq_zero_of_dvd hdvd)
  · exact Nat.add_le_add_left (Nat.le_of_dvd (by omega) dvd_floor) _

theorem junctionStop_bounds (h : start r t < junctionStop c r t) :
    junctionStop c r t ≤ r.sharedPrefixBoundary ∧
    r.sharedPrefixBoundary < junctionStop c r t + c.block := by
  obtain ⟨hin, hin'⟩ := in_of_junctionStop h
  have h1 := floor_le (a := r.sharedPrefixBoundary - start r t) (b := c.block)
  have h2 := lt_floor_add (a := r.sharedPrefixBoundary - start r t) c.block_pos
  rw [junctionStop_of_in hin hin']
  omega

/-- No multiple of the block size lies strictly between the junction's floor and its stop. -/
theorem between {m : Nat} (hm : c.block ∣ m) (h : start r t < junctionStop c r t)
    (hlt : junctionStop c r t < m) :
    junctionFloor c r ≤ m := by
  have hb := junctionStop_bounds h
  have h1 := floor_le (a := r.sharedPrefixBoundary) (b := c.block)
  have h2 := lt_floor_add (a := r.sharedPrefixBoundary) c.block_pos
  by_contra hmp
  have := add_le_of_dvd hm (dvd_floor : c.block ∣ junctionFloor c r) (not_le.mp hmp)
  omega

/-- An end among the other stops is on the grid or the tail. -/
theorem dvd_or_tail {s : Nat} (h : s ∈ otherStops c r t) : c.block ∣ s ∨ s = tailStop c r t := by
  simp only [otherStops, List.mem_cons, List.not_mem_nil, or_false] at h
  rcases h with rfl | rfl | rfl
  · exact Or.inl dvd_nextStop
  · exact Or.inl dvd_lastStop
  · exact Or.inr rfl

theorem mem_stops {s : Nat} : s ∈ stops c r t ↔ s ∈ otherStops c r t ∨ s = junctionStop c r t := by
  rw [stops, List.mem_append, List.mem_singleton]

/-- **What makes a plan meet the claims**: it keeps the floor or ends before it, and the junction's
stop ends it only on the grid. -/
theorem meets_of {stopAt : Nat} {exports : List Nat} (hle : stopAt ≤ chunkEnd c r t)
    (hat : stopAt < chunkEnd c r t → stopAt ∈ stops c r t)
    (hkeep : start r t < r.sharedPrefixBoundary →
      r.sharedPrefixBoundary < start r t + t.numNewTokens →
      start r t < junctionFloor c r → stopAt ≤ junctionFloor c r ∨ junctionFloor c r ∈ exports)
    (hjun : start r t < stopAt → stopAt = junctionStop c r t →
      stopAt ∈ otherStops c r t ∨ (c.block ∣ stopAt ∧ junctionFloor c r ≤ stopAt))
      (hafter : start r t < stopAt) :
    Meets c r t stopAt exports := by
  constructor
  · intro hj hj' hp
    rcases hkeep hj hj' hp with h | h
    · rcases h.lt_or_eq with h | h
      · have hend := h.trans_le (junctionFloor_le_end hj')
        rcases mem_stops.mp (hat hend) with hs | hs
        · exact Or.inr (Or.inr ⟨h, hs⟩)
        · rcases hjun hafter hs with hs | hs
          · exact Or.inr (Or.inr ⟨h, hs⟩)
          · exact absurd h hs.2.not_gt
      · exact Or.inl h
    · exact Or.inr (Or.inl h)
  · intro _ _ hoff
    have hother : stopAt ∈ otherStops c r t → stopAt = tailStop c r t := fun hs =>
      (dvd_or_tail hs).resolve_left fun hdvd => hoff (Nat.mod_eq_zero_of_dvd hdvd)
    rcases hle.lt_or_eq with h | h
    · rcases mem_stops.mp (hat h) with hs | hs
      · exact Or.inr (Or.inl (hother hs))
      · rcases hjun hafter hs with hs | hs
        · exact Or.inr (Or.inl (hother hs))
        · exact absurd (Nat.mod_eq_zero_of_dvd hs.1) hoff
    · rcases chunkEnd_cases (c := c) (r := r) (t := t) with he | he
      · exact Or.inr (Or.inr (h.trans he))
      · exact absurd (Nat.mod_eq_zero_of_dvd (h.trans he ▸ dvd_floor)) hoff

/-- A chunk that starts on a block boundary, or ends at the next one, meets the claims; so does one
whose junction stop is not inside it. -/
theorem meets_of_not_astray (hlt : start r t < chunkEnd c r t) (h : ¬ Astray c r t) :
    Meets c r t (chunkPlan c r t).1 (chunkPlan c r t).2 := by
  have hc := chunkPlan_covers hlt
  have hkeep : ∀ s ∈ stops c r t, start r t < s → (chunkPlan c r t).1 ≤ s ∨
    s ∈ (chunkPlan c r t).2 :=
    fun s hs hs' => (le_or_gt _ _).imp id (hc.covers s hs hs')
  have hcut : start r t < r.sharedPrefixBoundary →
    r.sharedPrefixBoundary < start r t + t.numNewTokens →
      ¬ (start r t < r.sharedPrefixBoundary ∧ r.sharedPrefixBoundary < chunkEnd c r t) →
      (chunkPlan c r t).1 ≤ junctionFloor c r := by
    intro hj hj' hin
    rw [junctionFloor_eq_end hj' (not_lt.mp fun hlt => hin ⟨hj, hlt⟩)]
    exact hc.le_stop
  by_cases hs : start r t % c.block = 0
  · -- the junction's stop is its floor
    refine meets_of hc.le_stop hc.at_stop ?_ ?_ hc.after
    · intro hj hj' hp
      by_cases hin : start r t < r.sharedPrefixBoundary ∧ r.sharedPrefixBoundary < chunkEnd c r t
      · exact hkeep _ (mem_stops.mpr (Or.inr (junctionStop_aligned hs hin.1 hin.2).symm)) hp
      · exact Or.inl (hcut hj hj' hin)
    · intro hafter heq
      obtain ⟨hin, hin'⟩ := in_of_junctionStop (heq ▸ hafter)
      rw [junctionStop_aligned hs hin hin'] at heq
      exact Or.inr ⟨heq ▸ dvd_floor, heq.ge⟩
  cases hrb : requestBoundary c r t with
  | none =>
    -- the chunk ends at the next block boundary, before any junction
    have hnext : nextStop c r t = (start r t / c.block + 1) * c.block := if_pos ⟨hs, hrb⟩
    have hnext' : start r t < nextStop c r t ∧ nextStop c r t < start r t + c.block := by
      have h1 := lt_floor_add (a := start r t) c.block_pos
      have h2 := floor_le (a := start r t) (b := c.block)
      have h3 : start r t / c.block * c.block ≠ start r t := fun he =>
        hs (Nat.mod_eq_zero_of_dvd (he ▸ dvd_floor))
      rw [hnext, Nat.succ_mul]
      omega
    have hexp : mayExport c r t = false := by
      have : ¬ (start r t % c.block == 0 || (requestBoundary c r t).isSome) = true :=
        by simp [hs, hrb]
      unfold mayExport
      simp only [Bool.not_eq_true] at this
      simp [this]
    have hend : (chunkPlan c r t).1 ≤ nextStop c r t := by
      rcases hkeep (nextStop c r t) (mem_stops.mpr (Or.inl List.mem_cons_self))
        hnext'.1 with hle | hmem
      · exact hle
      · rw [chunkPlan_of_not_mayExport hexp] at hmem
        exact absurd hmem List.not_mem_nil
    refine meets_of hc.le_stop hc.at_stop ?_ ?_ hc.after
    · intro _ _ hp
      have h1 : start r t / c.block * c.block < junctionFloor c r := floor_le.trans_lt hp
      have h2 := add_le_of_dvd (dvd_floor (a := start r t))
        (dvd_floor : c.block ∣ junctionFloor c r) h1
      rw [hnext, Nat.succ_mul] at hend
      exact Or.inl (hend.trans h2)
    · intro hafter heq
      have := (junctionStop_astray hs (heq ▸ hafter)).2
      omega
  | some b =>
    have hin : ¬ (start r t < r.sharedPrefixBoundary ∧ r.sharedPrefixBoundary < chunkEnd c r t ∧
        start r t < junctionFloor c r) := fun hin => h ⟨by rw [hrb]; rfl, hs, hin⟩
    refine meets_of hc.le_stop hc.at_stop ?_ ?_ hc.after
    · intro hj hj' hp
      exact Or.inl (hcut hj hj' fun hin' => hin ⟨hin'.1, hin'.2, hp⟩)
    · -- a stop one block on has the floor behind the start
      intro hafter heq
      have hjs : start r t < junctionStop c r t := heq ▸ hafter
      obtain ⟨hj, hj'⟩ := in_of_junctionStop hjs
      have h1 := (junctionStop_astray hs hjs).2
      have h2 := junctionStop_bounds hjs
      have h3 := lt_floor_add (a := r.sharedPrefixBoundary) c.block_pos
      have h4 : junctionFloor c r = r.sharedPrefixBoundary / c.block * c.block := rfl
      exact absurd ⟨hj, hj', by omega⟩ hin

theorem mem_inside_stops {s : Nat} (h : start r t < junctionStop c r t) :
    s ∈ inside (start r t) (chunkEnd c r t) (stops c r t) ↔
      s ∈ inside (start r t) (chunkEnd c r t) (otherStops c r t) ∨ s = junctionStop c r t := by
  have hend := (junctionStop_bounds h).1.trans_lt (in_of_junctionStop h).2
  rw [mem_inside, mem_inside, mem_stops, or_and_right]
  exact or_congr_right ⟨And.left, fun he => ⟨he, he ▸ h, he ▸ hend⟩⟩

/-- Where the replay boundary is a stop, and where it is not. -/
theorem tail_cases {tokens stop : Nat} (h : requestBoundary c r t = some (tokens, stop)) :
    (tailStop c r t = tokens ∨ (tailStop c r t = 0 ∧ tokens ≤ lastStop c r t)) ∧
      0 < tokens ∧ r.numTokens = r.numPromptTokens := by
  have hreq := h
  unfold requestBoundary at h
  dsimp only at h
  split_ifs at h with h1 h2 h3 h4
  all_goals
    obtain ⟨htok, hstop⟩ := Prod.mk.inj (Option.some.inj h)
    push Not at h2
    have hpos : 0 < tokens := htok ▸ Nat.pos_of_ne_zero h3
    have hprompt : tokens < r.numPromptTokens := by
      have h5 := floor_le (a := r.numPromptTokens - 1) (b := c.hashBlockSize)
      rw [← htok] at hpos ⊢
      unfold ReplayBoundary.replayBoundary at hpos ⊢
      omega
    refine ⟨?_, hpos, h2.2.2.2.1⟩
    have htail : tailBoundary c r t = stop := by rw [tailBoundary, hreq]
  · -- a stop of its own
    rw [htok] at hstop h4
    subst hstop
    left
    have hlast : lastStop c r t ≤ lastCachePosition c r t := by
      unfold lastStop
      rw [hreq]
      dsimp only
      split_ifs
      · exact Nat.zero_le _
      · exact le_rfl
    rw [tailStop, htail, if_pos ⟨hlast.trans_lt h4.1, hprompt⟩]
  · subst hstop
    right
    have hlast : lastStop c r t = lastCachePosition c r t := by
      unfold lastStop
      rw [hreq]
      exact if_neg fun hc => hc.1 rfl
    rw [htok] at h4
    refine ⟨by rw [tailStop, htail, if_neg fun hc => absurd hc.1 (Nat.not_lt_zero _)], ?_⟩
    rw [hlast]
    by_contra hlt
    exact h4 ⟨not_le.mp hlt, hprompt⟩

/-- Where the other stops alone decide. -/
theorem meets_iff_of_walk_eq (hA : Astray c r t)
    (hw : walk c r t (stops c r t) = walk c r t (otherStops c r t)) :
    Meets c r t (chunkPlan c r t).1 (chunkPlan c r t).2 ↔
      (chunkPlan c r t).1 ≤ junctionFloor c r ∨ junctionFloor c r ∈ (chunkPlan c r t).2 := by
  obtain ⟨-, -, hj, hj', hp⟩ := hA
  have hlt : start r t < chunkEnd c r t := hj.trans hj'
  have hc := chunkPlan_covers hlt
  have hother : (chunkPlan c r t).1 < chunkEnd c r t → (chunkPlan c r t).1 ∈ otherStops c r t := by
    unfold chunkPlan
    rw [hw]
    exact (ReplayBoundary.settle_covers (walk_covers hlt)).at_stop
  constructor
  · intro h
    rcases h.junction hj (hj'.trans_le chunkEnd_le) hp with h | h | h
    · exact Or.inl h.le
    · exact Or.inr h
    · exact Or.inl h.1.le
  · intro h
    refine meets_of hc.le_stop hc.at_stop (fun _ _ _ => h) (fun hafter heq =>
      Or.inl (hother ?_)) hc.after
    have hjs : start r t < junctionStop c r t := heq ▸ hafter
    rw [heq]
    exact (junctionStop_bounds hjs).1.trans_lt hj'

/-- A junction stop that is not inside the chunk, or is another stop, changes nothing. -/
theorem walk_same (h : start r t < junctionStop c r t → junctionStop c r t ∈ otherStops c r t) :
    walk c r t (stops c r t) = walk c r t (otherStops c r t) := by
  have hin : inside (start r t) (chunkEnd c r t) (stops c r t) =
      inside (start r t) (chunkEnd c r t) (otherStops c r t) := by
    refine List.Pairwise.eq_of_mem_iff (inside_sorted _ _) (inside_sorted _ _) fun s => ?_
    rw [mem_inside, mem_inside, mem_stops]
    refine ⟨fun ⟨hs, hlt⟩ => ⟨hs.elim id fun he => ?_, hlt⟩, fun ⟨hs, hlt⟩ => ⟨Or.inl hs, hlt⟩⟩
    rw [he] at hlt ⊢
    exact h hlt.1
  unfold walk
  rw [hin]

/-- A junction stop that the walk passes as the replay boundary loses the junction's floor: the
boundary is then no later than the last cacheable position. -/
theorem not_meets_of_boundary (hA : Astray c r t) {tokens stop : Nat}
    (hrb : requestBoundary c r t = some (tokens, stop)) (hj : start r t < junctionStop c r t)
    (htok : junctionStop c r t = tokens) (htail : tailStop c r t = 0)
    (hlast : tokens ≤ lastStop c r t) :
    ¬ Meets c r t (chunkPlan c r t).1 (chunkPlan c r t).2 := by
  obtain ⟨-, hs, hin, hin', hp⟩ := hA
  have hlt : start r t < chunkEnd c r t := hin.trans hin'
  have hc := chunkPlan_covers hlt
  have hb := junctionStop_bounds hj
  have hoff := (junctionStop_astray hs hj).1
  have hfloor : ∀ {m}, c.block ∣ m → junctionStop c r t < m → junctionFloor c r ≤ m :=
    fun hm => between hm hj
  have hlast' : junctionStop c r t < lastStop c r t := by
    refine lt_of_le_of_ne (htok ▸ hlast) fun he => hoff (he ▸ dvd_lastStop)
  -- a stop on the grid behind the start is the last cacheable position
  have hgrid : ∀ s ∈ stops c r t, c.block ∣ s → start r t < s → s = lastStop c r t := by
    intro s hmem hdvd hs'
    have hnext : nextStop c r t = 0 := if_neg fun hc => by rw [hrb] at hc; cases hc.2
    rcases mem_stops.mp hmem with hmem | rfl
    · simp only [otherStops, List.mem_cons, List.not_mem_nil, or_false] at hmem
      rcases hmem with rfl | rfl | rfl
      · omega
      · rfl
      · omega
    · exact absurd hdvd hoff
  have hdvdP : c.block ∣ junctionFloor c r := dvd_floor
  have hwalk := @walk_covers (ReplayBoundary.exportable (start r t) c.block (boundaryTokens c r t))
    (exportLimit c r t) _ _
    (stops c r t) hlt
  have hcols := @ReplayBoundary.settle_columns _ _ c.block (boundaryTokens c r t) _ _ _ c.block_pos
    hwalk (fun p hp => by
      have := exportable_of_mem hp
      simp only [ReplayBoundary.exportable, Bool.and_eq_true, Bool.or_eq_true, beq_iff_eq] at this
      exact this.1)
  change ((chunkPlan c r t).2.map (column c.block)).Nodup ∧
    column c.block (chunkPlan c r t).1 ∉ (chunkPlan c r t).2.map (column c.block) at hcols
  have hjmem : junctionStop c r t < (chunkPlan c r t).1 →
    junctionStop c r t ∈ (chunkPlan c r t).2 :=
    hc.covers _ (mem_stops.mpr (Or.inr rfl)) hj
  -- the junction's stop shares the column of its floor, when that comes behind it
  have hcol : junctionStop c r t < junctionFloor c r →
      column c.block (junctionStop c r t) = column c.block (junctionFloor c r) := by
    intro hlt'
    have hle : junctionFloor c r < junctionStop c r t + c.block := floor_le.trans_lt hb.2
    obtain ⟨k, hk⟩ := hdvdP
    have hpos := c.block_pos
    unfold column cdiv
    rw [hk] at hlt' hle ⊢
    have h1 : (c.block * k + c.block - 1) / c.block = k := by
      rw [show c.block * k + c.block - 1 = c.block * k + (c.block - 1) by
        omega, Nat.mul_add_div hpos, Nat.div_eq_of_lt (by omega), Nat.add_zero]
    have h2 : (junctionStop c r t + c.block - 1) / c.block = k := by
      refine Nat.div_eq_of_lt_le ?_ ?_
      · rw [Nat.mul_comm]
        omega
      · rw [Nat.succ_mul, Nat.mul_comm]
        omega
    rw [h1, h2]
  intro h
  rcases h.junction hin (hin'.trans_le chunkEnd_le) hp with hE | hX | ⟨hE, hmem⟩
  · -- the chunk ends at the floor
    have hPend : junctionFloor c r < chunkEnd c r t := floor_le.trans_lt hin'
    have hPlast := hgrid _ (hE ▸ hc.at_stop (hE ▸ hPend)) hdvdP hp
    have hjP : junctionStop c r t < junctionFloor c r := hPlast ▸ hlast'
    refine hcols.2 (List.mem_map.mpr ⟨_, hjmem (hE ▸ hjP), ?_⟩)
    rw [hE, hcol hjP]
  · have hPlast := hgrid _ (hc.from_stops _ hX) hdvdP hp
    have hjP : junctionStop c r t < junctionFloor c r := hPlast ▸ hlast'
    have hj' := hjmem (hjP.trans (hc.inside _ hX).2)
    exact hjP.ne (List.inj_on_of_nodup_map hcols.1 hj' hX (hcol hjP))
  · -- the chunk ends at the last cacheable position, which is not before the floor
    have hdvd : c.block ∣ (chunkPlan c r t).1 := by
      refine (dvd_or_tail hmem).resolve_right fun he => ?_
      have := hc.after
      omega
    have hElast := hgrid _ (mem_stops.mpr (Or.inl hmem)) hdvd hc.after
    exact absurd hE (not_lt.mpr (hfloor hdvd (hElast ▸ hlast')))

/-- Behind the replay boundary there is no other stop, unless it is on the grid itself. -/
theorem boundary_last {tokens stop : Nat} (hrb : requestBoundary c r t = some (tokens, stop))
    (hmem : tokens ∈ otherStops c r t) :
    c.block ∣ tokens ∨ (tailStop c r t = tokens ∧ ∀ q ∈ otherStops c r t, q ≤ tokens) := by
  obtain ⟨htail, hpos, -⟩ := tail_cases hrb
  have hnext : nextStop c r t = 0 := if_neg fun hc => by rw [hrb] at hc; cases hc.2
  rcases dvd_or_tail hmem with hdvd | he
  · exact Or.inl hdvd
  · refine Or.inr ⟨he.symm, fun q hq => ?_⟩
    have hlt : lastStop c r t < tailStop c r t := by
      unfold tailStop at he ⊢
      split_ifs at he ⊢ with hc
      · exact hc.1
      · omega
    simp only [otherStops, List.mem_cons, List.not_mem_nil, or_false] at hq
    rcases hq with rfl | rfl | rfl <;> omega

/-- **Where the junction's stop comes first**: it ends the chunk off the grid, unless the replay
boundary was exported before it into the column of its block and ends the chunk instead. -/
theorem meets_iff_of_before (hA : Astray c r t) {tokens stop : Nat}
    (hrb : requestBoundary c r t = some (tokens, stop)) (hj : start r t < junctionStop c r t)
    (hjw : junctionStop c r t < (walk c r t (otherStops c r t)).1)
    (hne : junctionStop c r t ≠ tailStop c r t) (htok : junctionStop c r t ≠ tokens) :
    Meets c r t (chunkPlan c r t).1 (chunkPlan c r t).2 ↔
      tailStop c r t ∈ (walk c r t (otherStops c r t)).2 ∧ tailStop c r t < junctionStop c r t ∧
        column c.block (tailStop c r t) = column c.block (junctionStop c r t) ∧
        (tailStop c r t < junctionFloor c r ∨
        junctionFloor c r ∈ (walk c r t (otherStops c r t)).2) := by
  obtain ⟨-, hs, hin, hin', hp⟩ := hA
  have hlt : start r t < chunkEnd c r t := hin.trans hin'
  have hb := junctionStop_bounds hj
  have hoff := (junctionStop_astray hs hj).1
  obtain ⟨htail, hpos, hprompt⟩ := tail_cases hrb
  have htokens : boundaryTokens c r t = tokens := by
    rw [boundaryTokens, hrb]
    rfl
  have hw : Covers (start r t) (chunkEnd c r t) (otherStops c r t) (walk c r t (otherStops c r t)).1
      (walk c r t (otherStops c r t)).2 := walk_covers hlt
  have hstops : walk c r t (stops c r t) = (junctionStop c r t,
      (walk c r t (otherStops c r t)).2.filter (· < junctionStop c r t)) := by
    refine walk_before (fun s => mem_inside_stops hj) hlt hjw ?_
    have h1 : (junctionStop c r t % c.block == 0) = false :=
      beq_eq_false_iff_ne.mpr fun he => hoff (Nat.dvd_of_mod_eq_zero he)
    rw [htokens, ReplayBoundary.exportable, h1, beq_eq_false_iff_ne.mpr htok]
    rfl
  have hgrid : ∀ s ∈ (walk c r t (otherStops c r t)).2, c.block ∣ s → ∀ q, s < q →
    column c.block s < column c.block q :=
    fun s hs hdvd q hlt => column_lt_of_dvd c.block_pos (by have := (hw.inside s hs).1; omega)
      (Nat.mod_eq_zero_of_dvd hdvd) hlt
  have hplan : chunkPlan c r t = ReplayBoundary.settle c.block tokens (junctionStop c r t,
      (walk c r t (otherStops c r t)).2.filter (· < junctionStop c r t)) := by
    rw [chunkPlan, hstops, htokens]
  generalize walk c r t (otherStops c r t) = w at hw hplan hgrid
  have hfilter : ∀ {s}, s ∈ w.2.filter (· < junctionStop c r t) ↔ s ∈ w.2 ∧
    s < junctionStop c r t := by
    intro s
    rw [List.mem_filter, decide_eq_true_eq]
  have htail' : tailStop c r t ∈ w.2 → tailStop c r t = tokens := by
    intro hmem
    refine htail.resolve_right fun h0 => ?_
    have := (hw.inside _ hmem).1
    omega
  -- the boundary's column is not that of another export
  have hcount : tokens ∈ w.2 →
      ¬ 1 < ((w.2.filter (· < junctionStop c r t)).map (column c.block)).count
      (column c.block tokens) := by
    intro hmem
    refine Nat.not_lt.mpr (List.nodup_iff_count_le_one.mp ?_ _)
    refine List.Pairwise.map _ (fun _ _ h => h) (List.Pairwise.imp_of_mem ?_ (hw.sorted.filter _))
    intro p q hp' hq' hlt'
    have hpw := (hfilter.mp hp').1
    have hqw := (hfilter.mp hq').1
    rcases dvd_or_tail (hw.from_stops p hpw) with hdvd | he
    · exact (hgrid p hpw hdvd q hlt').ne
    · have hpt : p = tokens := he.trans (htail' (he ▸ hpw))
      rcases boundary_last hrb (hw.from_stops tokens hmem) with hdvd | ⟨-, hmax⟩
      · rw [hpt] at hlt' ⊢
        exact (hgrid tokens hmem hdvd q hlt').ne
      · exact absurd hlt' (Nat.not_lt.mpr (hpt ▸ hmax q (hw.from_stops q hqw)))
  have hclash : (tokens ∈ w.2.filter (· < junctionStop c r t) ∧
        (column c.block tokens = column c.block (junctionStop c r t) ∨
          1 < ((w.2.filter (· < junctionStop c r t)).map (column c.block)).count
          (column c.block tokens))) ↔
      tailStop c r t ∈ w.2 ∧ tailStop c r t < junctionStop c r t ∧
        column c.block (tailStop c r t) = column c.block (junctionStop c r t) := by
    rw [hfilter]
    constructor
    · rintro ⟨⟨hmem, hltj⟩, hcol⟩
      have hcol := hcol.resolve_right (hcount hmem)
      rcases boundary_last hrb (hw.from_stops tokens hmem) with hdvd | ⟨he, -⟩
      · exact absurd hcol (hgrid tokens hmem hdvd _ hltj).ne
      · rw [he]
        exact ⟨hmem, hltj, hcol⟩
    · rintro ⟨hmem, hltj, hcol⟩
      rw [← htail' hmem]
      exact ⟨⟨hmem, hltj⟩, Or.inl hcol⟩
  rw [hplan]
  unfold ReplayBoundary.settle
  dsimp only
  by_cases hc : tailStop c r t ∈ w.2 ∧ tailStop c r t < junctionStop c r t ∧
      column c.block (tailStop c r t) = column c.block (junctionStop c r t)
  · -- the chunk ends at the boundary
    rw [if_pos (hclash.mpr hc)]
    obtain ⟨hmem, hltj, hcol⟩ := hc
    have heq := htail' hmem
    have hnot : ¬ c.block ∣ tailStop c r t := fun hdvd => (hgrid _ hmem hdvd _ hltj).ne hcol
    have hneP : tailStop c r t ≠ junctionFloor c r := fun he => hnot (he ▸ dvd_floor)
    constructor
    · intro h
      refine ⟨hmem, hltj, hcol, ?_⟩
      rcases h.junction hin (hin'.trans_le chunkEnd_le) hp with h | h | h
      · exact absurd (heq.trans h) hneP
      · exact Or.inr (hfilter.mp (List.mem_of_mem_filter h)).1
      · exact Or.inl (heq ▸ h.1)
    · rintro ⟨-, -, -, h⟩
      have hbound := hw.inside _ hmem
      rw [heq] at hbound hltj h hneP hmem hnot
      refine meets_of ((hltj.trans_le hb.1).trans hin').le
        (fun _ => mem_stops.mpr (Or.inl (hw.from_stops _ hmem))) (fun _ _ _ => ?_)
        (fun _ he => absurd he hltj.ne) hbound.1
      rcases h with h | h
      · exact Or.inl h.le
      · right
        have hltT : junctionFloor c r < tokens := by
          rcases boundary_last hrb (hw.from_stops tokens hmem) with hdvd | ⟨-, hmax⟩
          · exact absurd hdvd hnot
          · exact lt_of_le_of_ne (hmax _ (hw.from_stops _ h)) hneP.symm
        exact List.mem_filter.mpr ⟨hfilter.mpr ⟨h, hltT.trans hltj⟩, decide_eq_true hltT⟩
  · rw [if_neg fun h => hc (hclash.mp h)]
    refine ⟨fun h => ?_, fun h => absurd ⟨h.1, h.2.1, h.2.2.1⟩ hc⟩
    have hin'' : junctionStop c r t < r.numPromptTokens :=
      hb.1.trans_lt (hprompt ▸ r.junction_lt)
    rcases h.ends hj hin'' (fun he => hoff (Nat.dvd_of_mod_eq_zero he)) with he | he | he
    · rw [hrb] at he
      exact absurd (Option.some.inj he).symm htok
    · exact absurd he hne
    · have := chunkEnd_le (c := c) (r := r) (t := t)
      simp only at he
      omega

/-- An astray chunk meets the claims exactly when the walk over the other stops spares it. -/
theorem meets_iff_sparedByWalk (hA : Astray c r t) :
    Meets c r t (chunkPlan c r t).1 (chunkPlan c r t).2 ↔ SparedByWalk c r t := by
  obtain ⟨⟨tokens, stop⟩, hrb⟩ := Option.isSome_iff_exists.mp hA.1
  have hs := hA.2.1
  have hlt : start r t < chunkEnd c r t := hA.2.2.1.trans hA.2.2.2.1
  unfold SparedByWalk
  dsimp only
  split_ifs with hcond
  · obtain ⟨hj, hjw, hne⟩ := hcond
    by_cases htok : junctionStop c r t = tokens
    · -- the boundary itself, which is no stop here
      have htail := (tail_cases hrb).1.resolve_left fun he => hne (htok.trans he.symm)
      refine ⟨fun h => absurd h (not_meets_of_boundary hA hrb hj htok htail.1 htail.2), fun h => ?_⟩
      have hw : Covers (start r t) (chunkEnd c r t) (otherStops c r t)
        (walk c r t (otherStops c r t)).1
          (walk c r t (otherStops c r t)).2 := walk_covers hlt
      have := (hw.inside _ h.1).1
      omega
    · exact meets_iff_of_before hA hrb hj hjw hne htok
  · have hwalk : walk c r t (stops c r t) = walk c r t (otherStops c r t) := by
      by_cases hsame : start r t < junctionStop c r t → junctionStop c r t ∈ otherStops c r t
      · exact walk_same hsame
      · push Not at hsame
        obtain ⟨hj, hnot⟩ := hsame
        have hne : junctionStop c r t ≠ tailStop c r t :=
          fun he => hnot (by rw [he]; simp [otherStops])
        have hend := (junctionStop_bounds hj).1.trans_lt (in_of_junctionStop hj).2
        have hw : Covers (start r t) (chunkEnd c r t) (otherStops c r t)
          (walk c r t (otherStops c r t)).1
            (walk c r t (otherStops c r t)).2 := walk_covers hlt
        have hle : (walk c r t (otherStops c r t)).1 ≤ junctionStop c r t :=
          not_lt.mp fun h => hcond ⟨hj, h, hne⟩
        have hlt' : (walk c r t (otherStops c r t)).1 < junctionStop c r t :=
          lt_of_le_of_ne hle fun he => hnot (he ▸ hw.at_stop (he ▸ hend))
        exact walk_after (fun s => mem_inside_stops hj) hlt hlt' hend
    rw [meets_iff_of_walk_eq hA hwalk, chunkPlan, hwalk]

/-! ## The walk over the other stops

Where the replay boundary applies, the next block boundary is no stop, and two other stops can lie
inside the chunk: the last cacheable position, and the tail behind it. The walk ends at the first,
ends at the second, passes the second, or meets none. For each of the four ends `SparedByWalk` is
brought to a condition on positions, which is the part of `Spared` for that case.
-/

section Others

variable {tokens stop : Nat}

/-- The tail comes behind the last cacheable position. -/
theorem last_lt_tail (h : tailStop c r t ≠ 0) : lastStop c r t < tailStop c r t := by
  unfold tailStop at h ⊢
  split_ifs at h ⊢ with hc
  · exact hc.1
  · exact absurd rfl h

/-- Of the other stops inside the chunk, the last cacheable position comes first. -/
theorem inside_others (hrb : (requestBoundary c r t).isSome) :
    inside (start r t) (chunkEnd c r t) (otherStops c r t) =
      (if Within c r t (lastStop c r t) then [lastStop c r t] else []) ++
        if Within c r t (tailStop c r t) then [tailStop c r t] else [] := by
  have hnext : nextStop c r t = 0 := if_neg fun hc => by
    rw [hc.2] at hrb
    cases hrb
  refine List.Pairwise.eq_of_mem_iff (inside_sorted _ _) ?_ fun s => ?_
  · split_ifs with hl ht
    · have hne : tailStop c r t ≠ 0 := fun he => by
        have := ht.1
        omega
      exact List.pairwise_pair.mpr (last_lt_tail hne)
    · exact List.pairwise_singleton _ _
    · exact List.pairwise_singleton _ _
    · exact List.Pairwise.nil
  · have hzero : ¬ (s = nextStop c r t ∧ Within c r t s) := by
      rintro ⟨rfl, hs⟩
      have := hs.1
      omega
    rw [mem_inside, otherStops, List.mem_append]
    simp only [List.mem_cons, List.not_mem_nil, or_false]
    constructor
    · rintro ⟨rfl | rfl | rfl, hs⟩
      · exact absurd ⟨rfl, hs⟩ hzero
      · exact Or.inl ((if_pos hs).symm ▸ List.mem_singleton_self _)
      · exact Or.inr ((if_pos hs).symm ▸ List.mem_singleton_self _)
    · rintro (h | h)
      · split_ifs at h with hs
        · rw [List.mem_singleton.mp h]
          exact ⟨Or.inr (Or.inl rfl), hs⟩
        · cases h
      · split_ifs at h with hs
        · rw [List.mem_singleton.mp h]
          exact ⟨Or.inr (Or.inr rfl), hs⟩
        · cases h

/-- The last cacheable position ends the walk. -/
theorem walk_of_lastEnds (hrb : (requestBoundary c r t).isSome) (h : LastEnds c r t) :
    walk c r t (otherStops c r t) = (lastStop c r t, []) := by
  unfold walk
  rw [inside_others hrb, if_pos h.1, List.singleton_append, walkStops]
  exact if_neg fun he => h.2 ⟨h.1, he.1, by simpa using he.2⟩

/-- What the chunk exports before the tail. -/
def beforeTail (c : Config) (r : Request Rid) (t : Offer) : List Nat :=
  if LastExported c r t then [lastStop c r t] else []

theorem mem_beforeTail {s : Nat} :
    s ∈ beforeTail c r t ↔ LastExported c r t ∧ lastStop c r t = s := by
  unfold beforeTail
  split_ifs with h
  · rw [List.mem_singleton, eq_comm]
    exact ⟨fun he => ⟨h, he⟩, And.right⟩
  · exact ⟨nofun, fun hc => absurd hc.1 h⟩

/-- Else the walk goes on to the tail. -/
theorem walk_of_not_lastEnds (hrb : (requestBoundary c r t).isSome) (h : ¬ LastEnds c r t) :
    (¬ Within c r t (tailStop c r t) →
      walk c r t (otherStops c r t) = (chunkEnd c r t, beforeTail c r t)) ∧
    (Within c r t (tailStop c r t) → ¬ TailExported c r t →
      walk c r t (otherStops c r t) = (tailStop c r t, beforeTail c r t)) ∧
    (Within c r t (tailStop c r t) → TailExported c r t →
      walk c r t (otherStops c r t) = (chunkEnd c r t, beforeTail c r t ++ [tailStop c r t])) := by
  unfold walk beforeTail
  rw [inside_others hrb]
  by_cases hl : Within c r t (lastStop c r t)
  · have hexp : LastExported c r t := not_not.mp fun hn => h ⟨hl, hn⟩
    have hpass : ReplayBoundary.exportable (start r t) c.block (boundaryTokens c r t)
        (lastStop c r t) ∧ ((0 : Nat) : Int) < exportLimit c r t := ⟨hexp.2.1, hexp.2.2⟩
    simp only [if_pos hl, if_pos hexp, List.singleton_append, walkStops, if_pos hpass]
    refine ⟨fun ht => ?_, fun ht hx => ?_, fun ht hx => ?_⟩
    · rw [if_neg ht]
      rfl
    · rw [if_pos ht, walkStops, if_neg fun hc => hx ⟨hc.1, hexp.2.2, fun _ => by simpa using hc.2⟩]
    · rw [if_pos ht, walkStops, if_pos ⟨hx.1, by simpa using hx.2.2 hexp⟩]
      rfl
  · have hexp : ¬ LastExported c r t := fun hx => hl hx.1
    simp only [if_neg hl, if_neg hexp, List.nil_append]
    refine ⟨fun ht => ?_, fun ht hx => ?_, fun ht hx => ?_⟩
    · rw [if_neg ht]
      rfl
    · rw [if_pos ht, walkStops, if_neg fun hc => hx ⟨hc.1, by simpa using hc.2,
        fun hx' => absurd hx' hexp⟩]
    · rw [if_pos ht, walkStops, if_pos ⟨hx.1, by simpa using hx.2.1⟩]
      rfl

/-- A stop on the grid shares its column with nothing behind it. -/
theorem column_ne {m s : Nat} (hm : c.block ∣ m) (hpos : start r t < m) (h : m < s) :
    column c.block m ≠ column c.block s :=
  (column_lt_of_dvd c.block_pos (Nat.zero_lt_of_lt hpos) (Nat.mod_eq_zero_of_dvd hm) h).ne

theorem length_beforeTail : (beforeTail c r t).length ≤ 1 := by
  unfold beforeTail
  split_ifs <;> simp

/-- An export on the grid gives the boundary's column to nobody else. -/
theorem settle_beforeTail (boundary : Nat) :
    ReplayBoundary.settle c.block boundary (chunkEnd c r t, beforeTail c r t) =
      (chunkEnd c r t, beforeTail c r t) := by
  refine if_neg ?_
  rintro ⟨hmem, hcol | hcount⟩
  · obtain ⟨hx, rfl⟩ := mem_beforeTail.mp hmem
    exact column_ne dvd_lastStop hx.1.1 hx.1.2 hcol
  · have := List.count_le_length (a := column c.block boundary)
      (l := (beforeTail c r t).map (column c.block))
    rw [List.length_map] at this
    have := length_beforeTail (c := c) (r := r) (t := t)
    omega

/-- An exported tail ends the chunk when the chunk's end needs its column. -/
theorem settle_tail (ht : Within c r t (tailStop c r t)) :
    ReplayBoundary.settle c.block (tailStop c r t)
        (chunkEnd c r t, beforeTail c r t ++ [tailStop c r t]) =
      if column c.block (tailStop c r t) = column c.block (chunkEnd c r t) then
        (tailStop c r t, beforeTail c r t)
      else (chunkEnd c r t, beforeTail c r t ++ [tailStop c r t]) := by
  have hlast : ∀ p ∈ beforeTail c r t, start r t < p ∧ c.block ∣ p ∧ p < tailStop c r t := by
    intro p hp
    obtain ⟨hx, rfl⟩ := mem_beforeTail.mp hp
    refine ⟨hx.1.1, dvd_lastStop, last_lt_tail fun he => ?_⟩
    have := ht.1
    omega
  have hcount : ((beforeTail c r t ++ [tailStop c r t]).map (column c.block)).count
      (column c.block (tailStop c r t)) = 1 := by
    rw [List.map_append, List.count_append, List.count_eq_zero.mpr fun hmem => ?_,
      List.map_singleton, List.count_singleton_self, Nat.zero_add]
    obtain ⟨p, hp, hcol⟩ := List.mem_map.mp hmem
    obtain ⟨hpos, hdvd, hlt⟩ := hlast p hp
    exact column_ne hdvd hpos hlt hcol
  have hfilter : (beforeTail c r t ++ [tailStop c r t]).filter (· < tailStop c r t) =
      beforeTail c r t := by
    rw [List.filter_append, List.filter_eq_self.mpr fun p hp => decide_eq_true (hlast p hp).2.2,
      List.filter_singleton, decide_eq_false (lt_irrefl _)]
    exact List.append_nil _
  unfold ReplayBoundary.settle
  dsimp only
  rw [hcount, hfilter]
  simp

/-- The walk that is over at the last cacheable position. -/
theorem sparedByWalk_last (hrb : (requestBoundary c r t).isSome) (hends : LastEnds c r t) :
    SparedByWalk c r t ↔ lastStop c r t ≤ junctionFloor c r ∧
      ¬ (start r t < junctionStop c r t ∧ junctionStop c r t < lastStop c r t) := by
  have hin := hends.1.1
  unfold SparedByWalk
  dsimp only
  rw [walk_of_lastEnds hrb hends, settle_nil]
  simp only [List.not_mem_nil, false_and, or_false]
  split_ifs with hcond
  · exact iff_of_false not_false fun h => h.2 ⟨hcond.1, hcond.2.1⟩
  · refine (and_iff_left fun h => hcond ⟨h.1, h.2, fun he => ?_⟩).symm
    have := last_lt_tail (c := c) (r := r) (t := t) (by omega)
    omega

theorem tail_notMem_beforeTail : tailStop c r t ∉ beforeTail c r t := fun hmem => by
  obtain ⟨hx, he⟩ := mem_beforeTail.mp hmem
  have := hx.1.1
  have := last_lt_tail (c := c) (r := r) (t := t) (by omega)
  omega

theorem tail_eq_boundary (hrb : requestBoundary c r t = some (tokens, stop))
    (ht : Within c r t (tailStop c r t)) : boundaryTokens c r t = tailStop c r t := by
  rw [boundaryTokens, hrb]
  exact ((tail_cases hrb).1.resolve_right fun h => by
    have := ht.1
    omega).symm

section Tail

variable (hrb : requestBoundary c r t = some (tokens, stop)) (hends : ¬ LastEnds c r t)
include hrb hends

/-- The walk that is over at the tail. -/
theorem sparedByWalk_tail (ht : Within c r t (tailStop c r t)) (hx : ¬ TailExported c r t) :
    SparedByWalk c r t ↔
      ¬ (start r t < junctionStop c r t ∧ junctionStop c r t < tailStop c r t) ∧
      (LastExported c r t ∧ lastStop c r t = junctionFloor c r ∨
        tailStop c r t = junctionFloor c r ∨ tailStop c r t < junctionFloor c r) := by
  have hwalk := (walk_of_not_lastEnds (by rw [hrb]; rfl) hends).2.1 ht hx
  unfold SparedByWalk
  dsimp only
  rw [hwalk, tail_eq_boundary hrb ht, ReplayBoundary.settle_of_notMem tail_notMem_beforeTail]
  split_ifs with hcond
  · exact iff_of_false (fun h => tail_notMem_beforeTail h.1) fun h => h.1 ⟨hcond.1, hcond.2.1⟩
  · rw [and_iff_right fun h => hcond ⟨h.1, h.2, h.2.ne⟩, mem_beforeTail, Nat.le_iff_lt_or_eq,
      or_comm, or_comm (a := tailStop c r t < _)]

/-- The walk that passes the tail. -/
theorem sparedByWalk_passed (hA : Astray c r t) (ht : Within c r t (tailStop c r t))
    (hx : TailExported c r t) :
    SparedByWalk c r t ↔
      ¬ (start r t < junctionStop c r t ∧ junctionStop c r t < tailStop c r t) ∧
      (tailStop c r t < junctionStop c r t →
        column c.block (tailStop c r t) = column c.block (junctionStop c r t)) ∧
      (LastExported c r t ∧ lastStop c r t = junctionFloor c r ∨
        tailStop c r t = junctionFloor c r ∨
        tailStop c r t < junctionFloor c r ∧ tailStop c r t < junctionStop c r t) := by
  obtain ⟨-, -, -, hj', hp⟩ := hA
  have hPend : junctionFloor c r < chunkEnd c r t := floor_le.trans_lt hj'
  have hwalk := (walk_of_not_lastEnds (by rw [hrb]; rfl) hends).2.2 ht hx
  unfold SparedByWalk
  dsimp only
  rw [hwalk, tail_eq_boundary hrb ht, settle_tail ht]
  simp only [List.mem_append, List.mem_singleton, mem_beforeTail, or_true, true_and]
  by_cases hcond : start r t < junctionStop c r t ∧ junctionStop c r t < chunkEnd c r t ∧
      junctionStop c r t ≠ tailStop c r t
  · rw [if_pos hcond]
    rcases lt_or_gt_of_ne hcond.2.2 with hlt | hlt
    · exact iff_of_false (fun h => hlt.not_gt h.1) fun h => h.1 ⟨hcond.1, hlt⟩
    · rw [and_iff_right hlt, and_iff_right fun h => h.2.not_gt hlt, forall_prop_of_true hlt,
        and_iff_left hlt, or_comm, or_assoc, eq_comm (a := junctionFloor c r)]
  · -- the junction's stop is no stop of its own
    have hback : ¬ tailStop c r t < junctionStop c r t ∧
        ¬ (start r t < junctionStop c r t ∧ junctionStop c r t < tailStop c r t) := by
      have := ht.1
      by_cases hlt : start r t < junctionStop c r t
      · have := (junctionStop_bounds hlt).1
        omega
      · omega
    rw [if_neg hcond, and_iff_right hback.2,
      and_iff_right fun h : tailStop c r t < junctionStop c r t => absurd h hback.1]
    simp only [hback.1, and_false, or_false]
    split_ifs with hcol
    · -- the chunk ends at the tail, which is not before the floor
      have hle : ¬ tailStop c r t < junctionFloor c r := fun hlt => by
        have h1 : column c.block (tailStop c r t) ≤ column c.block (junctionFloor c r) :=
          Nat.sub_le_sub_right (cdiv_mono hlt.le) 1
        have h2 := column_lt_of_dvd c.block_pos (Nat.zero_lt_of_lt hp)
          (Nat.mod_eq_zero_of_dvd dvd_floor) hPend
        rw [← hcol] at h2
        exact absurd h1 h2.not_ge
      rw [Nat.le_iff_lt_or_eq, or_iff_right hle, or_comm, mem_beforeTail]
    · rw [or_iff_right hPend.not_ge, List.mem_append, List.mem_singleton, mem_beforeTail,
        eq_comm (a := junctionFloor c r)]

/-- The walk that meets no tail. -/
theorem sparedByWalk_none (hA : Astray c r t) (ht : ¬ Within c r t (tailStop c r t)) :
    SparedByWalk c r t ↔ junctionStop c r t ≤ start r t ∧ LastExported c r t ∧
      lastStop c r t = junctionFloor c r := by
  have hj' := hA.2.2.2.1
  have hJend : start r t < junctionStop c r t → junctionStop c r t < chunkEnd c r t := fun h =>
    (junctionStop_bounds h).1.trans_lt hj'
  have hwalk := (walk_of_not_lastEnds (by rw [hrb]; rfl) hends).1 ht
  unfold SparedByWalk
  dsimp only
  rw [hwalk, settle_beforeTail]
  split_ifs with hcond
  · exact iff_of_false (fun h => tail_notMem_beforeTail h.1) fun h => h.1.not_gt hcond.1
  · have hle : junctionStop c r t ≤ start r t := not_lt.mp fun h => hcond ⟨h, hJend h, fun he =>
      ht (he ▸ ⟨h, hJend h⟩)⟩
    have hPend : junctionFloor c r < chunkEnd c r t := floor_le.trans_lt hj'
    rw [or_iff_right hPend.not_ge, and_iff_right hle, mem_beforeTail]

end Tail

/-- **The walk over the other stops spares a chunk exactly when they do.** -/
theorem sparedByWalk_iff (hA : Astray c r t) : SparedByWalk c r t ↔ Spared c r t := by
  obtain ⟨⟨tokens, stop⟩, hrb⟩ := Option.isSome_iff_exists.mp hA.1
  unfold Spared
  by_cases hends : LastEnds c r t
  · rw [sparedByWalk_last hA.1 hends]
    simp only [hends, true_and, not_true_eq_false, false_and, or_false]
  by_cases ht : Within c r t (tailStop c r t)
  · by_cases hx : TailExported c r t
    · rw [sparedByWalk_passed hrb hends hA ht hx]
      simp only [hends, ht, hx, true_and, not_true_eq_false, not_false_eq_true, false_and,
        true_imp_iff, false_or, or_false]
    · rw [sparedByWalk_tail hrb hends ht hx]
      simp only [hends, ht, hx, true_and, not_true_eq_false, not_false_eq_true, false_and,
        false_imp_iff, and_true, false_or, or_false]
  · rw [sparedByWalk_none hrb hends hA ht]
    simp only [hends, ht, true_and, not_false_eq_true, false_and, false_or]

/-- **An astray chunk meets the claims exactly when the other stops spare it.** -/
theorem meets_iff_spared (hA : Astray c r t) :
    Meets c r t (chunkPlan c r t).1 (chunkPlan c r t).2 ↔ Spared c r t :=
  (meets_iff_sparedByWalk hA).trans (sparedByWalk_iff hA)

end Others

end Positions

/-! ## The split -/

section Split

variable {Rid : Type} [DecidableEq Rid] {c : Config} {r : Request Rid} {t : Offer} {plans plans' :
    Rid → Option Plan}
  {len : Nat}

/-- **A split meets the claims on junctions and chunk ends exactly when the junction's stop is not
computed from a start inside a block, or the other stops spare the chunk.** -/
theorem split_meets_iff (hpre : start r t < prefillEnd r)
    (h : split c r t plans = .ok (len, plans')) :
    Meets c r t (start r t + len) (exported c r plans') ↔ ¬ Astray c r t ∨ Spared c r t := by
  obtain ⟨hlen, hexp⟩ := split_ok hpre h
  rw [hexp]
  rcases lt_or_ge (start r t) (chunkEnd c r t) with hlt | hge
  · have hafter := (chunkPlan_covers hlt).after
    rw [hlen, Nat.add_sub_cancel' hafter.le]
    by_cases hA : Astray c r t
    · rw [meets_iff_spared hA]
      exact ⟨Or.inr, fun h => h.resolve_left (not_not.mpr hA)⟩
    · exact ⟨fun _ => Or.inl hA, fun _ => meets_of_not_astray hlt hA⟩
  · -- nothing is left of the chunk
    have hempty := chunkPlan_empty hge
    have hzero : len = 0 := by
      rw [hlen, hempty]
      exact Nat.sub_eq_zero_of_le hge
    refine ⟨fun _ => Or.inl fun hA => ?_, fun _ => ⟨fun _ hj' hp => ?_, fun hlt => ?_⟩⟩
    · exact absurd (hA.2.2.1.trans hA.2.2.2.1) hge.not_gt
    · exact absurd (hp.trans_le (junctionFloor_le_end hj')) hge.not_gt
    · omega

/-- Blocks of 64 tokens, hash blocks of 16. -/
def gridConfig (ckptEnabled : Bool) : Config where
  enablePrefixCaching := true
  retentionInterval := none
  blockSize := 64
  cacheBlockSize := 64
  hashBlockSize := 16
  useEagle := true
  hasPrefillCheckpointBlocks := false
  partialCacheHit := true
  longPrefillTokenThreshold := 0
  rb := true
  ckptEnabled
  maxExports := 8
  blockSize_pos := by decide
  cacheBlockSize_pos := by decide
  hashBlockSize_pos := by decide

/-- A prompt of 400 tokens that shares its first 96 with another. -/
def sharedPrompt (numComputedTokens : Nat) : Request Nat where
  requestId := 0
  numComputedTokens
  numPromptTokens := 400
  numTokens := 400
  numOutputTokens := 0
  hasEncoderInputs := false
  sharedPrefixBoundary := 96
  junction_lt := by decide

/-- From the prompt's start the junction's floor is exported. -/
theorem shared_prompt_meets : Meets (gridConfig true) (sharedPrompt 0) ⟨200, 0, 0, 8192⟩ 192 [64] :=
  (@split_meets_iff _ _ (gridConfig true) (sharedPrompt 0) ⟨200, 0, 0, 8192⟩ (fun _ => none) _ _
    (by decide) rfl).mpr (Or.inl fun hA => absurd hA.2.1 (by decide))

/-- **After a hit of 16 tokens the chunk ends at 80**, off the grid, and the state at 64 is not
kept. -/
theorem shared_prompt_astray :
    ¬ ∀ (c : Config) (r : Request Nat) (t : Offer) (plans plans' : Nat → Option Plan) (len : Nat),
      start r t < prefillEnd r → split c r t plans = .ok (len, plans') →
      Meets c r t (start r t + len) (exported c r plans') := by
  intro h
  have hmeets := h (gridConfig false) (sharedPrompt 16) ⟨200, 0, 0, 8192⟩ (fun _ => none)
    (fun _ => none) 64
    (by decide) rfl
  rcases hmeets.junction (by decide) (by decide) (by decide) with he | he | he
  · exact absurd he (by decide)
  · exact absurd he (by decide)
  · exact absurd he.1 (by decide)

/-- Where the planners' grid is the tiles', a split returns. -/
theorem split_returns (hgrid : chunkTokens ∣ c.block) : ∃ out, split c r t plans = .ok out := by
  have hcheck := checkGrid_ok.mpr ⟨c.block_pos, hgrid⟩
  have hplan : ∃ plan, planStops c r t = .ok plan := by
    unfold planStops ReplayBoundary.planChunk planChunk
    rw [hcheck]
    split <;> exact ⟨_, rfl⟩
  obtain ⟨plan, hplan⟩ := hplan
  by_cases hpre : prefillEnd r ≤ start r t
  · exact ⟨_, if_pos hpre⟩
  rw [split, if_neg hpre]
  by_cases hexp : mayExport c r t
  · simp only [if_pos hexp]
    by_cases hne : plan.2 ≠ []
    · exact ⟨_, bind_ok.mpr ⟨plan, hplan, if_pos hne⟩⟩
    · exact ⟨_, bind_ok.mpr ⟨plan, hplan, if_neg hne⟩⟩
  · exact ⟨_, if_neg hexp⟩

end Split

end Ringside.Checkpoint

import Mathlib.Data.Nat.Size
import Ringside.Races

/-!
# Staging of the narrow KDA state pool (`models/glm5next/nvidia/kda_state_store.py`)

A prefill call runs on fp32 copies of its rows' states: its rows are staged in, the recurrence works
on the staging pool, and the final states and the exported checkpoints are stored back. The unfused
path does this with a launch for each kind of row and buffer, the fused path with one launch before
and one after. The two paths have different kernels and index arithmetic; this file says that a call
may not leave different memories through them.

* All memory is one map from addresses (`Addr`) to words: main and side columns of the pool, the
  convolution pool, the staging rows, the metadata buffers. Conversions between words and fp32
  values are any functions (`Words`), so rounding to the narrow type is covered whatever it is.
* The programs of a launch race (`Races.Outcome`). Where two rows have one destination, each path
  has several outcomes; the statement compares the sets of outcomes.
* Blocks are signed indices, and a load from a negative one reads what lies before the pool, as in
  the kernels.
* The side layout (`Layer.nvb`, `_state_load`, `_state_store`), which the fused path requires.
* The work between staging in and staging out is any function of memory that keeps to the staging
  pool.

Results:
* `stores_fusedIn`, `fusedIn_outcome`, `unfusedIn_runs`: both paths stage the same.
* `stores_fusedOut`, `fusedOut_runs`: the fused launch stores the finals that no export overwrites,
  their convolution rows and the exports; it may leave what a launch for each kind may.
* `staging_refines`: a call with the fused launches and one with the unfused ones may leave the same
  memories, at least one, and only one where the destinations are distinct. Blocks that no row and
  no export names keep what the work left there.
* `null_row_reads`: neither path masks the null row: it is staged with what the null block holds,
  where a mask would read zeros.

Out of scope: the recurrence itself, the plain layout without side columns, and the scheduling that
makes blocks distinct (`Call.Distinct` is a hypothesis where it is needed).
-/

namespace Ringside.KdaStaging

open Ringside.Races

/-- An address: the state pool's main and side columns, the convolution pool, the staging rows, and
the call's metadata buffers. -/
inductive Addr where
  | main (blk : Int) (h v k : Nat)
  | side (blk : Int) (h v s : Nat)
  | convPool (blk : Int) (i : Nat)
  | stage (row h v k : Nat)
  | stageConv (row i : Nat)
  | initial (r : Nat)
  | numSeqs
  | numTokens
  | exportSlot (e : Nat)
  deriving DecidableEq

/-- The pool block of an address. -/
def Addr.block : Addr → Option Int
  | .main blk _ _ _ => some blk
  | .side blk _ _ _ => some blk
  | .convPool blk _ => some blk
  | _ => none

/-- How words hold values. -/
structure Words (W F : Type) where
  load16 : W → F
  load32 : W → F
  store16 : F → W
  store32 : F → W
  ofInt : Int → W

/-- A layer's geometry and slot table. -/
structure Layer where
  heads : Nat
  valueDim : Nat
  keyDim : Nat
  /-- `slow_slot_table`: the side slot of a key channel, negative for the others. -/
  slot : Nat → Nat → Int
  /-- The elements of a convolution row, if these are staged. -/
  convElems : Option Nat
  heads_pos : 0 < heads
  valueDim_pos : 0 < valueDim
  slot_inj : ∀ h k k', 0 ≤ slot h k → slot h k = slot h k' → k = k'

/-- A call, with the checks that staging makes on it. -/
structure Call where
  maxSeqs : Nat
  exportRows : Nat
  n : Nat
  indices : Nat → Int
  hasInitialState : Nat → Bool
  numTokens : Int
  /-- The flat checkpoint slots; empty without a plan. -/
  ckpt : List Int
  n_pos : 0 < n
  n_le : n ≤ maxSeqs
  exports_le : ckpt.length ≤ exportRows

/-- `NULL_BLOCK_ID`. -/
def nullBlockId : Int := 0

/-- `_next_pow2`. -/
def nextPow2 (n : Nat) : Nat := 2 ^ Nat.size (n - 1)

section Kernels

variable {W F : Type} (ws : Words W F) (L : Layer) (c : Call)

/-- `export_base`. -/
def Call.exportBase : Nat := c.maxSeqs + 1

/-- `_exp_block`. -/
def Call.expBlock : Nat := nextPow2 (max 16 c.exportRows)

/-- A checkpoint slot. -/
def Call.slotAt (e : Nat) : Int := c.ckpt.getD e 0

/-- `_nvb`. -/
def Layer.nvb : Nat := (L.valueDim + 32 - 1) / 32

/-- `_state_programs`. -/
def Layer.statePrograms : Nat := L.heads * L.nvb

/-- The elements of a convolution row; none where they are not staged. -/
def Layer.convLen : Nat := L.convElems.getD 0

/-- `cprog`. -/
def Layer.convPrograms : Nat := (L.convLen + 2048 - 1) / 2048

/-- `_state_load`: the slow channels come from the side. -/
def stateLoad (m : Addr → W) (blk : Int) (h v k : Nat) : F :=
  if 0 ≤ L.slot h k then ws.load32 (m (.side blk h v (L.slot h k).toNat))
    else ws.load16 (m (.main blk h v k))

/-- `_state_store` of a tile's rows: the main columns, then the slow channels. -/
def stateStore (blk : Int) (h : Nat) (vs : List Nat) (x : Nat → Nat → F) : List (Addr × W) :=
  (vs.flatMap fun v => (List.range L.keyDim).map fun k => (.main blk h v k, ws.store16 (x v k))) ++
    vs.flatMap fun v => ((List.range L.keyDim).filter fun k => 0 ≤ L.slot h k).map fun k =>
      (.side blk h v (L.slot h k).toNat, ws.store32 (x v k))

/-- `_stage_side_kernel` into staging, for the value tile `vb` of head `h` of row `r`. -/
def sideIn (m : Addr → W) (r h vb : Nat) : List (Addr × W) :=
  (lanes 32 vb L.valueDim).flatMap fun v => (List.range L.keyDim).map fun k =>
    (.stage (r + 1) h v k, ws.store32 (stateLoad ws L m (c.indices r) h v k))

/-- `_stage_side_kernel` out of staging, from row `base + r + 1` to block `blk`. -/
def sideOut (m : Addr → W) (base : Nat) (blk : Int) (r h vb : Nat) : List (Addr × W) :=
  if nullBlockId < blk then
    stateStore ws L blk h (lanes 32 vb L.valueDim) fun v k =>
      ws.load32 (m (.stage (base + r + 1) h v k))
  else []

/-- `_stage_rows_kernel` into staging, for a chunk of the convolution row `r`. -/
def rowsIn (m : Addr → W) (r chunk : Nat) : List (Addr × W) :=
  (lanes 2048 chunk L.convLen).map fun i => (.stageConv (r + 1) i, m (.convPool (c.indices r) i))

/-- `_stage_rows_kernel` out of staging. -/
def rowsOut (m : Addr → W) (r chunk : Nat) : List (Addr × W) :=
  if nullBlockId < c.indices r then
    (lanes 2048 chunk L.convLen).map fun i => (.convPool (c.indices r) i, m (.stageConv (r + 1) i))
  else []

/-- The staged checkpoint map at the given entries. -/
def exportMap (entries : List Nat) : List (Addr × W) :=
  entries.map fun e =>
    (.exportSlot e, ws.ofInt (if c.slotAt e ≠ nullBlockId then c.exportBase + e else c.slotAt e))

/-! ## The fused launches

One launch does the work of several: a program finds by its number which of them it is a program of.
-/

/-- A program of `_stage_in_fused_kernel`. -/
def fusedInProgram (m : Addr → W) (r p : Nat) : List (Addr × W) :=
  (if p < L.statePrograms then sideIn ws L c m r (p / L.nvb) (p % L.nvb)
    else rowsIn L c m r (p - L.statePrograms)) ++
    if p = 0 then
      (.initial r, ws.ofInt (if c.hasInitialState r then r + 1 else nullBlockId)) ::
        if r = 0 then
          [(.numSeqs, ws.ofInt c.n), (.numTokens, ws.ofInt c.numTokens)] ++
            if 0 < c.ckpt.length then
              exportMap ws c ((List.range c.expBlock).filter (· < c.ckpt.length)) else []
        else []
    else []

/-- `_stage_in_fused_kernel`. -/
def fusedIn (m : Addr → W) : Launch Addr W :=
    grid c.n (L.statePrograms + L.convPrograms) (fusedInProgram ws L c m)

/-- A program of `_stage_out_fused_kernel`: final rows, then exports. -/
def fusedOutProgram (m : Addr → W) (r p : Nat) : List (Addr × W) :=
  let blk := if r < c.n then c.indices r else c.slotAt (r - c.n)
  let row := if r < c.n then r + 1 else c.exportBase + (r - c.n)
  if p < L.statePrograms then
    let exported : Bool := ((List.range c.expBlock).map fun e =>
      if e < c.ckpt.length then c.slotAt e else nullBlockId).any (· == blk)
    let write := nullBlockId < blk ∧ ¬ (r < c.n ∧ 0 < c.ckpt.length ∧ exported)
    if write then
      stateStore ws L blk (p / L.nvb) (lanes 32 (p % L.nvb) L.valueDim) fun v k =>
        ws.load32 (m (.stage row (p / L.nvb) v k))
    else []
  else if r < c.n then rowsOut L c m r (p - L.statePrograms)
  else []

/-- `_stage_out_fused_kernel`. -/
def fusedOut (m : Addr → W) : Launch Addr W :=
  grid (c.n + c.ckpt.length) (L.statePrograms + L.convPrograms) (fusedOutProgram ws L c m)

/-! ## The unfused launches -/

/-- `stage_in`, `export_checkpoints` and the index launches of the binding. -/
def unfusedIn : List ((Addr → W) → Launch Addr W) :=
  [fun m => grid3 c.n L.heads L.nvb (sideIn ws L c m), fun m =>
    grid c.n L.convPrograms (rowsIn L c m), fun _ => [exportMap ws c (List.range c.ckpt.length)],
    fun _ => [(List.range c.n).map fun r => (.initial r, ws.ofInt (r + 1))],
    fun _ => [((List.range c.n).filter fun r => !c.hasInitialState r).map fun r =>
    (.initial r, ws.ofInt nullBlockId)],
    fun _ => [[(.numSeqs, ws.ofInt c.n)]], fun _ => [[(.numTokens, ws.ofInt c.numTokens)]]]

/-- `stage_out`, then `stage_out_exports` on the view behind the call's rows. -/
def unfusedOut : List ((Addr → W) → Launch Addr W) :=
  [fun m => grid3 c.n L.heads L.nvb fun r => sideOut ws L m 0 (c.indices r) r,
    fun m => grid c.n L.convPrograms (rowsOut L c m),
    fun m => grid3 c.ckpt.length L.heads L.nvb fun e =>
    sideOut ws L m (c.exportBase - 1) (c.slotAt e) e]

/-! ## A call

Between staging in and staging out the layer does its work, which is a parameter here: any function
of the memory, the same for both calls.
-/

/-- A call with the fused launches: staged in, worked on, staged out. -/
def fusedCall (work : (Addr → W) → Addr → W) (m m' : Addr → W) : Prop :=
  ∃ m₁, Outcome (fusedIn ws L c m) m m₁ ∧ Outcome (fusedOut ws L c (work m₁)) (work m₁) m'

/-- A call with the unfused launches. -/
def unfusedCall (work : (Addr → W) → Addr → W) (m m' : Addr → W) : Prop :=
  ∃ m₁, Runs (unfusedIn ws L c) m m₁ ∧ Runs (unfusedOut ws L c) (work m₁) m'

/-! ## What staging in stores

`inValue` says what each address holds after staging in, as a function of the memory before. Each
path is shown to store just that, so the order of its launches does not matter.
-/

section In

variable {ws : Words W F} {L : Layer} {c : Call} {m m' : Addr → W} {key : Addr} {w : W}

/-- The states that are staged in. -/
def stateIn (ws : Words W F) (L : Layer) (c : Call) (m : Addr → W) : Addr → Option W
  | .stage row h v k =>
    if 1 ≤ row ∧ row ≤ c.n ∧ h < L.heads ∧ v < L.valueDim ∧ k < L.keyDim then
      some (ws.store32 (stateLoad ws L m (c.indices (row - 1)) h v k))
    else none
  | _ => none

/-- The convolution rows that are staged in. -/
def convIn (L : Layer) (c : Call) (m : Addr → W) : Addr → Option W
  | .stageConv row i =>
    if 1 ≤ row ∧ row ≤ c.n ∧ i < L.convLen then
      some (m (.convPool (c.indices (row - 1)) i)) else none
  | _ => none

/-- The staged checkpoint map. -/
def exportIn (ws : Words W F) (c : Call) : Addr → Option W
  | .exportSlot e =>
    if e < c.ckpt.length then
      some (ws.ofInt (if c.slotAt e ≠ nullBlockId then c.exportBase + e else c.slotAt e)) else none
  | _ => none

/-- A value for each of some rows' initial indices. -/
def initialIn (ws : Words W F) (p : Nat → Bool) (value : Nat → Int) : Addr → Option W
  | .initial r => if p r then some (ws.ofInt (value r)) else none
  | _ => none

/-- The initial indices and the counters. -/
def indexIn (ws : Words W F) (c : Call) : Addr → Option W
  | .initial r =>
    if r < c.n then some (ws.ofInt (if c.hasInitialState r then r + 1 else nullBlockId)) else none
  | .numSeqs => some (ws.ofInt c.n)
  | .numTokens => some (ws.ofInt c.numTokens)
  | _ => none

/-- All that is staged in. -/
def inValue (ws : Words W F) (L : Layer) (c : Call) (m : Addr → W) (key : Addr) : Option W :=
  (stateIn ws L c m key).or ((convIn L c m key).or ((exportIn ws c key).or (indexIn ws c key)))

/-- Memory with a call staged in. -/
def staged (ws : Words W F) (L : Layer) (c : Call) (m : Addr → W) : Addr → W :=
    overlay (inValue ws L c m) m

theorem stores_sideIn : Stores (grid3 c.n L.heads L.nvb (sideIn ws L c m)) key w ↔
    stateIn ws L c m key = some w := by
  have hmem : ∀ {r h b}, (key, w) ∈ sideIn ws L c m r h b ↔ ∃ v ∈ lanes 32 b L.valueDim,
    ∃ k < L.keyDim,
      .stage (r + 1) h v k = key ∧ ws.store32 (stateLoad ws L m (c.indices r) h v k) = w := by
    intro r h b
    unfold sideIn
    simp only [List.mem_flatMap, List.mem_map, List.mem_range, Prod.mk.injEq]
  simp only [stores_grid3, hmem]
  unfold Layer.nvb
  simp only [exists_lane (show 0 < 32 by decide)]
  constructor
  · rintro ⟨r, hr, h, hh, v, hv, k, hk, rfl, rfl⟩
    exact if_pos ⟨by omega, hr, hh, hv, hk⟩
  · intro hin
    cases key with
    | stage row h v k =>
      unfold stateIn at hin
      dsimp only at hin
      split_ifs at hin with hc
      obtain ⟨h1, hrow, hh, hv, hk⟩ := hc
      exact ⟨row - 1, by omega, h, hh, v, hv, k, hk, by rw [Nat.sub_add_cancel h1],
        Option.some.inj hin⟩
    | _ => cases hin

theorem stores_rowsIn : Stores (grid c.n L.convPrograms (rowsIn L c m)) key w ↔
    convIn L c m key = some w := by
  have hmem : ∀ {r b}, (key, w) ∈ rowsIn L c m r b ↔ ∃ i ∈ lanes 2048 b L.convLen,
      .stageConv (r + 1) i = key ∧ m (.convPool (c.indices r) i) = w := by
    intro r b
    unfold rowsIn
    simp only [List.mem_map, Prod.mk.injEq]
  simp only [stores_grid, hmem]
  unfold Layer.convPrograms
  simp only [exists_lane (show 0 < 2048 by decide)]
  constructor
  · rintro ⟨r, hr, i, hi, rfl, rfl⟩
    exact if_pos ⟨by omega, hr, hi⟩
  · intro hin
    cases key with
    | stageConv row i =>
      unfold convIn at hin
      dsimp only at hin
      split_ifs at hin with hc
      obtain ⟨h1, hrow, hi⟩ := hc
      exact ⟨row - 1, by omega, i, hi, by rw [Nat.sub_add_cancel h1], Option.some.inj hin⟩
    | _ => cases hin

theorem mem_exportMap {entries : List Nat} (hentries : ∀ e, e ∈ entries ↔ e < c.ckpt.length) :
    (key, w) ∈ exportMap ws c entries ↔ exportIn ws c key = some w := by
  unfold exportMap
  simp only [List.mem_map, Prod.mk.injEq, hentries]
  constructor
  · rintro ⟨e, he, rfl, rfl⟩
    exact if_pos he
  · intro hin
    cases key with
    | exportSlot e =>
      unfold exportIn at hin
      dsimp only at hin
      rcases Nat.lt_or_ge e c.ckpt.length with he | he
      · rw [if_pos he] at hin
        exact ⟨e, he, rfl, Option.some.inj hin⟩
      · rw [if_neg (by omega)] at hin
        cases hin
    | _ => cases hin

/-- The exports fit the vector of the fused kernels. -/
theorem Call.length_le_expBlock (c : Call) : c.ckpt.length ≤ c.expBlock := by
  unfold Call.expBlock nextPow2
  have hle : c.ckpt.length ≤ max 16 c.exportRows := le_trans c.exports_le (le_max_right _ _)
  have hlt : max 16 c.exportRows - 1 < 2 ^ Nat.size (max 16 c.exportRows - 1) := Nat.lt_size_self _
  omega

theorem mem_exportEntries {e : Nat} : e ∈ (List.range c.expBlock).filter (· < c.ckpt.length) ↔
    e < c.ckpt.length := by
  rw [List.mem_filter, List.mem_range, decide_eq_true_eq, and_iff_right_iff_imp]
  intro he
  have hle := c.length_le_expBlock
  omega

theorem inValue_eq_some : inValue ws L c m key = some w ↔
    (stateIn ws L c m key = some w ∨ convIn L c m key = some w) ∨
    exportIn ws c key = some w ∨ indexIn ws c key = some w := by
  unfold inValue
  cases key <;> simp only [stateIn, convIn, exportIn, indexIn, Option.or_none, Option.none_or,
    reduceCtorEq, or_false, false_or]

/-- **The fused launch** stores what is staged in. -/
theorem stores_fusedIn : Stores (fusedIn ws L c m) key w ↔ inValue ws L c m key = some w := by
  have hpos : 0 < L.statePrograms + L.convPrograms := by
    have hnvb : 0 < L.nvb := Nat.div_pos (by have := L.valueDim_pos; omega) (by decide)
    have hmul := Nat.mul_pos L.heads_pos hnvb
    unfold Layer.statePrograms
    omega
  rw [inValue_eq_some]
  unfold fusedIn fusedInProgram
  rw [stores_grid_append]
  refine or_congr ?_ ?_
  · unfold Layer.statePrograms
    rw [stores_grid_parts (f := sideIn ws L c m), stores_sideIn, stores_rowsIn]
  · rw [stores_grid]
    constructor
    · rintro ⟨r, hr, p, -, hm⟩
      by_cases hp0 : p = 0
      · rw [if_pos hp0] at hm
        rcases List.mem_cons.mp hm with heq | hm
        · cases heq
          exact Or.inr (if_pos hr)
        · by_cases hr0 : r = 0
          · rw [if_pos hr0] at hm
            rcases List.mem_append.mp hm with hm | hm
            · simp only [List.mem_cons, List.not_mem_nil, or_false, Prod.mk.injEq] at hm
              rcases hm with ⟨rfl, rfl⟩ | ⟨rfl, rfl⟩ <;> exact Or.inr rfl
            · split_ifs at hm with he
              · exact Or.inl ((mem_exportMap fun _ => mem_exportEntries).mp hm)
              · cases hm
          · rw [if_neg hr0] at hm
            cases hm
      · rw [if_neg hp0] at hm
        cases hm
    · rintro (hx | hx)
      · have he : 0 < c.ckpt.length := by
          cases key with
          | exportSlot e =>
            by_contra hzero
            unfold exportIn at hx
            dsimp only at hx
            rw [if_neg (by omega)] at hx
            cases hx
          | _ => cases hx
        refine ⟨0, c.n_pos, 0, hpos, ?_⟩
        rw [if_pos rfl, if_pos rfl, if_pos he]
        exact List.mem_cons_of_mem _ (List.mem_append_right
          _ ((mem_exportMap fun _ => mem_exportEntries).mpr hx))
      · cases key with
        | initial r =>
          unfold indexIn at hx
          dsimp only at hx
          rcases Nat.lt_or_ge r c.n with hr | hr
          · rw [if_pos hr] at hx
            refine ⟨r, hr, 0, hpos, ?_⟩
            rw [if_pos rfl, ← Option.some.inj hx]
            exact List.mem_cons_self
          · rw [if_neg (by omega)] at hx
            cases hx
        | numSeqs =>
          refine ⟨0, c.n_pos, 0, hpos, ?_⟩
          rw [if_pos rfl, if_pos rfl, ← Option.some.inj hx]
          exact List.mem_cons_of_mem _ (List.mem_append_left _ List.mem_cons_self)
        | numTokens =>
          refine ⟨0, c.n_pos, 0, hpos, ?_⟩
          rw [if_pos rfl, if_pos rfl, ← Option.some.inj hx]
          exact List.mem_cons_of_mem _ (List.mem_append_left
            _ (List.mem_cons_of_mem _ List.mem_cons_self))
        | _ => cases hx

/-- **Staging in with one launch.** -/
theorem fusedIn_outcome : Outcome (fusedIn ws L c m) m m' ↔ m' = staged ws L c m :=
  outcome_overlay fun _ _ => stores_fusedIn

theorem mem_initials {rows : List Nat} {p : Nat → Bool} {value : Nat → Int}
    (hrows : ∀ r, r ∈ rows ↔ p r = true) :
    (key, w) ∈ rows.map (fun r => (Addr.initial r, ws.ofInt (value r))) ↔
    initialIn ws p value key = some w := by
  simp only [List.mem_map, Prod.mk.injEq, hrows]
  constructor
  · rintro ⟨r, hr, rfl, rfl⟩
    exact if_pos hr
  · intro hin
    cases key with
    | initial r =>
      unfold initialIn at hin
      dsimp only at hin
      split_ifs at hin with hr
      exact ⟨r, hr, rfl, Option.some.inj hin⟩
    | _ => cases hin

/-- **Staging in with a launch for each kind** leaves the same. -/
theorem unfusedIn_runs : Runs (unfusedIn ws L c) m m' ↔ m' = staged ws L c m := by
  have hside : ∀ m m' : Addr → W, Outcome (grid3 c.n L.heads L.nvb (sideIn ws L c m)) m m' ↔
      m' = overlay (stateIn ws L c m) m := fun _ _ => outcome_overlay fun _ _ => stores_sideIn
  have hrows : ∀ m m' : Addr → W, Outcome (grid c.n L.convPrograms (rowsIn L c m)) m m' ↔
      m' = overlay (convIn L c m) m := fun _ _ => outcome_overlay fun _ _ => stores_rowsIn
  have hmap : ∀ m m' : Addr → W, Outcome [exportMap ws c (List.range c.ckpt.length)] m m' ↔
      m' = overlay (exportIn ws c) m := fun _ _ => outcome_overlay fun _ _ =>
    stores_single.trans (mem_exportMap fun _ => List.mem_range)
  have hcopy : ∀ m m' : Addr → W, Outcome [(List.range c.n).map fun r : Nat =>
    (.initial r, ws.ofInt (r + 1))] m m' ↔
      m' = overlay (initialIn ws (fun r => decide (r < c.n)) fun r => r + 1) m :=
      fun _ _ => outcome_overlay fun _ _ =>
    stores_single.trans (mem_initials fun r => by rw [List.mem_range, decide_eq_true_eq])
  have hfill : ∀ m m' : Addr → W, Outcome
      [((List.range c.n).filter fun r => !c.hasInitialState r).map fun r =>
        (.initial r, ws.ofInt nullBlockId)] m m' ↔
      m' = overlay (initialIn ws (fun r => decide (r < c.n) && !c.hasInitialState r) fun _ =>
      nullBlockId) m :=
    fun _ _ => outcome_overlay fun _ _ => stores_single.trans (mem_initials fun _ => by
      rw [List.mem_filter, List.mem_range, Bool.and_eq_true, decide_eq_true_eq])
  have hword : ∀ (key : Addr) (x : W) (m m' : Addr → W), Outcome [[(key, x)]] m m' ↔
      m' = overlay (fun k => if k = key then some x else none) m := fun key x _ _ =>
      outcome_overlay fun k v => by
    rw [stores_single, List.mem_singleton, Prod.mk.injEq, Option.ite_none_right_eq_some,
      Option.some.injEq, eq_comm (a := v)]
  simp only [unfusedIn, Runs, hside, hrows, hmap, hcopy, hfill, hword, exists_eq_left]
  refine Eq.congr_right (funext fun key => ?_)
  unfold staged inValue overlay
  cases key with
  | initial r =>
    simp only [stateIn, convIn, exportIn, initialIn, indexIn, Option.none_or, Option.getD_none,
      reduceCtorEq, if_false]
    by_cases hr : r < c.n <;> by_cases hi : c.hasInitialState r = true <;> simp [hr, hi]
  | _ => simp [stateIn, convIn, exportIn, initialIn, indexIn]

end In

/-! ## What staging out stores

Here the order matters: a final row whose block is also exported is stored first and overwritten by
the export, in the unfused path. The fused kernel has no order between its programs, and stores such
a final row not at all. Where two rows name one destination, the fused launch may leave either.
-/

section Out

variable {ws : Words W F} {L : Layer} {c : Call} {m m' : Addr → W} {key : Addr} {w : W}

theorem mem_stateStore {blk : Int} {h : Nat} {vs : List Nat} {x : Nat → Nat → F} :
    (key, w) ∈ stateStore ws L blk h vs x ↔
      (∃ v ∈ vs, ∃ k < L.keyDim, .main blk h v k = key ∧ ws.store16 (x v k) = w) ∨
        ∃ v ∈ vs, ∃ k < L.keyDim, 0 ≤ L.slot h k ∧ .side blk h v (L.slot h k).toNat = key ∧
        ws.store32 (x v k) = w := by
  unfold stateStore
  simp only [List.mem_append, List.mem_flatMap, List.mem_map, List.mem_filter, List.mem_range,
    Prod.mk.injEq, decide_eq_true_eq, and_assoc]

/-- A state is stored to its block, at addresses that do not depend on it. -/
theorem stateStore_block {blk : Int} {h : Nat} {vs : List Nat} {x : Nat → Nat → F}
    (hm : (key, w) ∈ stateStore ws L blk h vs x) :
    key.block = some blk ∧ (∀ i, key ≠ .convPool blk i) ∧ ∀ y, ∃ w',
      (key, w') ∈ stateStore ws L blk h vs y := by
  rcases mem_stateStore.mp hm with ⟨v, hv, k, hk, rfl, -⟩ | ⟨v, hv, k, hk, hs, rfl, -⟩
  · exact ⟨rfl, fun _ => nofun, fun y => ⟨_, mem_stateStore.mpr (Or.inl ⟨v, hv, k, hk, rfl, rfl⟩)⟩⟩
  · exact ⟨rfl, fun _ => nofun, fun y =>
      ⟨_, mem_stateStore.mpr (Or.inr ⟨v, hv, k, hk, hs, rfl, rfl⟩)⟩⟩

/-- Only staged rows are read. -/
theorem sideOut_congr {base : Nat} {blk : Int} {r h vb : Nat}
    (hm : ∀ row h v k, m (.stage row h v k) = m' (.stage row h v k)) :
    sideOut ws L m base blk r h vb = sideOut ws L m' base blk r h vb := by
  unfold sideOut
  simp only [hm]

theorem rowsOut_congr {r chunk : Nat} (hm : ∀ row i, m (.stageConv row i) = m' (.stageConv row i)) :
    rowsOut L c m r chunk = rowsOut L c m' r chunk := by
  unfold rowsOut
  simp only [hm]

/-- The final rows that the unfused path stores. -/
def finals (ws : Words W F) (L : Layer) (c : Call) (m : Addr → W) : Launch Addr W :=
  grid3 c.n L.heads L.nvb fun r => sideOut ws L m 0 (c.indices r) r

/-- The convolution rows of the finals. -/
def finalRows (L : Layer) (c : Call) (m : Addr → W) : Launch Addr W :=
    grid c.n L.convPrograms (rowsOut L c m)

/-- The exports. -/
def exports (ws : Words W F) (L : Layer) (c : Call) (m : Addr → W) : Launch Addr W :=
  grid3 c.ckpt.length L.heads L.nvb fun e => sideOut ws L m (c.exportBase - 1) (c.slotAt e) e

theorem mem_sideOut {base : Nat} {blk : Int} {r h vb : Nat} :
    (key, w) ∈ sideOut ws L m base blk r h vb ↔
    0 < blk ∧ (key, w) ∈ stateStore ws L blk h (lanes 32 vb L.valueDim) fun v k =>
    ws.load32 (m (.stage (base + r + 1) h v k)) := by
  unfold sideOut nullBlockId
  split_ifs with h
  · rw [and_iff_right h]
  · simp only [List.not_mem_nil, h, false_and]

theorem stores_finals : Stores (finals ws L c m) key w ↔ ∃ r < c.n, ∃ h < L.heads, ∃ vb < L.nvb,
    0 < c.indices r ∧
    (key, w) ∈ stateStore ws L (c.indices r) h (lanes 32 vb L.valueDim) fun v k =>
    ws.load32 (m (.stage (r + 1) h v k)) := by
  unfold finals
  simp only [stores_grid3, mem_sideOut, Nat.zero_add]

theorem stores_exports : Stores (exports ws L c m) key w ↔ ∃ e < c.ckpt.length,
    ∃ h < L.heads, ∃ vb < L.nvb,
    0 < c.slotAt e ∧ (key, w) ∈ stateStore ws L (c.slotAt e) h (lanes 32 vb L.valueDim) fun v k =>
      ws.load32 (m (.stage (c.exportBase + e) h v k)) := by
  have hrow : ∀ e, c.exportBase - 1 + e + 1 = c.exportBase + e := by
    unfold Call.exportBase
    omega
  unfold exports
  simp only [stores_grid3, mem_sideOut, hrow]

theorem stores_finalRows : Stores (finalRows L c m) key w ↔ ∃ r < c.n, ∃ i < L.convLen,
    0 < c.indices r ∧
    .convPool (c.indices r) i = key ∧ m (.stageConv (r + 1) i) = w := by
  have hmem : ∀ {r b}, (key, w) ∈ rowsOut L c m r b ↔ ∃ i ∈ lanes 2048 b L.convLen,
    0 < c.indices r ∧ .convPool (c.indices r) i = key ∧ m (.stageConv (r + 1) i) = w := by
    intro r b
    unfold rowsOut nullBlockId
    split_ifs with h
    · simp only [List.mem_map, Prod.mk.injEq, h, true_and]
    · simp only [List.not_mem_nil, h, false_and, and_false, exists_false]
  unfold finalRows
  simp only [stores_grid, hmem]
  unfold Layer.convPrograms
  simp only [exists_lane (show 0 < 2048 by decide)]

/-- What the fused kernel tests before it stores a final row. -/
theorem exported_iff {blk : Int} (hblk : 0 < blk) :
    ((List.range c.expBlock).map fun e => if e < c.ckpt.length then c.slotAt e else nullBlockId).any
      (· == blk) = true ↔ ∃ e < c.ckpt.length, c.slotAt e = blk := by
  rw [List.any_map, List.any_eq_true]
  constructor
  · rintro ⟨e, -, he⟩
    simp only [Function.comp_apply, beq_iff_eq] at he
    split_ifs at he with hlt
    · exact ⟨e, hlt, he⟩
    · unfold nullBlockId at he
      omega
  · rintro ⟨e, he, rfl⟩
    refine ⟨e, List.mem_range.mpr (lt_of_lt_of_le he c.length_le_expBlock), ?_⟩
    simp only [Function.comp_apply, if_pos he, beq_self_eq_true]

/-- A final row's programs store it unless its block is exported. -/
theorem stores_fusedFinals : Stores (grid c.n (L.statePrograms + L.convPrograms)
    (fusedOutProgram ws L c m)) key w ↔
    (∃ r < c.n, ∃ h < L.heads, ∃ vb < L.nvb, 0 < c.indices r ∧
    (∀ e < c.ckpt.length, c.slotAt e ≠ c.indices r) ∧
      (key, w) ∈ stateStore ws L (c.indices r) h (lanes 32 vb L.valueDim) fun v k =>
      ws.load32 (m (.stage (r + 1) h v k))) ∨
    Stores (finalRows L c m) key w := by
  let final r h vb : List (Addr × W) :=
    if 0 < c.indices r ∧ ∀ e < c.ckpt.length, c.slotAt e ≠ c.indices r then
      stateStore ws L (c.indices r) h (lanes 32 vb L.valueDim) fun v k =>
        ws.load32 (m (.stage (r + 1) h v k))
    else []
  have hprogram : ∀ r < c.n, ∀ p < L.statePrograms + L.convPrograms, fusedOutProgram ws L c m r p =
      if p < L.heads * L.nvb then final r (p / L.nvb) (p % L.nvb)
        else rowsOut L c m r (p - L.heads * L.nvb) := by
    intro r hr p _
    unfold fusedOutProgram
    simp only [if_pos hr]
    refine if_congr Iff.rfl (if_congr ?_ rfl rfl) rfl
    refine and_congr_right fun hblk => ?_
    rw [exported_iff hblk]
    simp only [hr, true_and, not_and, not_exists]
    exact ⟨fun h e he => h (by omega) e he, fun h _ => h⟩
  rw [stores_grid_congr hprogram]
  unfold Layer.statePrograms
  rw [stores_grid_parts (f := final)]
  refine or_congr ?_ Iff.rfl
  rw [stores_grid3]
  refine exists_congr fun r => and_congr_right fun _ => exists_congr fun h =>
    and_congr_right fun _ =>
    exists_congr fun vb => and_congr_right fun _ => ?_
  by_cases hw : 0 < c.indices r ∧ ∀ e < c.ckpt.length, c.slotAt e ≠ c.indices r
  · rw [show final r h vb = _ from if_pos hw, ← and_assoc, and_iff_right hw]
  · rw [show final r h vb = [] from if_neg hw, ← and_assoc]
    simp only [List.not_mem_nil, hw, false_and]

/-- An export's programs store it. -/
theorem stores_fusedExports : Stores (grid c.ckpt.length (L.statePrograms + L.convPrograms) fun e =>
    fusedOutProgram ws L c m (c.n + e)) key w ↔ Stores (exports ws L c m) key w := by
  let ex e h vb : List (Addr × W) := sideOut ws L m (c.exportBase - 1) (c.slotAt e) e h vb
  have hprogram : ∀ e < c.ckpt.length, ∀ p < L.statePrograms + L.convPrograms,
    fusedOutProgram ws L c m (c.n + e) p =
      if p < L.heads * L.nvb then ex e (p / L.nvb) (p % L.nvb) else [] := by
    intro e _ p _
    have hn : ¬ c.n + e < c.n := by omega
    have hrow : c.exportBase - 1 + e + 1 = c.exportBase + e := by
      unfold Call.exportBase
      omega
    unfold fusedOutProgram ex sideOut
    simp only [Nat.add_sub_cancel_left, hn, false_and, not_false_eq_true, and_true, hrow]
    rfl
  rw [stores_grid_congr hprogram]
  unfold Layer.statePrograms
  rw [stores_grid_parts (f := ex) (g := fun _ _ => [])]
  refine or_iff_left fun hs => ?_
  obtain ⟨x, -, y, -, hm⟩ := stores_grid.mp hs
  cases hm

/-- **The fused launch** stores the finals that no export overwrites, their convolution rows, and
the exports. -/
theorem stores_fusedOut : Stores (fusedOut ws L c m) key w ↔
    ((Stores (finals ws L c m) key w ∨ Stores (finalRows L c m) key w) ∧ ∀ w',
    ¬ Stores (exports ws L c m) key w') ∨ Stores (exports ws L c m) key w := by
  unfold fusedOut
  rw [stores_grid_rows, stores_fusedFinals, stores_fusedExports]
  refine or_congr ?_ Iff.rfl
  constructor
  · rintro (⟨r, hr, h, hh, vb, hvb, hblk, hno, hm⟩ | hs)
    · refine ⟨Or.inl (stores_finals.mpr ⟨r, hr, h, hh, vb, hvb, hblk, hm⟩), fun w' he => ?_⟩
      obtain ⟨e, he, h', -, vb', -, -, hm'⟩ := stores_exports.mp he
      have hkey := (stateStore_block hm).1.symm.trans (stateStore_block hm').1
      exact hno e he (Option.some.inj hkey).symm
    · refine ⟨Or.inr hs, fun w' he => ?_⟩
      obtain ⟨r, -, i, -, -, rfl, -⟩ := stores_finalRows.mp hs
      obtain ⟨e, -, h', -, vb', -, -, hm'⟩ := stores_exports.mp he
      have hkey := (stateStore_block hm').1
      exact (stateStore_block hm').2.1 i (by rw [← Option.some.inj hkey])
  · rintro ⟨hs | hs, hno⟩
    · obtain ⟨r, hr, h, hh, vb, hvb, hblk, hm⟩ := stores_finals.mp hs
      refine Or.inl ⟨r, hr, h, hh, vb, hvb, hblk, fun e he heq => ?_, hm⟩
      -- an export to the row's block stores to the same addresses
      obtain ⟨w', hw'⟩ := (stateStore_block hm).2.2 fun v k =>
        ws.load32 (m (.stage (c.exportBase + e) h v k))
      exact hno w' (stores_exports.mpr ⟨e, he, h, hh, vb, hvb, heq ▸ hblk, heq ▸ hw'⟩)
    · exact Or.inr hs

/-- Storing back leaves what is no block as it is. -/
theorem block_of_stores (hs : Stores (finals ws L c m) key w ∨ Stores (finalRows L c m) key w ∨
    Stores (exports ws L c m) key w) :
    ∃ blk, key.block = some blk ∧ 0 < blk ∧ ((∃ r < c.n, c.indices r = blk) ∨ ∃ e < c.ckpt.length,
    c.slotAt e = blk) := by
  rcases hs with hs | hs | hs
  · obtain ⟨r, hr, h, -, vb, -, hblk, hm⟩ := stores_finals.mp hs
    exact ⟨_, (stateStore_block hm).1, hblk, Or.inl ⟨r, hr, rfl⟩⟩
  · obtain ⟨r, hr, i, -, hblk, rfl, -⟩ := stores_finalRows.mp hs
    exact ⟨_, rfl, hblk, Or.inl ⟨r, hr, rfl⟩⟩
  · obtain ⟨e, he, h, -, vb, -, hblk, hm⟩ := stores_exports.mp hs
    exact ⟨_, (stateStore_block hm).1, hblk, Or.inr ⟨e, he, rfl⟩⟩

/-- The final states and their convolution rows go to different addresses. -/
theorem finals_ne_rows {w' : W} (hs : Stores (finals ws L c m) key w) :
    ¬ Stores (finalRows L c m) key w' := by
  intro hs'
  obtain ⟨r, -, h, -, vb, -, -, hm⟩ := stores_finals.mp hs
  obtain ⟨r', -, i, -, -, rfl, -⟩ := stores_finalRows.mp hs'
  have hkey := (stateStore_block hm).1
  exact (stateStore_block hm).2.1 i (by rw [← Option.some.inj hkey])

/-- **Staging out with one launch** may leave what a launch for each kind may. -/
theorem fusedOut_runs : Outcome (fusedOut ws L c m) m m' ↔ Runs (unfusedOut ws L c) m m' := by
  have hblock : ∀ {key : Addr} {w : W}, Stores (finals ws L c m) key w ∨
    Stores (finalRows L c m) key w → key.block ≠ none := by
    rintro key w (hs | hs) hnone
    · obtain ⟨blk, hblk, -⟩ := block_of_stores (Or.inl hs)
      rw [hnone] at hblk
      cases hblk
    · obtain ⟨blk, hblk, -⟩ := @block_of_stores _ _ ws _ _ _ _ _ (Or.inr (Or.inl hs))
      rw [hnone] at hblk
      cases hblk
  -- the first two launches, as one
  have hfirst : ∀ m₂, Outcome (finals ws L c m ++ finalRows L c m) m m₂ ↔
      ∃ m₁, Outcome (finals ws L c m) m m₁ ∧ Outcome (finalRows L c m) m₁ m₂ := by
    refine fun _ => outcome_seq fun key w => ?_
    rw [stores_append]
    exact or_congr (iff_self_and.mpr fun hs w' => finals_ne_rows hs) Iff.rfl
  have hall : Outcome (fusedOut ws L c m) m m' ↔
      ∃ m₂, Outcome (finals ws L c m ++ finalRows L c m) m m₂ ∧ Outcome (exports ws L c m) m₂ m' :=
    outcome_seq fun key w => by rw [stores_append, stores_fusedOut]
  -- each launch reads staged rows only, which the ones before it left alone
  have hconv : ∀ m₁, Outcome (finals ws L c m) m m₁ → finalRows L c m₁ = finalRows L c m := by
    intro m₁ h
    unfold finalRows
    exact congrArg _ (funext fun _ => funext fun _ => rowsOut_congr fun row i =>
      h.kept fun _ hs => hblock (Or.inl hs) rfl)
  have hexports : ∀ m₂, Outcome (finals ws L c m ++ finalRows L c m) m m₂ →
    exports ws L c m₂ = exports ws L c m := by
    intro m₂ h
    unfold exports
    exact congrArg _ (funext fun _ => funext fun _ => funext fun _ =>
      sideOut_congr fun row h' v k =>
      h.kept fun _ hs => hblock (stores_append.mp hs) rfl)
  rw [hall]
  show _ ↔ ∃ m₁, Outcome (finals ws L c m) m m₁ ∧ ∃ m₂, Outcome (finalRows L c m₁) m₁ m₂ ∧
    ∃ m₃, Outcome (exports ws L c m₂) m₂ m₃ ∧ m' = m₃
  constructor
  · rintro ⟨m₂, h₂, h₃⟩
    obtain ⟨m₁, h₁, h₁₂⟩ := (hfirst m₂).mp h₂
    exact ⟨m₁, h₁, m₂, (hconv m₁ h₁).symm ▸ h₁₂, m', (hexports m₂ h₂).symm ▸ h₃, rfl⟩
  · rintro ⟨m₁, h₁, m₂, h₁₂, m₃, h₃, rfl⟩
    rw [hconv m₁ h₁] at h₁₂
    have h₂ := (hfirst m₂).mpr ⟨m₁, h₁, h₁₂⟩
    exact ⟨m₂, h₂, hexports m₂ h₂ ▸ h₃⟩

/-- Stored values of one head's tile agree. -/
theorem stateStore_value {blk : Int} {h h' : Nat} {vs vs' : List Nat} {x : Nat → Nat → Nat → F}
    {w' : W} (hm : (key, w) ∈ stateStore ws L blk h vs (x h))
    (hm' : (key, w') ∈ stateStore ws L blk h' vs' (x h')) : w = w' := by
  rcases mem_stateStore.mp hm with ⟨v, -, k, -, rfl, rfl⟩ | ⟨v, -, k, -, hs, rfl, rfl⟩
  · rcases mem_stateStore.mp hm' with ⟨v', -, k', -, hkey, rfl⟩ | ⟨v', -, k', -, -, hkey, -⟩
    · cases hkey
      rfl
    · cases hkey
  · rcases mem_stateStore.mp hm' with ⟨v', -, k', -, hkey, -⟩ | ⟨v', -, k', -, hs', hkey, rfl⟩
    · cases hkey
    · simp only [Addr.side.injEq, true_and] at hkey
      obtain ⟨rfl, rfl, hslot⟩ := hkey
      rw [L.slot_inj h' k' k hs' (by omega)]

/-- No two rows have one destination, and no two exports. -/
def Call.Distinct (c : Call) : Prop :=
  (∀ r < c.n, ∀ r' < c.n, 0 < c.indices r → c.indices r = c.indices r' → r = r') ∧
    ∀ e < c.ckpt.length, ∀ e' < c.ckpt.length, 0 < c.slotAt e → c.slotAt e = c.slotAt e' → e = e'

/-- With distinct destinations no two programs store different values to an address. -/
theorem fusedOut_agree (hd : c.Distinct) {w' : W} (h : Stores (fusedOut ws L c m) key w)
    (h' : Stores (fusedOut ws L c m) key w') : w = w' := by
  have hexports : ∀ {w w' : W}, Stores (exports ws L c m) key w →
    Stores (exports ws L c m) key w' → w = w' := by
    intro w w' hs hs'
    obtain ⟨e, he, h, -, vb, -, hblk, hm⟩ := stores_exports.mp hs
    obtain ⟨e', he', h', -, vb', -, -, hm'⟩ := stores_exports.mp hs'
    have hkey := (stateStore_block hm).1.symm.trans (stateStore_block hm').1
    obtain rfl := hd.2 e he e' he' hblk (Option.some.inj hkey)
    exact stateStore_value (x := fun h v k =>
      ws.load32 (m (.stage (c.exportBase + e) h v k))) hm hm'
  rcases stores_fusedOut.mp h with ⟨hs | hs, hno⟩ | hs <;> rcases stores_fusedOut.mp
    h' with ⟨hs' | hs', hno'⟩ | hs'
  · obtain ⟨r, hr, h, -, vb, -, hblk, hm⟩ := stores_finals.mp hs
    obtain ⟨r', hr', h', -, vb', -, -, hm'⟩ := stores_finals.mp hs'
    have hkey := (stateStore_block hm).1.symm.trans (stateStore_block hm').1
    obtain rfl := hd.1 r hr r' hr' hblk (Option.some.inj hkey)
    exact stateStore_value (x := fun h v k => ws.load32 (m (.stage (r + 1) h v k))) hm hm'
  · exact absurd hs' (finals_ne_rows hs)
  · exact absurd hs' (hno _)
  · exact absurd hs (finals_ne_rows hs')
  · obtain ⟨r, hr, i, -, hblk, rfl, rfl⟩ := stores_finalRows.mp hs
    obtain ⟨r', hr', i', -, -, hkey, rfl⟩ := stores_finalRows.mp hs'
    simp only [Addr.convPool.injEq] at hkey
    obtain rfl := hd.1 r hr r' hr' hblk hkey.1.symm
    rw [hkey.2]
  · exact absurd hs' (hno _)
  · exact absurd hs (hno' _)
  · exact absurd hs (hno' _)
  · exact hexports hs hs'

end Out

/-! ## A call, fused and unfused

Staging in leaves one memory, the same for both calls, and so the work starts from one memory. From
its result the two ways of staging out may leave the same memories.
-/

section Calls

variable {ws : Words W F} {L : Layer} {c : Call} {m m' : Addr → W} {work : (Addr → W) → Addr → W}

theorem fusedCall_iff : fusedCall ws L c work m m' ↔
    Outcome (fusedOut ws L c (work (staged ws L c m))) (work (staged ws L c m)) m' := by
  unfold fusedCall
  simp only [fusedIn_outcome, exists_eq_left]

theorem unfusedCall_iff : unfusedCall ws L c work m m' ↔
    Runs (unfusedOut ws L c) (work (staged ws L c m)) m' := by
  unfold unfusedCall
  simp only [unfusedIn_runs, exists_eq_left]

/-- Staging in leaves the pools alone. -/
theorem staged_block {key : Addr} {blk : Int} (h : key.block = some blk) :
    staged ws L c m key = m key := by
  refine overlay_none ?_
  cases key <;> first | rfl | cases h

/-- A row is staged from the block that its index names. -/
theorem staged_row {r h v k : Nat} (hr : r < c.n) (hh : h < L.heads) (hv : v < L.valueDim)
    (hk : k < L.keyDim) :
    staged ws L c m (.stage (r + 1) h v k) = ws.store32 (stateLoad ws L m (c.indices r) h v k) := by
  refine overlay_some (inValue_eq_some.mpr (Or.inl (Or.inl ?_)))
  exact if_pos ⟨by omega, hr, hh, hv, hk⟩

theorem staged_initial {r : Nat} (hr : r < c.n) :
    staged ws L c m (.initial r) = ws.ofInt (if c.hasInitialState r then r + 1 else nullBlockId) :=
  overlay_some (inValue_eq_some.mpr (Or.inr (Or.inr (if_pos hr))))

/-- Staging does not write its null slot. -/
theorem staged_null {h v k : Nat} : staged ws L c m (.stage 0 h v k) = m (.stage 0 h v k) :=
  overlay_none rfl

/-- **A call with the fused launches and one with the unfused ones** may leave the same memories: at
least one, and only one where the destinations are distinct. Blocks that no row and no export names,
and those up to the null block, hold what the work left there. A row is staged from the block of its
index, also from the null block, and a row without an initial state starts from staging's null slot,
which holds what it held. -/
theorem staging_refines (ws : Words W F) (L : Layer) (c : Call) (work : (Addr → W) → Addr → W)
    (m : Addr → W) :
    (∀ m', fusedCall ws L c work m m' ↔ unfusedCall ws L c work m m') ∧
    (∃ m', fusedCall ws L c work m m') ∧
      (c.Distinct → ∀ m₁ m₂, fusedCall ws L c work m m₁ → fusedCall ws L c work m m₂ → m₁ = m₂) ∧
      (∀ m', fusedCall ws L c work m m' → ∀ key blk, key.block = some blk →
        (blk ≤ 0 ∨ ((∀ r < c.n, c.indices r ≠ blk) ∧ ∀ e < c.ckpt.length, c.slotAt e ≠ blk)) →
        m' key = work (staged ws L c m) key ∧ staged ws L c m key = m key) ∧
      ∀ r < c.n, (∀ h < L.heads, ∀ v < L.valueDim, ∀ k < L.keyDim,
          staged ws L c m (.stage (r + 1) h v k) =
            ws.store32 (stateLoad ws L m (c.indices r) h v k) ∧
            staged ws L c m (.stage 0 h v k) = m (.stage 0 h v k)) ∧
        staged ws L c m (.initial r) = ws.ofInt (if c.hasInitialState r then
          r + 1 else nullBlockId) := by
  refine ⟨fun m' => ?_, ?_, fun hd m₁ m₂ h₁ h₂ => ?_, fun m' h key blk hkey hblk =>
    ?_, fun r hr => ⟨?_, ?_⟩⟩
  · rw [fusedCall_iff, unfusedCall_iff, fusedOut_runs]
  · exact ⟨_, fusedCall_iff.mpr outcome_serial⟩
  · exact Outcome.unique (fun _ _ _ => fusedOut_agree hd) (fusedCall_iff.mp h₁)
      (fusedCall_iff.mp h₂)
  · refine ⟨(fusedCall_iff.mp h).kept fun w hs => ?_, staged_block hkey⟩
    have hstored : Stores (finals ws L c (work (staged ws L c m))) key w ∨
        Stores (finalRows L c (work (staged ws L c m))) key w ∨
        Stores (exports ws L c (work (staged ws L c m))) key w :=
      (stores_fusedOut.mp hs).elim (fun h => h.1.elim Or.inl fun h => Or.inr (Or.inl h)) fun h =>
        Or.inr (Or.inr h)
    obtain ⟨blk', hkey', hpos, hnamed⟩ := block_of_stores hstored
    obtain rfl := Option.some.inj (hkey.symm.trans hkey')
    rcases hblk with hle | ⟨hrows, hexports⟩
    · omega
    · rcases hnamed with ⟨r, hr, heq⟩ | ⟨e, he, heq⟩
      · exact hrows r hr heq
      · exact hexports e he heq
  · exact fun h hh v hv k hk => ⟨staged_row hr hh hv hk, staged_null⟩
  · exact staged_initial hr

end Calls

end Kernels

/-! ## One row -/

/-- Words that are their values. -/
def intWords : Words Int Int := ⟨id, id, id, id, id⟩

/-- One key channel, kept narrow. -/
def oneChannel : Layer where
  heads := 1
  valueDim := 1
  keyDim := 1
  slot _ _ := -1
  convElems := none
  heads_pos := Nat.one_pos
  valueDim_pos := Nat.one_pos
  slot_inj := by
    intro _ _ _ h
    omega

/-- A row of block 3 that the call exports to block 3 too, and a row of the null block, both with a
state. -/
def exportedFinal : Call where
  maxSeqs := 11
  exportRows := 7
  n := 2
  indices r := if r = 0 then 3 else 0
  hasInitialState _ := true
  numTokens := 2
  ckpt := [3]
  n_pos := Nat.two_pos
  n_le := by decide
  exports_le := by decide

/-- One memory is left, the same with either launches. -/
theorem exportedFinal_staged : ∃! m', fusedCall intWords oneChannel exportedFinal id
    (fun _ => 5) m' := by
  obtain ⟨-, ⟨m', hm'⟩, hunique, -⟩ := staging_refines intWords oneChannel
    exportedFinal id fun _ => 5
  exact ⟨m', hm', fun m₂ h₂ => hunique (by unfold Call.Distinct; decide) m₂ m' h₂ hm'⟩

/-- **A row of the null block does not read zeros**: it is staged with what the null block holds,
and its initial index is its staged row. -/
theorem null_row_reads : exportedFinal.indices 1 = nullBlockId ∧
    ∀ m₁, Outcome (fusedIn intWords oneChannel exportedFinal fun key =>
    if key = .main 0 0 0 0 then 7 else 0)
        (fun key => if key = .main 0 0 0 0 then 7 else 0) m₁ →
      m₁ (.stage 2 0 0 0) = 7 ∧ m₁ (.initial 1) = 2 := by
  refine ⟨rfl, fun m₁ h => ?_⟩
  rw [fusedIn_outcome.mp h]
  exact ⟨rfl, rfl⟩

end Ringside.KdaStaging

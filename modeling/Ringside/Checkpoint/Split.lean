import Mathlib.Logic.Function.Basic
import Ringside.ReplayBoundary.Plan

/-!
# The block-aligned split of a prefill chunk (`_mamba_block_aligned_split`)

Model of the scheduler's split. A prefill chunk ends where KDA state is cached: on the block grid,
or at the first mandatory stop whose state the chunk cannot export itself. The stops are the next
block boundary of a chunk that starts inside a block, the last cacheable block boundary, the
prompt's tail (the replay boundary where that feature applies) and the junction of a shared prefix.

* Each local variable of the source is a definition under its name (`chunkEnd`, `nextStop`,
  `lastStop`, `tailStop`, `junctionStop`), so that the function's branches can be compared one at a
  time. Where the source has a stop only under a condition, the definition is 0 without it, which
  lies in no chunk.
* The block sizes are positive, and a junction lies inside its request's tokens, because the lookup
  that finds it leaves the last one out: both are fields (`Config`, `Request`).
* What the speedup bridge allows (`alignment_limit`) and the configured limits are inputs.
* The plan table maps request ids to plans. A call clears the entry of its request before it plans,
  and only where checkpoints are enabled.
* `split` returns the chunk's length and the plan table. Lengths are natural numbers: a chunk that
  its alignment leaves nothing of has length 0.

Results:
* `chunkPlan_covers`: the end and the exports of a chunk, with what a planner promises of them.
* `chunkPlan_first`, `chunkPlan_of_not_mayExport`: a chunk that exports nothing ends at its first
  stop, and a chunk that may not export is one of these.
* `planStops_eq`: either planner returns the chunk's plan.
* `split_ok`: so does the split, and the plan table has its exports.

Out of scope: the scheduler around the call (`Speedup`, `MixedSplit`), and how a junction is found.
-/

namespace Ringside.Checkpoint

open Ringside.Checks

/-- The scheduler's fields that the split reads. -/
structure Config where
  enablePrefixCaching : Bool
  retentionInterval : Option Nat
  blockSize : Nat
  /-- `cache_config.block_size`. -/
  cacheBlockSize : Nat
  hashBlockSize : Nat
  useEagle : Bool
  hasPrefillCheckpointBlocks : Bool
  partialCacheHit : Bool
  longPrefillTokenThreshold : Nat
  /-- `_glm53_rb`. -/
  rb : Bool
  /-- `_glm53_ckpt_enabled`. -/
  ckptEnabled : Bool
  maxExports : Int
  blockSize_pos : 0 < blockSize
  cacheBlockSize_pos : 0 < cacheBlockSize
  hashBlockSize_pos : 0 < hashBlockSize

/-- The request's fields that the split reads. -/
structure Request (Rid : Type) where
  requestId : Rid
  numComputedTokens : Nat
  numPromptTokens : Nat
  numTokens : Nat
  numOutputTokens : Nat
  hasEncoderInputs : Bool
  sharedPrefixBoundary : Nat
  /-- `get_computed_blocks` looks up `num_tokens - 1` tokens at most. -/
  junction_lt : sharedPrefixBoundary < numTokens

/-- The arguments of a call, and what the bridge allows for it. -/
structure Offer where
  numNewTokens : Nat
  numNewLocalComputedTokens : Nat
  numExternalComputedTokens : Nat
  alignmentLimit : Nat

/-- `Plan`. -/
abbrev Plan := Nat × Nat × List Nat

section Positions

variable {Rid : Type} (c : Config) (r : Request Rid) (t : Offer)

/-- `start`. -/
def start : Nat := r.numComputedTokens + t.numNewLocalComputedTokens + t.numExternalComputedTokens

/-- `prefill_end`. -/
def prefillEnd : Nat := max r.numPromptTokens (r.numTokens - 1)

/-- `retain_checkpoints`. -/
def Config.retainCheckpoints : Bool := c.enablePrefixCaching && c.retentionInterval != some 0

/-- `block_size`. -/
def Config.block : Nat := if c.retainCheckpoints then c.blockSize else c.cacheBlockSize

/-- `use_internal_checkpoint`. -/
def useInternalCheckpoint : Bool := c.hasPrefillCheckpointBlocks && start r t % c.block == 0

/-- `last_cache_position`, before the replay boundary. -/
def lastCachePosition : Nat :=
  if useInternalCheckpoint c r t then 0
  else if c.useEagle then
    if c.retainCheckpoints then (r.numTokens - c.cacheBlockSize) / c.block * c.block
    else r.numTokens - r.numTokens % c.block - c.block
  else r.numTokens - r.numTokens % c.block

/-- `end`, aligned but before the stops. -/
def chunkEnd : Nat :=
  let stop := start r t + t.numNewTokens
  if stop < prefillEnd r ∧ ¬ useInternalCheckpoint c r t then
    let maxPrefillTokens :=
      if 0 < c.longPrefillTokenThreshold then min t.alignmentLimit c.longPrefillTokenThreshold
      else t.alignmentLimit
    let alignedEnd := stop / c.block * c.block
    if start r t < alignedEnd ∨ c.block ≤ maxPrefillTokens then alignedEnd else stop
  else stop

/-- `request_boundary`: `R(P)`, and whether it is a chunk stop. -/
def requestBoundary : Option (Nat × Nat) :=
  if !c.rb then none
  else if c.block ≠ c.blockSize ∨ t.numExternalComputedTokens ≠ 0 ∨ r.numOutputTokens ≠ 0 ∨
      r.numTokens ≠ r.numPromptTokens ∨ r.hasEncoderInputs then none
  else
    let tokens := ReplayBoundary.replayBoundary r.numPromptTokens c.hashBlockSize
    if tokens = 0 then none
    else some (tokens,
      if lastCachePosition c r t < tokens ∧ tokens < r.numPromptTokens then tokens else 0)

/-- `next_block_boundary`, for a chunk that starts inside a block and does not run on. -/
def nextStop : Nat :=
  if start r t % c.block ≠ 0 ∧ requestBoundary c r t = none then
    (start r t / c.block + 1) * c.block else 0

/-- `last_cache_position`; the replay boundary supersedes it where states are not exported. -/
def lastStop : Nat :=
  match requestBoundary c r t with
  | some (_, stop) => if stop ≠ 0 ∧ ¬ c.ckptEnabled then 0 else lastCachePosition c r t
  | none => lastCachePosition c r t

/-- `tail_boundary`. -/
def tailBoundary : Nat :=
  match requestBoundary c r t with
  | some (_, stop) => stop
  | none => if c.partialCacheHit then r.numPromptTokens / c.hashBlockSize * c.hashBlockSize else 0

/-- `tail_boundary` as a stop. -/
def tailStop : Nat :=
  if lastStop c r t < tailBoundary c r t ∧ tailBoundary c r t < r.numPromptTokens then
    tailBoundary c r t else 0

/-- The junction as a stop. -/
def junctionStop : Nat :=
  if start r t < r.sharedPrefixBoundary ∧ r.sharedPrefixBoundary < chunkEnd c r t then
    start r t + (r.sharedPrefixBoundary - start r t) / c.block * c.block
  else 0

/-- The mandatory stops besides the junction. -/
def otherStops : List Nat := [nextStop c r t, lastStop c r t, tailStop c r t]

/-- `stops`. -/
def stops : List Nat := otherStops c r t ++ [junctionStop c r t]

/-- The chunk may export states. -/
def mayExport : Bool :=
  c.ckptEnabled && c.block == c.blockSize &&
    (start r t % c.block == 0 || (requestBoundary c r t).isSome) &&
    t.numExternalComputedTokens == 0 && r.numOutputTokens == 0 &&
    r.numTokens == r.numPromptTokens &&
    !r.hasEncoderInputs

/-- The planner that applies. -/
def planStops : Except String (Nat × List Nat) :=
  match requestBoundary c r t with
  | some (tokens, _) =>
    ReplayBoundary.planChunk (start r t) (chunkEnd c r t) (stops c r t) c.block tokens c.maxExports
  | none => planChunk (start r t) (chunkEnd c r t) (stops c r t) c.block c.maxExports

end Positions

/-- `_mamba_block_aligned_split`: the chunk's length, and the plan table. -/
def split {Rid : Type} [DecidableEq Rid] (c : Config) (r : Request Rid) (t : Offer)
    (plans : Rid → Option Plan) :
    Except String (Nat × (Rid → Option Plan)) := do
  if prefillEnd r ≤ start r t then return (t.numNewTokens, plans)
  let plans := if c.ckptEnabled then Function.update plans r.requestId none else plans
  if mayExport c r t then
    let (ckptEnd, exports) ← planStops c r t
    if exports ≠ [] then
      return (ckptEnd - start r t, Function.update plans r.requestId
        (some (start r t, ckptEnd, exports)))
  return (earliest (start r t) (chunkEnd c r t) (stops c r t) - start r t, plans)

/-! ## The chunk that a split plans -/

section Chunk

variable {Rid : Type} (c : Config) (r : Request Rid) (t : Offer)

theorem Config.block_pos : 0 < c.block := by
  unfold Config.block
  split
  · exact c.blockSize_pos
  · exact c.cacheBlockSize_pos

/-- The replay boundary, or 0. -/
def boundaryTokens : Nat := (requestBoundary c r t).elim 0 Prod.fst

/-- The export limit; a chunk that may not export has none. -/
def exportLimit : Int := if mayExport c r t then c.maxExports else 0

/-- The walk over a list of stops. -/
def walk (l : List Nat) : Nat × List Nat :=
  walkStops (ReplayBoundary.exportable (start r t) c.block (boundaryTokens c r t))
    (exportLimit c r t)
    (chunkEnd c r t) 0 (inside (start r t) (chunkEnd c r t) l)

/-- **The chunk's end and exports.** -/
def chunkPlan : Nat × List Nat :=
  ReplayBoundary.settle c.block (boundaryTokens c r t) (walk c r t (stops c r t))

/-- The exports of the request's plan. -/
def exported (plans : Rid → Option Plan) : List Nat :=
  if c.ckptEnabled then (plans r.requestId).elim [] fun plan => plan.2.2 else []

variable {c r t}

theorem walkStops_no_exports {exportable : Nat → Bool} {limit : Int} {stop : Nat} {l : List Nat}
    (h : limit ≤ 0) :
    (walkStops exportable limit stop 0 l).2 = [] := by
  cases l with
  | nil => rfl
  | cons s l =>
    unfold walkStops
    rw [if_neg fun hc => absurd hc.2 (by push_cast; omega)]

theorem chunkPlan_covers (h : start r t < chunkEnd c r t) :
    Covers (start r t) (chunkEnd c r t) (stops c r t) (chunkPlan c r t).1 (chunkPlan c r t).2 :=
  ReplayBoundary.settle_covers (walk_covers h)

/-- A chunk that its alignment leaves nothing of. -/
theorem chunkPlan_empty (h : chunkEnd c r t ≤ start r t) :
    chunkPlan c r t = (chunkEnd c r t, []) := by
  have hnil : inside (start r t) (chunkEnd c r t) (stops c r t) = [] := by
    refine List.eq_nil_iff_forall_not_mem.mpr fun s hs => ?_
    have := (mem_inside.mp hs).2
    omega
  unfold chunkPlan walk
  rw [hnil]
  rfl

/-- Without exports the chunk ends at the first stop. -/
theorem chunkPlan_first (h : (chunkPlan c r t).2 = []) :
    (chunkPlan c r t).1 = earliest (start r t) (chunkEnd c r t) (stops c r t) := by
  rcases lt_or_ge (start r t) (chunkEnd c r t) with hlt | hge
  · exact (chunkPlan_covers hlt).first h
  · have hnil : inside (start r t) (chunkEnd c r t) (stops c r t) = [] := by
      refine List.eq_nil_iff_forall_not_mem.mpr fun s hs => ?_
      have := (mem_inside.mp hs).2
      omega
    rw [chunkPlan_empty hge, ← headD_inside, hnil]
    rfl

theorem settle_nil {grid boundary stopAt : Nat} :
    ReplayBoundary.settle grid boundary (stopAt, []) = (stopAt, []) := by
  simp [ReplayBoundary.settle]

/-- A chunk that may not export has no plan. -/
theorem chunkPlan_of_not_mayExport (h : mayExport c r t = false) : (chunkPlan c r t).2 = [] := by
  have hlimit : exportLimit c r t = 0 := by
    unfold exportLimit
    rw [h]
    rfl
  have hnil : (walk c r t (stops c r t)).2 = [] := walkStops_no_exports hlimit.le
  unfold chunkPlan
  rw [← Prod.mk.eta (p := walk c r t (stops c r t)), hnil, settle_nil]

/-- What the planner returns is the chunk's plan. -/
theorem planStops_eq (hexp : mayExport c r t) {plan : Nat × List Nat}
    (h : planStops c r t = .ok plan) :
    plan = chunkPlan c r t := by
  have hlimit : exportLimit c r t = c.maxExports := if_pos hexp
  have hrb : ∀ b, boundaryTokens c r t = b →
      ReplayBoundary.planChunk (start r t) (chunkEnd c r t) (stops c r t) c.block b
      c.maxExports = .ok plan →
      plan = chunkPlan c r t := by
    intro b hb h
    rw [ReplayBoundary.planChunk, bind_ok] at h
    obtain ⟨-, -, h⟩ := h
    rw [pure_ok] at h
    rw [← h, chunkPlan, walk, hlimit, hb]
  unfold planStops at h
  cases hreq : requestBoundary c r t with
  | some b =>
    rw [hreq] at h
    exact hrb b.1 (by rw [boundaryTokens, hreq]; rfl) h
  | none =>
    -- the boundary 0 is no stop inside a chunk
    rw [hreq] at h
    refine hrb 0 (by rw [boundaryTokens, hreq]; rfl) ?_
    rw [ReplayBoundary.planChunk_eq fun hin => absurd (mem_inside.mp hin).2.1 (Nat.not_lt_zero _)]
    exact h

variable [DecidableEq Rid] {plans plans' : Rid → Option Plan} {len : Nat}

/-- **A split returns the chunk's plan.** -/
theorem split_ok (hpre : start r t < prefillEnd r) (h : split c r t plans = .ok (len, plans')) :
    len = (chunkPlan c r t).1 - start r t ∧ exported c r plans' = (chunkPlan c r t).2 := by
  rw [split, if_neg (not_le.mpr hpre)] at h
  have hearliest : ∀ {plans' : Rid → Option Plan}, (chunkPlan c r t).2 = [] →
      (c.ckptEnabled → plans' r.requestId = none) →
      len = earliest (start r t) (chunkEnd c r t) (stops c r t) - start r t →
      len = (chunkPlan c r t).1 - start r t ∧ exported c r plans' = (chunkPlan c r t).2 := by
    intro plans' hnil hnone hlen
    refine ⟨by rw [chunkPlan_first hnil, hlen], ?_⟩
    unfold exported
    split
    · rw [hnone ‹_›, hnil]
      rfl
    · exact hnil.symm
  have hcleared : c.ckptEnabled →
      (if c.ckptEnabled then Function.update plans r.requestId none else plans)
      r.requestId = none := by
    intro hc
    rw [if_pos hc, Function.update_self]
  cases hexp : mayExport c r t with
  | false =>
    simp only [hexp, Bool.false_eq_true, if_false, pure_ok] at h
    cases h
    exact hearliest (chunkPlan_of_not_mayExport hexp) hcleared rfl
  | true =>
    simp only [hexp, if_true, bind_ok] at h
    obtain ⟨⟨ckptEnd, exports⟩, hplan, h⟩ := h
    have heq := planStops_eq hexp hplan
    have hckpt : c.ckptEnabled := by
      simp only [mayExport, Bool.and_eq_true] at hexp
      exact hexp.1.1.1.1.1.1
    by_cases hne : exports ≠ []
    · simp only [if_pos hne, pure_ok] at h
      cases h
      rw [← heq, exported, if_pos hckpt, Function.update_self]
      exact ⟨rfl, rfl⟩
    · simp only [if_neg hne, pure_ok] at h
      cases h
      exact hearliest (by rw [← heq]; exact not_not.mp hne) hcleared rfl

end Chunk

end Ringside.Checkpoint

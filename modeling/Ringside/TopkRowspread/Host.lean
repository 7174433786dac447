import Ringside.TopkRowspread.Runs
import Ringside.TopkRowspread.Threshold

/-!
# The launch of the persistent top-k (`topk.cu`)

The host sizes the chunks by the shared memory, takes as many groups as fit the device at once, and
leaves to another kernel what would not fit.

* `Device` is what the runtime says of the device. The occupancy of a kernel is its answer for a
  vector size and an amount of shared memory, or an error; an answer below one counts as one, as in
  the source.
* Each local variable of `launch_persistent_topk` is a definition under its name; `Refusal` are the
  three things that it throws, in the order of their tests.
* The workspace is cleared by the host before the launch (`Kernel.launch` starts there).
* Sizes and numbers of blocks do not wrap. A device with less than `kSmemMedium` a block
  (`cudaFuncSetAttribute` refuses every launch there) and a stride of zero are left to the
  hypotheses of `launch_sound`.
* What `FilteredTopKRaggedTransform` computes is not modelled.

## Results

* `launch_sound`: chunks that cover a row and fit the shared memory, groups that are resident
  together, states that fit the workspace.
* `persistentTopk_threshold`: the threshold of what the host launches is exact in quiet runs.
-/

namespace Ringside.TopkRowspread

/-- `kFixedSmemLarge`. -/
def kFixedSmemLarge : Nat := ((RADIX + RADIX + 5) * 4 + 15) / 16 * 16

/-- `kSmemMedium`: a header of 128-byte lines, and two buffers of `MAX_BUFFERED_ITEMS`. -/
def kSmemMedium : Nat := (2 * (RADIX + 128) * 4 + 5 * 4 + 127) / 128 * 128 + 2 * 4096 * 4

/-- `sizeof(RadixRowState)`. -/
def radixRowStateBytes : Nat := (3 * 256 + 4) * 4

/-- The device: `multiProcessorCount`, `sharedMemPerBlockOptin`, and the blocks of a kernel (by its
vector size and its shared memory) that one multiprocessor holds. -/
structure Device where
  numSms : Nat
  maxSmemPerBlock : Nat
  occupancy : Nat → Nat → Option Nat

/-- What `launch_persistent_topk` throws: the occupancy query failed; it would oversubscribe and the
fallback does not fit; the workspace is too small; a `k` that has no kernel. -/
inductive Refusal
  | occupancyQuery
  | oversubscribe (totalCtas cap : Nat)
  | workspace (need : Nat)
  | topK (k : Nat)
deriving DecidableEq

/-- The launch of the persistent kernel. -/
structure Plan where
  vecSize : Nat
  ctasPerGroup : Nat
  chunkSize : Nat
  smemSize : Nat
  numGroups : Nat
deriving DecidableEq

def Plan.totalCtas (plan : Plan) : Nat := plan.numGroups * plan.ctasPerGroup

/-- The kernel that is launched: `FilteredTopKRaggedTransform`, or the persistent one. -/
inductive Launch
  | filtered
  | persistent (plan : Plan)
deriving DecidableEq

section Geometry

variable (maxSmem numRows stride : Nat)

/-- `effective_max_smem`. -/
def effectiveMaxSmem : Nat :=
  if numRows ≤ 4 then min maxSmem kSmemMedium
    else if numRows ≤ 8 then min maxSmem (48 * 1024) else maxSmem

/-- `vec_size`. -/
def vecSize : Nat := if stride % 4 = 0 then 4 else if stride % 2 = 0 then 2 else 1

/-- `max_chunk_elements`, not below `min_chunk`. -/
def maxChunkElements : Nat :=
  max ((effectiveMaxSmem maxSmem numRows - kFixedSmemLarge) / 4 / vecSize stride * vecSize stride)
    (vecSize stride * kThreadsPerBlock)

/-- `ctas_per_group`. -/
def ctasPerGroup (maxChunk : Nat) : Nat := (stride + maxChunk - 1) / maxChunk

/-- `chunk_size`: the row in equal parts, in whole vectors. -/
def chunkSize (maxChunk : Nat) : Nat :=
  min (((stride + ctasPerGroup stride maxChunk - 1) / ctasPerGroup stride maxChunk + vecSize
    stride - 1) / vecSize stride *
    vecSize stride) maxChunk

/-- `smem_size`. -/
def smemSize (chunk : Nat) : Nat := max (kFixedSmemLarge + chunk * 4) kSmemMedium

end Geometry

/-- `headroom`: a block for each multiprocessor where that leaves some. -/
def headroom (dev : Device) (occupancy : Nat) : Nat := if 1 < occupancy then dev.numSms else 1

/-- `max_resident_ctas`. -/
def maxResidentCtas (dev : Device) (occupancy ctas : Nat) (needsCooperative : Bool) : Nat :=
  let cap := dev.numSms * occupancy
  if needsCooperative ∧ headroom dev occupancy + ctas ≤ cap then
    cap - headroom dev occupancy else cap

/-- `num_groups`. -/
def numGroups (resident ctas numRows : Nat) : Nat :=
  if min (resident / ctas) numRows = 0 then 1 else min (resident / ctas) numRows

/-- `launch_persistent_topk`. -/
def launchPersistentTopk (dev : Device) (workspace numRows stride maxSeqLen : Nat) :
    Except Refusal Launch :=
  if 32 < numRows ∧ 128 * 1024 ≤ dev.maxSmemPerBlock then .ok .filtered
  else
    let vec := vecSize stride
    let maxChunk := maxChunkElements dev.maxSmemPerBlock numRows stride
    let ctas := ctasPerGroup stride maxChunk
    let chunk := chunkSize stride maxChunk
    let smem := smemSize chunk
    match dev.occupancy vec smem with
    | none => .error .occupancyQuery
    | some answer =>
      let occupancy := max answer 1
      let needsCooperative := decide (radixThreshold < maxSeqLen)
      let groups := numGroups (maxResidentCtas dev occupancy ctas needsCooperative) ctas numRows
      if needsCooperative ∧ dev.numSms * occupancy < groups * ctas then
        if dev.maxSmemPerBlock < 128 * 1024 then
          .error (.oversubscribe (groups * ctas) (dev.numSms * occupancy))
        else .ok .filtered
      else if workspace < groups * radixRowStateBytes then
        .error (.workspace (groups * radixRowStateBytes))
      else .ok (.persistent ⟨vec, ctas, chunk, smem, groups⟩)

/-- `persistent_topk`. -/
def persistentTopk (dev : Device) (workspace numRows stride k maxSeqLen : Nat) :
    Except Refusal Launch :=
  if k = 512 ∨ k = 1024 ∨ k = 2048 then launchPersistentTopk dev workspace numRows stride maxSeqLen
    else .error (.topK k)

/-! ## Chunks -/

section Chunks

variable {maxSmem numRows stride maxChunk : Nat}

theorem vecSize_pos (stride : Nat) : 0 < vecSize stride := by
  unfold vecSize
  split_ifs <;> decide

theorem vecSize_dvd (stride : Nat) : vecSize stride ∣ stride := by
  unfold vecSize
  split_ifs with h4 h2
  · exact Nat.dvd_of_mod_eq_zero h4
  · exact Nat.dvd_of_mod_eq_zero h2
  · exact Nat.one_dvd _

theorem maxChunk_pos (maxSmem numRows stride : Nat) : 0 < maxChunkElements maxSmem numRows stride :=
  lt_max_of_lt_right (Nat.mul_pos (vecSize_pos stride) (by decide))

theorem vecSize_dvd_maxChunk : vecSize stride ∣ maxChunkElements maxSmem numRows stride := by
  unfold maxChunkElements
  rcases max_choice ((effectiveMaxSmem maxSmem numRows - kFixedSmemLarge) / 4 / vecSize
    stride * vecSize stride)
    (vecSize stride * kThreadsPerBlock) with h | h <;> rw [h]
  · exact Nat.dvd_mul_left _ _
  · exact Nat.dvd_mul_right _ _

theorem vecSize_dvd_chunk (hvec : vecSize stride ∣ maxChunk) :
    vecSize stride ∣ chunkSize stride maxChunk := by
  unfold chunkSize
  rcases min_choice (((stride + ctasPerGroup stride maxChunk - 1) / ctasPerGroup stride
    maxChunk + vecSize stride - 1) /
    vecSize stride * vecSize stride) maxChunk with h | h <;> rw [h]
  · exact Nat.dvd_mul_left _ _
  · exact hvec

theorem ceil_mul {a b : Nat} (hb : 0 < b) : a ≤ (a + b - 1) / b * b := by
  have h := Nat.lt_div_mul_add (a := a + b - 1) hb
  omega

/-- **The chunks of a group cover the row.** -/
theorem chunks_cover (hmax : 0 < maxChunk) : stride ≤ ctasPerGroup stride maxChunk * chunkSize
    stride maxChunk := by
  have hctas : stride ≤ ctasPerGroup stride maxChunk * maxChunk := ceil_mul hmax
  rcases Nat.eq_zero_or_pos (ctasPerGroup stride maxChunk) with hzero | hpos
  · rw [hzero, Nat.zero_mul] at hctas
    exact hctas.trans (Nat.zero_le _)
  have hpart : stride ≤ ctasPerGroup stride maxChunk *
    ((stride + ctasPerGroup stride maxChunk - 1) / ctasPerGroup stride maxChunk) := by
    rw [Nat.mul_comm]
    exact ceil_mul hpos
  unfold chunkSize
  rw [← Nat.mul_min_mul_left]
  exact le_min (hpart.trans (Nat.mul_le_mul_left _ (ceil_mul (vecSize_pos stride)))) hctas

/-- A chunk fits beside what the kernel keeps. -/
theorem maxChunk_fits (numRows stride : Nat) (hsmem : kSmemMedium ≤ maxSmem) :
    kFixedSmemLarge + maxChunkElements maxSmem numRows stride * 4 ≤ maxSmem := by
  have heffective : kSmemMedium ≤ effectiveMaxSmem maxSmem numRows ∧
    effectiveMaxSmem maxSmem numRows ≤ maxSmem := by
    unfold effectiveMaxSmem
    split_ifs
    · exact ⟨le_min hsmem le_rfl, Nat.min_le_left _ _⟩
    · exact ⟨le_min hsmem (by decide), Nat.min_le_left _ _⟩
    · exact ⟨hsmem, le_rfl⟩
  have hfixed : kFixedSmemLarge = 2080 := by decide
  have hmedium : kSmemMedium = 35968 := by decide
  have hthreads : kThreadsPerBlock = 1024 := rfl
  have hvec : vecSize stride ≤ 4 := by
    unfold vecSize
    split_ifs <;> decide
  have hround := Nat.div_mul_le_self ((effectiveMaxSmem maxSmem numRows - kFixedSmemLarge) / 4)
    (vecSize stride)
  unfold maxChunkElements
  rcases max_choice ((effectiveMaxSmem maxSmem numRows - kFixedSmemLarge) / 4 / vecSize
    stride * vecSize stride)
    (vecSize stride * kThreadsPerBlock) with h | h <;> rw [h]
  · omega
  · rw [hthreads]
    omega

end Chunks

/-! ## What is launched -/

section Launches

variable {dev : Device} {workspace numRows stride k maxSeqLen : Nat} {plan : Plan}

theorem numGroups_pos (resident ctas numRows : Nat) : 0 < numGroups resident ctas numRows := by
  unfold numGroups
  split_ifs with hzero
  · exact Nat.one_pos
  · exact Nat.pos_of_ne_zero hzero

/-- The groups that are taken are resident where one is. -/
theorem numGroups_mul_le (numRows : Nat) {resident ctas : Nat} (h : ctas ≤ resident) :
    numGroups resident ctas numRows * ctas ≤ resident := by
  unfold numGroups
  split_ifs with hzero
  · rwa [Nat.one_mul]
  · exact (Nat.mul_le_mul_right _ (Nat.min_le_left _ _)).trans (Nat.div_mul_le_self _ _)

/-- What a launch of the persistent kernel has passed. -/
theorem persistentTopk_ok
    (h : persistentTopk dev workspace numRows stride k maxSeqLen = .ok (.persistent plan)) :
    (k = 512 ∨ k = 1024 ∨ k = 2048) ∧ plan.vecSize = vecSize stride ∧
    plan.ctasPerGroup = ctasPerGroup stride (maxChunkElements dev.maxSmemPerBlock numRows stride) ∧
    plan.chunkSize = chunkSize stride (maxChunkElements dev.maxSmemPerBlock numRows stride) ∧
    plan.smemSize = smemSize plan.chunkSize ∧ plan.numGroups * radixRowStateBytes ≤ workspace ∧
    ∃ answer, dev.occupancy plan.vecSize plan.smemSize = some answer ∧
      plan.numGroups = numGroups (maxResidentCtas dev (max answer 1) plan.ctasPerGroup
        (decide (radixThreshold < maxSeqLen)))
        plan.ctasPerGroup numRows ∧
      (radixThreshold < maxSeqLen → plan.totalCtas ≤ dev.numSms * max answer 1) := by
  unfold persistentTopk at h
  by_cases hk : k = 512 ∨ k = 1024 ∨ k = 2048
  · rw [if_pos hk] at h
    unfold launchPersistentTopk at h
    split at h
    · cases h
    dsimp only at h
    cases hanswer : dev.occupancy (vecSize stride)
        (smemSize (chunkSize stride (maxChunkElements dev.maxSmemPerBlock numRows stride))) with
    | none =>
      rw [hanswer] at h
      cases h
    | some answer =>
      rw [hanswer] at h
      dsimp only at h
      split at h
      · split at h <;> cases h
      rename_i hover
      split at h
      · cases h
      rename_i hworkspace
      cases h
      refine ⟨hk, rfl, rfl, rfl, rfl, not_lt.mp hworkspace, answer, hanswer, rfl, fun hlong => ?_⟩
      exact not_lt.mp fun hlt => hover ⟨decide_eq_true hlong, hlt⟩
  · rw [if_neg hk] at h
    cases h

/-- **The launch is sound.** The chunks of a group cover the row, start at whole vectors and fit the
shared memory; the states fit the workspace; and where blocks wait for each other all of them are
resident, with a block to spare for every multiprocessor (or one) if that leaves a group. -/
theorem launch_sound
    (h : persistentTopk dev workspace numRows stride k maxSeqLen = .ok (.persistent plan))
    (hstride : 0 < stride) (hsmem : kSmemMedium ≤ dev.maxSmemPerBlock) :
    (0 < plan.ctasPerGroup ∧ stride ≤ plan.ctasPerGroup * plan.chunkSize) ∧
    (∀ row cta, plan.vecSize ∣ row * stride + cta * plan.chunkSize) ∧
    (kFixedSmemLarge + plan.chunkSize * 4 ≤ plan.smemSize ∧ plan.smemSize ≤ dev.maxSmemPerBlock) ∧
    (0 < plan.numGroups ∧ plan.numGroups * radixRowStateBytes ≤ workspace) ∧
    (radixThreshold < maxSeqLen → ∃ answer, dev.occupancy plan.vecSize plan.smemSize = some answer ∧
      plan.totalCtas ≤ dev.numSms * max answer 1 ∧
      (headroom dev (max answer 1) + plan.ctasPerGroup ≤ dev.numSms * max answer 1 →
        plan.totalCtas + headroom dev (max answer 1) ≤ dev.numSms * max answer 1)) := by
  obtain ⟨-, hvec, hctas, hchunk, hsmemSize, hworkspace, answer, hanswer, hgroups, hresident⟩ :=
    persistentTopk_ok h
  have hmax := maxChunk_pos dev.maxSmemPerBlock numRows stride
  have hcover : stride ≤ plan.ctasPerGroup * plan.chunkSize := by
    rw [hctas, hchunk]
    exact chunks_cover hmax
  refine ⟨⟨Nat.pos_of_ne_zero fun hzero => ?_, hcover⟩, fun row cta => ?_, ⟨?_, ?_⟩,
    ⟨?_, hworkspace⟩, fun hlong => ?_⟩
  · rw [hzero, Nat.zero_mul] at hcover
    omega
  · rw [hvec, hchunk]
    exact Nat.dvd_add (Dvd.dvd.mul_left (vecSize_dvd stride) row)
      (Dvd.dvd.mul_left (vecSize_dvd_chunk vecSize_dvd_maxChunk) cta)
  · rw [hsmemSize]
    exact Nat.le_max_left _ _
  · have hfits := maxChunk_fits numRows stride hsmem
    have hle : plan.chunkSize ≤ maxChunkElements dev.maxSmemPerBlock numRows stride := by
      rw [hchunk]
      exact Nat.min_le_right _ _
    rw [hsmemSize]
    exact max_le (by omega) hsmem
  · rw [hgroups]
    exact numGroups_pos _ _ _
  · refine ⟨answer, hanswer, hresident hlong, fun hroom => ?_⟩
    have hcap : maxResidentCtas dev (max answer 1) plan.ctasPerGroup
      (decide (radixThreshold < maxSeqLen)) =
        dev.numSms * max answer 1 - headroom dev (max answer 1) :=
        if_pos ⟨decide_eq_true hlong, hroom⟩
    rw [hcap] at hgroups
    have hle := numGroups_mul_le numRows
      (show plan.ctasPerGroup ≤ dev.numSms * max answer 1 - headroom dev (max answer 1) by omega)
    rw [← hgroups] at hle
    unfold Plan.totalCtas
    omega

/-- The parameters of a launch. -/
structure Launches (dev : Device) (workspace : Nat) (p : Params) : Prop where
  plan : ∃ plan : Plan, persistentTopk dev workspace p.numRows p.stride p.topK p.maxSeqLen =
    .ok (.persistent plan) ∧
    p.chunkSize = plan.chunkSize ∧ p.ctasPerGroup = plan.ctasPerGroup ∧ p.gridDim = plan.totalCtas

/-- **The threshold of what the host launches.** In every quiet run, a block on a radix row has in
every round the digits of the `topK`-th greatest key that are settled, and `remaining_k` is what is
left of `topK` below the keys with greater ones; the pivot it collects with is that key. -/
theorem persistentTopk_threshold {p : Params} {short : Nat → (Nat → Int) → Prop} {S : p.Schedule}
    {out₀ : Nat → Nat → Int} {t : State} (hl : Launches dev workspace p)
    (hbits : ∀ r i, p.input r i < 2 ^ 32) (ht : Reachable p short True S out₀ t)
    {c : Nat} (hc : c < p.totalCtas) {r : Nat} (hrow : (t.cta c).pc.row? = some r) :
    ∃! v, IsKth p r v ∧
      (∀ n pfx rem, (t.cta c).pc.round? = some (n, pfx, rem) → pfx = high (32 - n * 8) v ∧
        0 < rem ∧
        Nat.count (fun i => pfx + 2 ^ (32 - n * 8) ≤ p.key r i) (p.seqLen r) + rem = p.topK) ∧
      ∀ pivot, (t.cta c).pc.pivot? = some pivot → pivot = v := by
  obtain ⟨plan, hplan, hchunk, hctas, -⟩ := hl.plan
  obtain ⟨hk, -, hctas', hchunk', -⟩ := persistentTopk_ok hplan
  refine threshold_exact hbits ?_ ?_ ?_ ht trivial hc hrow
  · rw [hctas, hchunk, hctas', hchunk']
    exact chunks_cover (maxChunk_pos _ _ _)
  · rcases hk with hk | hk | hk <;> rw [hk] <;> decide
  · rcases hk with hk | hk | hk <;> rw [hk] <;> decide

/-- 48 multiprocessors with 99 KiB a block, and one block each. -/
def spark : Device := ⟨48, 101376, fun _ _ => some 1⟩

theorem sparkRow_ctas_pos : 0 < 6 := by decide

theorem sparkRow_ctas_le : 6 ≤ 24 := by decide

/-- A row of 40000 positions, on that device. -/
def sparkRow : Params where
  input r i := (r + 3 * i) % 7
  lengths _ := 40000
  numRows := 4
  stride := 50000
  topK := 512
  chunkSize := 8336
  ctasPerGroup := 6
  maxSeqLen := 40000
  gridDim := 24
  ctas_pos := sparkRow_ctas_pos
  ctas_le := sparkRow_ctas_le

theorem spark_launch : persistentTopk spark 1000000 sparkRow.numRows sparkRow.stride sparkRow.topK
    sparkRow.maxSeqLen =
    .ok (.persistent ⟨4, 6, 8336, 35968, 4⟩) := by decide +kernel

theorem spark_sound : 4 * 6 + headroom spark 1 ≤ 48 * 1 := by
  obtain ⟨answer, hanswer, -, hroom⟩ :=
    (launch_sound spark_launch (by decide) (by decide)).2.2.2.2 (by decide)
  obtain rfl : 1 = answer := Option.some.inj hanswer
  exact hroom (by decide)

/-- The first block enters the first row. -/
theorem sparkRow_threshold : ∃! v, IsKth sparkRow 0 v ∧
    (∀ n pfx rem, (Pc.entered 0).round? = some (n, pfx, rem) → pfx = high (32 - n * 8) v ∧ 0 < rem ∧
      Nat.count (fun i => pfx + 2 ^ (32 - n * 8) ≤ sparkRow.key 0 i) (sparkRow.seqLen 0) + rem =
      sparkRow.topK) ∧
    ∀ pivot, (Pc.entered 0).pivot? = some pivot → pivot = v := by
  have htasks : sparkRow.rowspread.tasks 0 = [.radix 0] := by decide
  have hstep := @Step.block sparkRow (fun _ _ => True) 0
    (TopkRowspread.launch sparkRow sparkRow.rowspread fun _ _ => 0) _
    (by decide) (by
      unfold TopkRowspread.launch
      dsimp only
      rw [htasks]
      exact CtaStep.enter)
  have hlaunch : Launches spark 1000000 sparkRow :=
    ⟨⟨⟨4, 6, 8336, 35968, 4⟩, spark_launch, rfl, rfl, rfl⟩⟩
  -- no block has an access left at the start
  have hreach : Reachable sparkRow (fun _ _ => True) True sparkRow.rowspread (fun _ _ => 0) _ :=
    .step .launch hstep fun _ => quiet_of_left fun _ _ => rfl
  exact persistentTopk_threshold hlaunch (fun r i => (Nat.mod_lt _ (by decide)).trans (by decide))
    hreach (show 0 < sparkRow.totalCtas by decide) rfl

end Launches

end Ringside.TopkRowspread

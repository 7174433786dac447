import Mathlib.Tactic

/-!
# The mixed-step marker (`glm53_sparse_mla/backend.py`)

The attention metadata of a batch says which of its leading rows belong to requests that are not
prefilling, read off the scheduler's CPU state. The MoE layer splits a step there (`Experts`).

* A batch is its requests in order, each with its phase and its tokens in this step, none included.
* Tensors are their values with what the guards look at: device, type, rank. Where a guard fails the
  mark is 0.
* `build` is the metadata builder as far as the MoE layer reads it; `Common.Of` says what of the
  common metadata is the batch's. It need not have the CPU tensors, and its token count is anything.
* `Knobs` are the switches of the launch, read once from the environment.

Results:
* `prefixSplit_rows`: a positive marker is the number of leading rows that are exactly those of the
  requests which are not prefilling.
* `prefixSplit_phase`: a batch of one phase is marked 0.
* `decodePrefixTokens_rows`: the same of the mark that the builder leaves, behind the guards.
-/

namespace Ringside.MixedSplit

/-- A request of a batch. -/
structure Request where
  prefilling : Bool
  queryLen : Nat

/-- The phases of the rows, in order. -/
def rowPhases (batch : List Request) : List Bool := batch.flatMap fun r =>
    List.replicate r.queryLen r.prefilling

/-- `query_start_loc`. -/
def queryStarts (batch : List Request) : List Int := batch.scanl (fun s r => s + r.queryLen) 0

/-- `_glm53_prefix_split`. -/
def prefixSplit (prefilling : List Bool) (starts : List Int) (numActualTokens : Int) : Int :=
  let n := prefilling.length
  if n = 0 ∨ starts.length ≠ n + 1 then 0
  else
    let decodes := (prefilling.filter fun p => !p).length
    if decodes = 0 ∨ decodes = n then 0
    else if (prefilling.take decodes).any id then -1
    else if (starts.zip starts.tail).any (fun ab => decide (ab.2 ≤ ab.1)) ∨
        starts.getD n 0 - starts.getD 0 0 ≠ numActualTokens then -1
    else starts.getD decodes 0 - starts.getD 0 0

/-- `is_prefilling`. -/
structure Flags where
  onCpu : Bool
  isBool : Bool
  ndim : Nat
  values : List Bool

/-- `query_start_loc_cpu`. -/
structure Starts where
  onCpu : Bool
  ndim : Nat
  values : List Int

/-- `CommonAttentionMetadata`. -/
structure Common where
  numReqs : Nat
  numActualTokens : Int
  isPrefilling : Option Flags
  queryStartLocCpu : Option Starts

/-- `_glm53_decode_prefix_tokens`. -/
def decodePrefixTokens (common : Common) : Int :=
  match common.isPrefilling, common.queryStartLocCpu with
  | some flags, some starts =>
    let n := common.numReqs
    if flags.onCpu ∧ flags.isBool ∧ flags.ndim = 1 ∧ 1 < n ∧ n ≤ flags.values.length ∧
      starts.onCpu ∧ starts.ndim = 1 ∧ n < starts.values.length then
      prefixSplit (flags.values.take n) (starts.values.take (n + 1)) common.numActualTokens
    else 0
  | _, _ => 0

/-- `_glm53_all_requests_prefilling`. -/
def allRequestsPrefilling (common : Common) : Bool :=
  match common.isPrefilling with
  | some flags => flags.onCpu && flags.isBool && flags.ndim == 1 && decide (0 < common.numReqs) &&
      decide (common.numReqs ≤ flags.values.length) && (flags.values.take common.numReqs).all id
  | none => false

/-- The marks of an attention metadata; other backends' have none. -/
structure Meta where
  /-- `glm53_moe_all_prefill`. -/
  allPrefill : Option Bool
  /-- `glm53_moe_decode_prefix_tokens`. -/
  decodePrefix : Option Int
  numActualTokens : Int

/-- The switches of the launch, from `B12X_GLM53_ATOMIC_PREFILL`, `B12X_GLM53_MIXED_SPLIT`,
`B12X_GLM53_MIXED_SPLIT_MIN_PREFILL` and `B12X_GLM53_ATOMIC_DECODE_MIN_ROWS`. -/
structure Knobs where
  atomicPrefill : Bool
  mixedSplit : Bool
  minPrefillEnv : Int
  minRowsEnv : Int

/-- `Glm53SparseMLAMetadataBuilder.build`: what the MoE layer reads of it. -/
def build (k : Knobs) (common : Common) : Meta where
  allPrefill := some (k.atomicPrefill && allRequestsPrefilling common)
  decodePrefix := some (if k.mixedSplit && k.atomicPrefill then decodePrefixTokens common else 0)
  numActualTokens := common.numActualTokens

/-- The common metadata of a batch; it need not have the CPU tensors, and its token count is
anything. -/
structure Common.Of (common : Common) (batch : List Request) : Prop where
  numReqs : common.numReqs = batch.length
  flags : ∀ flags, common.isPrefilling = some flags → flags.onCpu → flags.isBool → flags.ndim = 1 →
    batch.length ≤ flags.values.length → flags.values.take batch.length = batch.map
    Request.prefilling
  starts : ∀ starts, common.queryStartLocCpu = some starts → starts.onCpu → starts.ndim = 1 →
    batch.length < starts.values.length → starts.values.take (batch.length + 1) = queryStarts batch

/-! ## A positive marker -/

section Rows

variable {batch : List Request} {numActualTokens : Int}

/-- The tokens of some requests. -/
def tokens (batch : List Request) : Nat := (batch.map Request.queryLen).sum

theorem length_rowPhases : (rowPhases batch).length = tokens batch := by
  unfold rowPhases tokens
  simp only [List.length_flatMap, List.length_replicate]

theorem rowPhases_append (a b : List Request) : rowPhases (a ++ b) = rowPhases a ++ rowPhases b :=
    List.flatMap_append

/-- The rows of requests in one phase. -/
theorem rowPhases_phase {p : Bool} (h : ∀ r ∈ batch, r.prefilling = p) :
    rowPhases batch = List.replicate (tokens batch) p := by
  refine List.eq_replicate_iff.mpr ⟨length_rowPhases, fun x hx => ?_⟩
  obtain ⟨r, hr, hx⟩ := List.mem_flatMap.mp hx
  rw [(List.mem_replicate.mp hx).2, h r hr]

/-- A start is the number of tokens before. -/
theorem getD_queryStarts {i : Nat} (hi : i ≤ batch.length) :
    (queryStarts batch).getD i 0 = tokens (batch.take i) := by
  have hgen : ∀ (batch : List Request) (s : Int) (i : Nat), i ≤ batch.length →
      (batch.scanl (fun s r => s + (r.queryLen : Int)) s).getD i 0 = s + tokens (batch.take i) := by
    intro batch
    induction batch with
    | nil =>
      intro s i hi
      obtain rfl : i = 0 := by simpa using hi
      simp [tokens]
    | cons r rest ih =>
      intro s i hi
      cases i with
      | zero => simp [tokens]
      | succ i =>
        rw [List.scanl_cons, List.getD_cons_succ, ih _ i (by simpa using hi)]
        unfold tokens
        rw [List.take_succ_cons, List.map_cons, List.sum_cons]
        push_cast
        ring
  rw [show (queryStarts batch).getD i 0 = _ from hgen batch 0 i hi, zero_add]

/-- Flags of which the first `decodes` are unset, where so many are unset in all. -/
theorem phases_of_take {flags : List Bool}
    (h : (flags.take (flags.filter fun p => !p).length).any id = false) :
    (∀ p ∈ flags.take (flags.filter fun p => !p).length, p = false) ∧
      ∀ p ∈ flags.drop (flags.filter fun p => !p).length, p = true := by
  have htake : ∀ p ∈ flags.take (flags.filter fun p => !p).length, p = false := by
    intro p hp
    have hno := List.any_eq_false.mp h p hp
    simpa using hno
  refine ⟨htake, ?_⟩
  have hle := List.length_filter_le (fun p => !p) flags
  have hsplit := congrArg List.length (congrArg (List.filter fun p => !p)
    (List.take_append_drop (flags.filter fun p => !p).length flags))
  rw [List.filter_append, List.length_append, List.filter_eq_self.mpr fun p hp => by
    rw [htake p hp]; rfl, List.length_take, Nat.min_eq_left hle] at hsplit
  have hnil : ((flags.drop (flags.filter fun p => !p).length).filter fun p => !p) = [] :=
    List.length_eq_zero_iff.mp (by omega)
  intro p hp
  have hno := List.filter_eq_nil_iff.mp hnil p hp
  simpa using hno

/-- **A positive marker counts leading rows**: they are those of the requests that are not
prefilling, the rest are rows of prefilling requests, and the batch has as many tokens as it says.
-/
theorem prefixSplit_rows
    (h : 0 < prefixSplit (batch.map Request.prefilling) (queryStarts batch) numActualTokens) :
    ∃ d p : Nat, prefixSplit (batch.map Request.prefilling) (queryStarts batch)
      numActualTokens = d ∧ numActualTokens = d + p ∧ rowPhases batch = List.replicate d false ++
      List.replicate p true := by
  revert h
  unfold prefixSplit
  dsimp only
  rw [List.length_map]
  split_ifs with h1 h2 h3 h4
  · omega
  · omega
  · omega
  · omega
  · intro _
    have hphases := phases_of_take (Bool.not_eq_true _ ▸ h3)
    set d := ((batch.map Request.prefilling).filter fun p => !p).length with hd
    have hle : d ≤ batch.length := by
      have := List.length_filter_le (fun p => !p) (batch.map Request.prefilling)
      rwa [List.length_map] at this
    rw [not_or, not_not] at h4
    have htake : rowPhases (batch.take d) = List.replicate (tokens (batch.take d)) false :=
      rowPhases_phase fun r hr => hphases.1 _ (by
        rw [← List.map_take]; exact List.mem_map_of_mem hr)
    have hdrop : rowPhases (batch.drop d) = List.replicate (tokens (batch.drop d)) true :=
      rowPhases_phase fun r hr => hphases.2 _ (by
        rw [← List.map_drop]; exact List.mem_map_of_mem hr)
    have htokens : tokens batch = tokens (batch.take d) + tokens (batch.drop d) := by
      conv_lhs => rw [← List.take_append_drop d batch]
      unfold tokens
      rw [List.map_append, List.sum_append]
    have hzero : tokens (batch.take 0) = 0 := rfl
    refine ⟨tokens (batch.take d), tokens (batch.drop d), ?_, ?_, ?_⟩
    · rw [getD_queryStarts hle, getD_queryStarts (Nat.zero_le _), hzero]
      omega
    · rw [← h4.2, getD_queryStarts le_rfl, getD_queryStarts (Nat.zero_le _), hzero,
        List.take_length, htokens]
      push_cast
      omega
    · rw [← htake, ← hdrop, ← rowPhases_append, List.take_append_drop]

/-- A batch of one phase is marked 0. -/
theorem prefixSplit_phase {starts : List Int} {p : Bool} (h : ∀ r ∈ batch, r.prefilling = p) :
    prefixSplit (batch.map Request.prefilling) starts numActualTokens = 0 := by
  have hall : ∀ x ∈ batch.map Request.prefilling, x = p := by
    intro x hx
    obtain ⟨r, hr, rfl⟩ := List.mem_map.mp hx
    exact h r hr
  unfold prefixSplit
  dsimp only
  split_ifs with h1 h2 h3 h4
  · rfl
  · rfl
  all_goals
    refine absurd ?_ h2
    cases p with
    | true =>
      left
      rw [List.filter_eq_nil_iff.mpr fun x hx => by rw [hall x hx]; decide]
      rfl
    | false =>
      right
      rw [List.filter_eq_self.mpr fun x hx => by rw [hall x hx]; rfl]

/-! ## The marks of a batch -/

variable {common : Common}

/-- **A positive mark**, as `prefixSplit_rows` says. -/
theorem decodePrefixTokens_rows (hof : common.Of batch) (h : 0 < decodePrefixTokens common) :
    ∃ d p : Nat, decodePrefixTokens common = d ∧ common.numActualTokens = d + p ∧
      rowPhases batch = List.replicate d false ++ List.replicate p true := by
  revert h
  unfold decodePrefixTokens
  split
  · rename_i flags starts hf hs
    dsimp only
    split_ifs with hg
    · obtain ⟨h1, h2, h3, -, h5, h6, h7, h8⟩ := hg
      rw [hof.numReqs] at h5 h8 ⊢
      rw [hof.flags flags hf h1 h2 h3 h5, hof.starts starts hs h6 h7 h8]
      exact prefixSplit_rows
    · omega
  · omega

theorem decodePrefixTokens_phase (hof : common.Of batch) {p : Bool}
    (h : ∀ r ∈ batch, r.prefilling = p) :
    decodePrefixTokens common = 0 := by
  unfold decodePrefixTokens
  split
  · rename_i flags starts hf hs
    dsimp only
    split_ifs with hg
    · obtain ⟨h1, h2, h3, -, h5, -⟩ := hg
      rw [hof.numReqs] at h5 ⊢
      rw [hof.flags flags hf h1 h2 h3 h5]
      exact prefixSplit_phase h
    · rfl
  · rfl

/-- The phase marker is set only where every request prefills, and is set there where the CPU flags
are. -/
theorem allRequestsPrefilling_iff (hof : common.Of batch) : allRequestsPrefilling common = true ↔
    (∃ flags, common.isPrefilling = some flags ∧ flags.onCpu ∧ flags.isBool ∧ flags.ndim = 1 ∧
      batch.length ≤ flags.values.length) ∧ batch ≠ [] ∧ ∀ r ∈ batch, r.prefilling = true := by
  unfold allRequestsPrefilling
  cases hf : common.isPrefilling with
  | none => simp
  | some flags =>
    simp only [Bool.and_eq_true, decide_eq_true_eq, beq_iff_eq, hof.numReqs, Option.some.injEq,
      exists_eq_left', and_assoc, List.length_pos_iff]
    constructor
    · rintro ⟨h1, h2, h3, hne, h5, hall⟩
      rw [hof.flags flags hf h1 h2 h3 h5] at hall
      exact ⟨h1, h2, h3, h5, hne, fun r hr => List.all_eq_true.mp hall _ (List.mem_map_of_mem hr)⟩
    · rintro ⟨h1, h2, h3, h5, hne, hall⟩
      refine ⟨h1, h2, h3, hne, h5, ?_⟩
      rw [hof.flags flags hf h1 h2 h3 h5, List.all_eq_true]
      intro x hx
      obtain ⟨r, hr, rfl⟩ := List.mem_map.mp hx
      exact hall r hr

end Rows

end Ringside.MixedSplit

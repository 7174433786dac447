import Ringside.Checks
import Ringside.Dict
import Ringside.MixedSplit.Marker

/-!
# Mixed steps in the MoE layer (`fused_moe/b12x.py`)

A launch of the layer runs a plan, deterministic or atomic. A step that mixes decoding and
prefilling requests may be split: its leading rows run the plan of a decode batch, the others that
of a prefill batch. `apply` may be called many times in one forward, and the workspace is reserved
before.

* The kernels are a parameter (`FusedMoe`): a plan for a key, the scratch it needs, and what it
  computes for a row.
* A forward is its context, read-only but for the decision that is cached in it (`Seen`). A layer's
  plans are made from their keys (`Plans`).
* `reason` has the branches of `_glm53_decide_mixed_split` in order; `decideMixedSplit` is their
  value and what they count.
* `apply` returns the launches that it made with their rows, and the output; the checks on the
  workspace raise.
* Logging is left out, not the counters behind it.

Results:
* `decision_during`: every call in one forward decides alike.
* `decision_ne_zero`: what a split forward is like.
* `apply_split`, `apply_whole`: what a split step computes, and what any other.
* `apply_of_reserved`: what was reserved is enough, whatever the calls in between.
* `mixed_split_sound`: the split against the batches it imitates: its leading rows are those of the
  decoding requests.

Out of scope: the arithmetic of the plans.
-/

namespace Ringside.MixedSplit

open Ringside.Checks

/-- `quant_mode`. -/
inductive QuantMode where
  | w4a8Mx
  | w4a16
  | nvfp4
  | w4a8Nvfp4
  deriving DecidableEq

/-- `CUDAGraphMode`. -/
inductive GraphMode where
  | none
  | piecewise
  | full
  deriving DecidableEq

/-- The forward context, as the layer sees it. -/
structure Forward where
  /-- `is_forward_context_available`. -/
  available : Bool
  /-- `_is_current_stream_capturing`. -/
  capturing : Bool
  mode : GraphMode
  /-- The values of `attn_metadata`, where it is a dictionary. -/
  attnMetadata : Option (List Meta)
  /-- Whether the context takes an attribute. -/
  takesAttr : Bool

/-- How a mixed forward was decided. -/
inductive Reason where
  | split
  | belowMinPrefill
  | notLeading
  | atomicDecode
  deriving DecidableEq

/-- What decisions write: the attribute of the context, and `_GLM53_MIXED_SPLIT_COUNTS`. -/
structure Seen where
  decided : Option (Int × Int)
  counts : Reason → Nat

section Policy

variable (k : Knobs) (f : Forward)

/-- `_GLM53_MIXED_SPLIT_MIN_PREFILL`. -/
def Knobs.minPrefill : Int := max 128 k.minPrefillEnv

/-- `_GLM53_ATOMIC_DECODE_MIN_ROWS`. -/
def Knobs.atomicDecodeMinRows : Int := max 0 k.minRowsEnv

/-- `_glm53_use_atomic_prefill`. -/
def useAtomicPrefill (tokens : Int) (q : QuantMode) : Bool :=
  if !k.atomicPrefill ∨ q ≠ .nvfp4 ∨ tokens < 128 then false
  else if !f.available ∨ f.capturing then false
  else if f.mode ≠ .none then false
  else
    match f.attnMetadata with
    | none => false
    | some values =>
      let marked := values.filterMap Meta.allPrefill
      !marked.isEmpty && marked.all id

/-- `_glm53_atomic_decode`. -/
def atomicDecode (tokens : Int) (q : QuantMode) : Bool :=
  decide (0 < k.atomicDecodeMinRows) && decide (q = .nvfp4) &&
    decide (k.atomicDecodeMinRows ≤ tokens)

/-- The reason of `_glm53_decide_mixed_split`. -/
def reason (decode actual : Int) : Reason :=
  if decode < 0 then .notLeading
  else if actual - decode < k.minPrefill then .belowMinPrefill
  else if atomicDecode k decode .nvfp4 then .atomicDecode
  else .split

/-- `_glm53_decide_mixed_split`, with the reason that is counted. -/
def decideMixedSplit (metadata : Option (List Meta)) : (Int × Int) × Option Reason :=
  match metadata with
  | none => ((0, 0), none)
  | some values =>
    match (values.filterMap fun m => m.decodePrefix.map fun d => (d, m.numActualTokens)).dedup with
    | [(decode, actual)] =>
      if decode = 0 then ((0, 0), none)
      else if reason k decode actual = .split then ((decode, actual), some .split)
      else ((0, 0), some (reason k decode actual))
    | _ => ((0, 0), none)

/-- `_GLM53_MIXED_SPLIT_COUNTS[reason] += 1`. -/
def count (counts : Reason → Nat) : Option Reason → Reason → Nat
  | none => counts
  | some r => Function.update counts r (counts r + 1)

/-- `_glm53_mixed_split_rows`. -/
def mixedSplitRows (tokens : Int) (q : QuantMode) (st : Seen) : Int × Seen :=
  if !(k.mixedSplit && k.atomicPrefill) ∨ q ≠ .nvfp4 then (0, st)
  else if !f.available ∨ f.capturing then (0, st)
  else if f.mode ≠ .none then (0, st)
  else
    let (decided, st) := match st.decided with
      | some decided => (decided, st)
      | none =>
        let (decided, r) := decideMixedSplit k f.attnMetadata
        (decided, ⟨if f.takesAttr then some decided else none, count st.counts r⟩)
    if decided.1 ≤ 0 ∨ tokens < decided.2 then (0, st) else (decided.1, st)

end Policy

/-! ## Plans and launches

The planned kernels are a parameter: a plan is some value, made from a key, that computes rows. What
`apply` does is recorded as the list of its launches, each a plan on a range of rows, next to the
output that they leave.
-/

/-- The key of a plan. -/
structure Key (Act : Type) where
  tokens : Int
  topk : Nat
  activation : Act
  applyRouterWeight : Bool
  atomic : Bool
  deriving DecidableEq

/-- A scratch buffer that a plan asks for. -/
structure Spec where
  isUint8 : Bool
  nbytes : Nat

/-- The planned kernels of one layer: `fused_moe.plan` on the layer's weights, a plan's scratch, and
its rows. -/
structure FusedMoe (Act Plan Row Out : Type) where
  plan : Key Act → Plan
  scratchSpecs : Plan → List Spec
  run : Plan → Row → Out

/-- `_plans`: plans made from their keys. -/
structure Plans {Act Plan Row Out : Type} [DecidableEq Act] (api : FusedMoe Act Plan Row Out) where
  dict : Dict (Key Act) Plan
  made : ∀ key p, dict.get? key = some p → p = api.plan key

/-- A launch: a plan on the rows from `lo` to `hi`. -/
structure Launch (Plan : Type) where
  plan : Plan
  lo : Nat
  hi : Nat

/-- The constants of a layer. -/
structure Layer where
  quantMode : QuantMode
  applyRouterWeight : Bool
  /-- `in_dtype.itemsize`. -/
  itemsize : Nat
  itemsize_pos : 0 < itemsize

/-- `workspace2`. -/
structure Workspace where
  contiguous : Bool
  nbytes : Nat

/-- The arguments of `apply`: each row is its hidden state with its routing. -/
structure Call (Act Row Out : Type) where
  rows : List Row
  output : List Out
  topk : Nat
  activation : Act
  hasExpertMap : Bool
  applyRouterWeight : Bool
  /-- The routing tensors need no conversion. -/
  normalized : Bool
  workspace2 : Option Workspace
  length_output : output.length = rows.length

section Experts

variable {Act Plan Row Out : Type} [DecidableEq Act] {api : FusedMoe Act Plan Row Out}

/-- `self._plans[key] = plan`. -/
def Plans.add (plans : Plans api) (key : Key Act) : Plans api where
  dict := plans.dict.set key (api.plan key)
  made key' p h := by
    by_cases hk : key' = key
    · rw [hk, Dict.get?_set_self] at h
      rw [hk, Option.some.inj h]
    · rw [Dict.get?_set_of_ne hk] at h
      exact plans.made key' p h

variable (k : Knobs) (L : Layer) (f : Forward)

/-- `_plan`. -/
def plan (plans : Plans api) (tokens : Int) (topk : Nat) (activation : Act)
    (applyRouterWeight : Bool)
    (atomicPrefill : Option Bool) : Except String (Plan × Plans api) :=
  let atomic := atomicPrefill.getD (useAtomicPrefill k f tokens L.quantMode ||
    atomicDecode k tokens L.quantMode)
  let key : Key Act := ⟨max tokens 1, topk, activation, applyRouterWeight, atomic⟩
  match plans.dict.get? key with
  | some p => .ok (p, plans)
  | none =>
    if f.capturing then .error "b12x MoE plans must be created before CUDA capture"
    else .ok (api.plan key, plans.add key)

/-- `_b12x_scratch_nbytes`. -/
def scratchNbytes (api : FusedMoe Act Plan Row Out) (p : Plan) : Except String Nat :=
  match api.scratchSpecs p with
  | [spec] =>
    if spec.isUint8 then .ok spec.nbytes else .error "expected b12x MoE scratch dtype uint8"
  | _ => .error "expected one b12x MoE scratch buffer"

/-- `_mixed_split_plans`. -/
def mixedSplitPlans (plans : Plans api) (tokens decode : Int) (topk : Nat) (activation : Act)
    (applyRouterWeight : Bool) :
    Except String ((Plan × Plan) × Plans api) := do
  let (decodePlan, plans) ← plan k L f plans decode topk activation applyRouterWeight (some false)
  let (prefillPlan, plans) ← plan k L f plans (tokens - decode) topk activation
    applyRouterWeight (some true)
  .ok ((decodePlan, prefillPlan), plans)

/-- `workspace_shapes`: the elements of the scratch, and the shape of the output. -/
def workspaceShapes (plans : Plans api) (st : Seen) (m kdim topk : Nat) (activation : Act) :
    Except String ((Nat × Nat × Nat) × Plans api × Seen) := do
  let (decode, st) := mixedSplitRows k f m L.quantMode st
  let (nbytes, plans) ←
    if decode ≠ 0 then do
      let ((decodePlan, prefillPlan), plans) ← mixedSplitPlans k L f plans m decode topk activation
        L.applyRouterWeight
      let a ← scratchNbytes api decodePlan
      let b ← scratchNbytes api prefillPlan
      .ok (max a b, plans)
    else do
      let (p, plans) ← plan k L f plans m topk activation L.applyRouterWeight none
      let nbytes ← scratchNbytes api p
      .ok (nbytes, plans)
  .ok ((max 1 ((nbytes + L.itemsize - 1) / L.itemsize), m, kdim), plans, st)

/-- `_workspace_as_b12x_scratch`: the whole workspace, if it holds what the plan needs. -/
def workspaceAsScratch (api : FusedMoe Act Plan Row Out) (workspace : Option Workspace) (p : Plan) :
    Except String Unit :=
  match workspace with
  | none => .error "b12x MoE requires workspace2 scratch"
  | some w => do
    if !w.contiguous then .error "b12x MoE workspace2 must be contiguous"
    else
      let required ← scratchNbytes api p
      if w.nbytes < required then .error "b12x MoE workspace2 is too small" else .ok ()

/-- `_run_b12x_moe_plan` on a slice of the rows. -/
def runPlan (api : FusedMoe Act Plan Row Out) (rows : List Row) (output : List Out)
    (l : Launch Plan) : List Out :=
  output.take l.lo ++ ((rows.take l.hi).drop l.lo).map (api.run l.plan) ++ output.drop l.hi

/-- What `apply` did: its launches in order, and the output they left. -/
structure Applied (Plan Out : Type) where
  launches : List (Launch Plan)
  output : List Out

/-- The launches of `apply`, run in order. -/
def runAll (api : FusedMoe Act Plan Row Out) (c : Call Act Row Out)
    (launches : List (Launch Plan)) : Applied Plan Out :=
  ⟨launches, launches.foldl (runPlan api c.rows) c.output⟩

/-- `apply`. -/
def apply (plans : Plans api) (st : Seen) (c : Call Act Row Out) :
    Except String (Applied Plan Out × Plans api × Seen) := do
  if c.hasExpertMap then .error "b12x TP MoE does not support expert maps"
  else if c.applyRouterWeight ≠ L.applyRouterWeight then
    .error "apply_router_weight_on_input does not match the prepared b12x MoE plan"
  else if !c.normalized ∧ f.capturing then
    .error "b12x MoE normalization would allocate during CUDA capture"
  else
    let (decode, st) := mixedSplitRows k f c.rows.length L.quantMode st
    if decode ≠ 0 then do
      let ((decodePlan, prefillPlan), plans) ←
        mixedSplitPlans k L f plans c.rows.length decode c.topk c.activation c.applyRouterWeight
      workspaceAsScratch api c.workspace2 decodePlan
      workspaceAsScratch api c.workspace2 prefillPlan
      -- `_glm53_run_mixed_split`: `slice(0, decode)`, then `slice(decode, None)`
      let launches := [⟨decodePlan, 0, decode.toNat⟩, ⟨prefillPlan, decode.toNat, c.rows.length⟩]
      .ok (runAll api c launches, plans, st)
    else do
      let (p, plans) ← plan k L f plans c.rows.length c.topk c.activation c.applyRouterWeight none
      workspaceAsScratch api c.workspace2 p
      .ok (runAll api c [⟨p, 0, c.rows.length⟩], plans, st)

end Experts

/-! ## One decision a forward

The first call of a forward decides and leaves the decision at the context; the calls after it read
it there. `During` is the states in between, and what is cached in them is the decision on the
forward's metadata.
-/

section Decision

variable {k : Knobs} {f : Forward} {st : Seen} {tokens : Int} {q : QuantMode}

/-- What a call on `tokens` rows decides. -/
def decision (k : Knobs) (f : Forward) (tokens : Int) (q : QuantMode) : Int :=
  if !(k.mixedSplit && k.atomicPrefill) ∨ q ≠ .nvfp4 then 0
  else if !f.available ∨ f.capturing then 0
  else if f.mode ≠ .none then 0
  else
    let decided := (decideMixedSplit k f.attnMetadata).1
    if decided.1 ≤ 0 ∨ tokens < decided.2 then 0 else decided.1

/-- The states of one forward: its context is fresh, and its calls decide. -/
inductive During (k : Knobs) (f : Forward) : Seen → Prop
  | fresh (counts : Reason → Nat) : During k f ⟨none, counts⟩
  | call {st : Seen} (tokens : Int) (q : QuantMode) : During k f st →
      During k f (mixedSplitRows k f tokens q st).2

/-- What is cached is the decision on the forward's metadata. -/
def Seen.Sound (k : Knobs) (f : Forward) (st : Seen) : Prop :=
  ∀ decided, st.decided = some decided → decided = (decideMixedSplit k f.attnMetadata).1

theorem mixedSplitRows_sound (h : st.Sound k f) :
    (mixedSplitRows k f tokens q st).1 = decision k f tokens q ∧
    (mixedSplitRows k f tokens q st).2.Sound k f := by
  have hdecided : ∃ st₁ : Seen, st₁.Sound k f ∧
      (match st.decided with
      | some decided => (decided, st)
      | none =>
        let (decided, r) := decideMixedSplit k f.attnMetadata
        (decided, ⟨if f.takesAttr then some decided else none, count st.counts r⟩)) =
        ((decideMixedSplit k f.attnMetadata).1, st₁) := by
    cases hd : st.decided with
    | some decided => exact ⟨st, h, by rw [h decided hd]⟩
    | none =>
      refine ⟨_, fun decided hdec => ?_, rfl⟩
      dsimp only at hdec
      split_ifs at hdec
      exact (Option.some.inj hdec).symm
  obtain ⟨st₁, hst₁, heq⟩ := hdecided
  unfold mixedSplitRows decision
  rw [heq]
  dsimp only
  split_ifs <;> exact ⟨rfl, by assumption⟩

theorem During.sound (h : During k f st) : st.Sound k f := by
  induction h with
  | fresh counts => exact nofun
  | call tokens q _ ih => exact (mixedSplitRows_sound ih).2

/-- **Every call in one forward decides alike.** -/
theorem decision_during (h : During k f st) :
    (mixedSplitRows k f tokens q st).1 = decision k f tokens q :=
  (mixedSplitRows_sound h.sound).1

/-- The one mark of the metadata. -/
def OneMark (values : List Meta) (decode actual : Int) : Prop :=
  (∃ m ∈ values, m.decodePrefix = some decode ∧ m.numActualTokens = actual) ∧
    ∀ m ∈ values, ∀ d, m.decodePrefix = some d → d = decode ∧ m.numActualTokens = actual

theorem oneMark_of_dedup {values : List Meta} {decode actual : Int}
    (h : (values.filterMap fun m => m.decodePrefix.map fun d => (d, m.numActualTokens)).dedup =
      [(decode, actual)]) :
    OneMark values decode actual := by
  have hmem : ∀ x, x ∈ values.filterMap (fun m => m.decodePrefix.map fun d =>
    (d, m.numActualTokens)) ↔ x = (decode, actual) := by
    intro x
    rw [← List.mem_dedup, h, List.mem_singleton]
  constructor
  · obtain ⟨m, hm, heq⟩ := List.mem_filterMap.mp ((hmem _).mpr rfl)
    obtain ⟨d, hd, hpair⟩ := Option.map_eq_some_iff.mp heq
    cases hpair
    exact ⟨m, hm, hd, rfl⟩
  · intro m hm d hd
    have hpair := (hmem (d, m.numActualTokens)).mp (List.mem_filterMap.mpr ⟨m, hm, by rw [hd]; rfl⟩)
    exact ⟨congrArg Prod.fst hpair, congrArg Prod.snd hpair⟩

/-- **What a split forward is like.** -/
theorem decision_ne_zero (h : decision k f tokens q ≠ 0) :
    k.mixedSplit ∧ k.atomicPrefill ∧ q = .nvfp4 ∧ f.available ∧ ¬ f.capturing ∧ f.mode = .none ∧
      ∃ values actual, f.attnMetadata = some values ∧
      OneMark values (decision k f tokens q) actual ∧
        0 < decision k f tokens q ∧ k.minPrefill ≤ actual - decision k f tokens q ∧
        atomicDecode k (decision k f tokens q) .nvfp4 = false ∧ actual ≤ tokens := by
  revert h
  unfold decision
  split_ifs with h1 h2 h3
  · exact absurd rfl
  · exact absurd rfl
  · exact absurd rfl
  · simp only [Bool.not_eq_true', Bool.and_eq_false_iff, not_or, Bool.not_eq_false,
      not_not] at h1 h2 h3
    dsimp only
    split_ifs with h4
    · exact absurd rfl
    · intro _
      rw [not_or, not_le, not_lt] at h4
      revert h4
      cases hm : f.attnMetadata with
      | none => exact fun h4 => absurd h4.1 (lt_irrefl 0)
      | some values =>
        unfold decideMixedSplit
        dsimp only
        split
        · rename_i decode actual hmarks
          split_ifs with h5 h6
          · exact fun h4 => absurd h4.1 (lt_irrefl 0)
          · intro h4
            have hreason := h6
            unfold reason at hreason
            split_ifs at hreason with h7 h8 h9
            exact ⟨h1.1.1, h1.1.2, h1.2, h2.1, h2.2, h3, values, actual, rfl,
              oneMark_of_dedup hmarks, h4.1, not_lt.mp h8, Bool.not_eq_true _ ▸ h9, h4.2⟩
          · exact fun h4 => absurd h4.1 (lt_irrefl 0)
        · exact fun h4 => absurd h4.1 (lt_irrefl 0)

end Decision

/-! ## What `apply` computes

The function is long, but its branches are two: one launch of all rows, or two launches of the rows
before and behind the split. Each is an equation for what `apply` returns, under what stands before
the launches.
-/

section Apply

variable {Act Plan Row Out : Type} [DecidableEq Act] {api : FusedMoe Act Plan Row Out}
    {k : Knobs} {L : Layer}
  {f : Forward} {st : Seen} {plans plans' : Plans api} {c : Call Act Row Out}

/-- A batch's own policy for a launch. -/
def policy (k : Knobs) (q : QuantMode) (f : Forward) (tokens : Int) : Bool :=
  useAtomicPrefill k f tokens q || atomicDecode k tokens q

section PlanLemmas

variable {tokens : Int} {topk : Nat} {activation : Act} {arw : Bool}
    {atomic : Option Bool} {p : Plan}

/-- A plan is made from its key, which is cached then. -/
theorem plan_ok (h : plan k L f plans tokens topk activation arw atomic = .ok (p, plans')) :
    p = api.plan ⟨max tokens 1, topk, activation, arw,
    atomic.getD (policy k L.quantMode f tokens)⟩ ∧
      plans'.dict.get? ⟨max tokens 1, topk, activation, arw,
      atomic.getD (policy k L.quantMode f tokens)⟩ = some p := by
  unfold plan at h
  dsimp only at h
  split at h
  · rename_i p' hget
    cases h
    exact ⟨plans.made _ _ hget, hget⟩
  · split_ifs at h
    cases h
    exact ⟨rfl, Dict.get?_set_self⟩

theorem plan_of_eager (hcap : ¬ f.capturing) :
    ∃ plans', plan k L f plans tokens topk activation arw atomic =
      .ok (api.plan ⟨max tokens 1, topk, activation, arw,
      atomic.getD (policy k L.quantMode f tokens)⟩, plans') := by
  unfold plan
  dsimp only
  split
  · rename_i p hget
    exact ⟨plans, by rw [plans.made _ _ hget]; rfl⟩
  · rw [if_neg hcap]
    exact ⟨_, rfl⟩

theorem plan_of_cached
    (hget : plans.dict.get? ⟨max tokens 1, topk, activation, arw,
      atomic.getD (policy k L.quantMode f tokens)⟩ = some p) :
    plan k L f plans tokens topk activation arw atomic = .ok (p, plans) := by
  unfold policy at hget
  unfold plan
  dsimp only
  rw [hget]

theorem mixedSplitPlans_ok {decode : Int} {dp pp : Plan}
    (h : mixedSplitPlans k L f plans tokens decode topk activation arw = .ok ((dp, pp), plans')) :
    dp = api.plan ⟨max decode 1, topk, activation, arw, false⟩ ∧
      pp = api.plan ⟨max (tokens - decode) 1, topk, activation, arw, true⟩ := by
  unfold mixedSplitPlans at h
  obtain ⟨⟨dp', plans₁⟩, h₁, h⟩ := bind_ok.mp h
  obtain ⟨⟨pp', plans₂⟩, h₂, h⟩ := bind_ok.mp h
  cases h
  exact ⟨(plan_ok h₁).1, (plan_ok h₂).1⟩

theorem mixedSplitPlans_of_eager {decode : Int} (hcap : ¬ f.capturing) :
    ∃ plans', mixedSplitPlans k L f plans tokens decode topk activation arw =
      .ok ((api.plan ⟨max decode 1, topk, activation, arw, false⟩,
        api.plan ⟨max (tokens - decode) 1, topk, activation, arw, true⟩), plans') := by
  obtain ⟨plans₁, h₁⟩ : ∃ plans₁, plan k L f plans decode topk activation arw (some false) =
      .ok (api.plan ⟨max decode 1, topk, activation, arw, false⟩, plans₁) := plan_of_eager hcap
  obtain ⟨plans₂, h₂⟩ : ∃ plans₂, plan k L f plans₁ (tokens - decode) topk activation
    arw (some true) =
      .ok (api.plan ⟨max (tokens - decode) 1, topk, activation, arw, true⟩, plans₂) :=
      plan_of_eager hcap
  refine ⟨plans₂, ?_⟩
  unfold mixedSplitPlans
  rw [h₁]
  show (plan k L f plans₁ (tokens - decode) topk activation arw (some true) >>= _) = _
  rw [h₂]
  rfl

end PlanLemmas

/-- What stands before the launches. -/
theorem apply_checks {r : Applied Plan Out × Plans api × Seen}
    (h : apply k L f plans st c = .ok r) :
    c.hasExpertMap = false ∧ c.applyRouterWeight = L.applyRouterWeight := by
  unfold apply at h
  split_ifs at h with h1 h2 h3
  all_goals exact ⟨Bool.not_eq_true _ ▸ h1, not_not.mp h2⟩

/-- **A split step** runs two launches. -/
theorem apply_split (hst : During k f st) (hd : decision k f c.rows.length L.quantMode ≠ 0)
    {r : Applied Plan Out × Plans api × Seen} (h : apply k L f plans st c = .ok r) :
    r.1 = runAll api c
      [⟨api.plan ⟨max (decision k f c.rows.length L.quantMode) 1, c.topk, c.activation,
        c.applyRouterWeight, false⟩, 0, (decision k f c.rows.length L.quantMode).toNat⟩,
      ⟨api.plan ⟨max (c.rows.length - decision k f c.rows.length L.quantMode) 1,
        c.topk, c.activation,
        c.applyRouterWeight, true⟩, (decision k f c.rows.length L.quantMode).toNat,
        c.rows.length⟩] := by
  unfold apply at h
  split_ifs at h with h1 h2 h3
  dsimp only at h
  rw [decision_during hst, if_pos hd] at h
  obtain ⟨⟨⟨dp, pp⟩, plans₁⟩, hp, h⟩ := bind_ok.mp h
  obtain ⟨_, -, h⟩ := bind_ok.mp h
  obtain ⟨_, -, h⟩ := bind_ok.mp h
  cases h
  obtain ⟨rfl, rfl⟩ := mixedSplitPlans_ok hp
  rfl

/-- **Any other step** runs one launch, with the batch's own policy. -/
theorem apply_whole (hst : During k f st) (hd : decision k f c.rows.length L.quantMode = 0)
    {r : Applied Plan Out × Plans api × Seen} (h : apply k L f plans st c = .ok r) :
    r.1 = runAll api c [⟨api.plan ⟨max (c.rows.length : Int) 1, c.topk, c.activation,
      c.applyRouterWeight,
      policy k L.quantMode f c.rows.length⟩, 0, c.rows.length⟩] := by
  unfold apply at h
  split_ifs at h with h1 h2 h3
  dsimp only at h
  rw [decision_during hst, if_neg (not_not.mpr hd)] at h
  obtain ⟨⟨p, plans₁⟩, hp, h⟩ := bind_ok.mp h
  obtain ⟨_, -, h⟩ := bind_ok.mp h
  cases h
  rw [(plan_ok hp).1]
  rfl

omit [DecidableEq Act] in
/-- One launch computes every row. -/
theorem runAll_whole {p : Plan} : (runAll api c [⟨p, 0, c.rows.length⟩]).output = c.rows.map
    (api.run p) := by
  show c.output.take 0 ++ ((c.rows.take c.rows.length).drop 0).map (api.run p) ++
    c.output.drop c.rows.length = _
  rw [List.take_zero, List.nil_append, List.take_length, List.drop_zero, ← c.length_output,
    List.drop_length, List.append_nil]

omit [DecidableEq Act] in
/-- Two launches compute every row, each once. -/
theorem runAll_split {dp pp : Plan} {d : Nat} (hd : d ≤ c.rows.length) :
    (runAll api c [⟨dp, 0, d⟩, ⟨pp, d, c.rows.length⟩]).output =
      (c.rows.take d).map (api.run dp) ++ (c.rows.drop d).map (api.run pp) := by
  have hlen : ((c.rows.take d).map (api.run dp)).length = d := by
    rw [List.length_map, List.length_take, Nat.min_eq_left hd]
  have hfirst : runPlan api c.rows c.output ⟨dp, 0, d⟩ = (c.rows.take d).map (api.run dp) ++
    c.output.drop d := by
    show c.output.take 0 ++ ((c.rows.take d).drop 0).map (api.run dp) ++ c.output.drop d = _
    rw [List.take_zero, List.nil_append, List.drop_zero]
  show runPlan api c.rows (runPlan api c.rows c.output ⟨dp, 0, d⟩) ⟨pp, d, c.rows.length⟩ = _
  rw [hfirst]
  show (_ ++ c.output.drop d).take d ++ ((c.rows.take c.rows.length).drop d).map (api.run pp) ++
    (_ ++ c.output.drop d).drop c.rows.length = _
  rw [List.take_left' hlen, List.take_length]
  have hrest : ((c.rows.take d).map (api.run dp) ++ c.output.drop d).drop c.rows.length = [] := by
    refine List.drop_eq_nil_iff.mpr ?_
    rw [List.length_append, hlen, List.length_drop, c.length_output]
    omega
  rw [hrest, List.append_nil]

/-- **Without a split** the step is the one of a launch with the split off. -/
theorem apply_unsplit {st' : Seen} (hst : During k f st)
    (hst' : During { k with mixedSplit := false } f st')
    (hd : decision k f c.rows.length L.quantMode = 0) :
    (apply k L f plans st c).map Prod.fst = (apply { k with mixedSplit := false } L f plans st'
      c).map Prod.fst := by
  have hoff : decision { k with mixedSplit := false } f c.rows.length L.quantMode = 0 :=
    if_pos (Or.inl rfl)
  unfold apply
  dsimp only
  rw [decision_during hst, decision_during hst', if_neg (not_not.mpr hd), if_neg (not_not.mpr hoff)]
  show _ = Except.map Prod.fst (if _ then _ else if _ then _ else if _ then _ else
    plan k L f plans c.rows.length c.topk c.activation c.applyRouterWeight none >>= _)
  split_ifs
  · rfl
  · rfl
  · rfl
  · cases plan k L f plans c.rows.length c.topk c.activation c.applyRouterWeight none with
    | error e => rfl
    | ok pp =>
      show Except.map Prod.fst (workspaceAsScratch api c.workspace2 pp.1 >>= _) =
        Except.map Prod.fst (workspaceAsScratch api c.workspace2 pp.1 >>= _)
      cases workspaceAsScratch api c.workspace2 pp.1 <;> rfl

omit [DecidableEq Act] in
/-- The workspace that was reserved holds a plan's scratch. -/
theorem workspaceAsScratch_ok {p : Plan} {w : Workspace} {n nbytes : Nat}
    (hp : scratchNbytes api p = .ok n) (hle : n ≤ nbytes) (hw : w.contiguous = true)
    (hn : max 1 ((nbytes + L.itemsize - 1) / L.itemsize) * L.itemsize ≤ w.nbytes) :
    workspaceAsScratch api (some w) p = .ok () := by
  have hround : nbytes ≤ (nbytes + L.itemsize - 1) / L.itemsize * L.itemsize := by
    have hdiv := Nat.div_add_mod' (nbytes + L.itemsize - 1) L.itemsize
    have hmod := Nat.mod_lt (nbytes + L.itemsize - 1) L.itemsize_pos
    omega
  have hmax := Nat.mul_le_mul_right L.itemsize
    (le_max_right 1 ((nbytes + L.itemsize - 1) / L.itemsize))
  unfold workspaceAsScratch
  dsimp only
  rw [hw, hp]
  show (if w.nbytes < n then _ else _) = _
  rw [if_neg (by omega)]

/-- **What `workspace_shapes` reserves is enough for `apply`**, whatever the forward's calls in
between. -/
theorem apply_of_reserved {st₀ st₁ : Seen} {plans₀ plans₁ : Plans api} {kdim elements : Nat}
    {shape : Nat × Nat} {w : Workspace}
    (hst₀ : During k f st₀) (hst : During k f st)
    (hshapes : workspaceShapes k L f plans₀ st₀ c.rows.length kdim c.topk c.activation =
      .ok ((elements, shape), plans₁, st₁))
    (hmap : c.hasExpertMap = false) (harw : c.applyRouterWeight = L.applyRouterWeight)
    (hnorm : c.normalized = true ∨ f.capturing = false) (hw : c.workspace2 = some w)
      (hcont : w.contiguous = true)
    (hn : elements * L.itemsize ≤ w.nbytes) : ∃ r, apply k L f plans₁ st c = .ok r := by
  unfold workspaceShapes at hshapes
  dsimp only at hshapes
  rw [decision_during hst₀] at hshapes
  unfold apply
  rw [if_neg (by rw [hmap]; exact Bool.false_ne_true), if_neg (not_not.mpr harw),
    if_neg (by rcases hnorm with h | h <;> rw [h] <;> simp)]
  dsimp only
  rw [decision_during hst]
  by_cases hd : decision k f c.rows.length L.quantMode ≠ 0
  · rw [if_pos hd] at hshapes ⊢
    have hcap := (decision_ne_zero hd).2.2.2.2.1
    obtain ⟨⟨⟨dp, pp⟩, plans₃⟩, hp, hshapes⟩ := bind_ok.mp hshapes
    obtain ⟨a, ha, hshapes⟩ := bind_ok.mp hshapes
    obtain ⟨b, hb, hshapes⟩ := bind_ok.mp hshapes
    cases hshapes
    obtain ⟨rfl, rfl⟩ := mixedSplitPlans_ok hp
    obtain ⟨plans₄, hp'⟩ : ∃ plans₄, mixedSplitPlans k L f plans₃ c.rows.length
      (decision k f c.rows.length L.quantMode)
        c.topk c.activation c.applyRouterWeight = .ok (_, plans₄) := mixedSplitPlans_of_eager hcap
    rw [hp', harw, hw]
    have hdecode := workspaceAsScratch_ok ha (le_max_left a b) hcont hn
    have hprefill := workspaceAsScratch_ok hb (le_max_right a b) hcont hn
    exact ⟨_, bind_ok.mpr ⟨_, rfl, bind_ok.mpr ⟨(), hdecode, bind_ok.mpr ⟨(), hprefill, rfl⟩⟩⟩⟩
  · rw [if_neg hd] at hshapes ⊢
    obtain ⟨⟨p, plans₃⟩, hp, hshapes⟩ := bind_ok.mp hshapes
    obtain ⟨a, ha, hshapes⟩ := bind_ok.mp hshapes
    cases hshapes
    rw [harw, plan_of_cached (plan_ok hp).2, hw]
    exact ⟨_, bind_ok.mpr ⟨_, rfl, bind_ok.mpr ⟨(), workspaceAsScratch_ok ha le_rfl hcont hn, rfl⟩⟩⟩

end Apply

/-! ## The batches that a split imitates

A batch of one phase is never split, so its policy is that of the one launch it gets. Each launch of
a split has the policy that a batch of its rows alone would get.
-/

/-- The metadata of a batch's forward: each entry is built for the batch, or is not this backend's.
-/
def Forward.Of (f : Forward) (k : Knobs) (batch : List Request) : Prop :=
  ∀ values, f.attnMetadata = some values → ∀ m ∈ values,
    (m.allPrefill = none ∧ m.decodePrefix = none) ∨ ∃ common : Common, common.Of batch ∧
    m = build k common

/-- An eager forward that marks its phase: some entry is the backend's, and those see the
scheduler's flags. -/
structure Forward.Marked (f : Forward) (k : Knobs) (batch : List Request) : Prop where
  available : f.available
  eager : ¬ f.capturing
  mode : f.mode = .none
  marks : ∃ values, f.attnMetadata = some values ∧ (∃ m ∈ values, m.allPrefill ≠ none) ∧
    ∀ m ∈ values, m.allPrefill ≠ none → ∃ common : Common, common.Of batch ∧ m = build k common ∧
      ∃ flags, common.isPrefilling = some flags ∧ flags.onCpu ∧ flags.isBool ∧ flags.ndim = 1 ∧
        batch.length ≤ flags.values.length

section Imitated

variable {k : Knobs} {f : Forward} {tokens : Int} {q : QuantMode} {batch : List Request}

/-- A batch of one phase is not split. -/
theorem decision_phase (hof : f.Of k batch) {p : Bool} (h : ∀ r ∈ batch, r.prefilling = p) :
    decision k f tokens q = 0 := by
  by_contra hd
  obtain ⟨-, -, -, -, -, -, values, actual, hvalues, ⟨⟨m, hm, hmark, -⟩, -⟩, -⟩ :=
    decision_ne_zero hd
  rcases hof values hvalues m hm with ⟨-, hnone⟩ | ⟨common, hcommon, rfl⟩
  · rw [hnone] at hmark
    cases hmark
  · have hzero : (build k common).decodePrefix = some 0 := by
      unfold build
      dsimp only
      rw [decodePrefixTokens_phase hcommon h, ite_self]
    rw [hzero] at hmark
    exact hd (Option.some.inj hmark).symm

/-- **A split batch is its decoding rows, then prefilling ones, then padding.** -/
theorem decision_rows (hof : f.Of k batch) (hd : decision k f tokens q ≠ 0) :
    ∃ d p : Nat, decision k f tokens q = d ∧ (d + p : Int) ≤ tokens ∧
      rowPhases batch = List.replicate d false ++ List.replicate p true := by
  obtain ⟨hsplit, hatomic, -, -, -, -, values, actual, hvalues, ⟨⟨m, hm, hmark, hactual⟩, -⟩,
    hpos, -, -, hle⟩ :=
    decision_ne_zero hd
  rcases hof values hvalues m hm with ⟨-, hnone⟩ | ⟨common, hcommon, rfl⟩
  · rw [hnone] at hmark
    cases hmark
  · have hpfx : decodePrefixTokens common = decision k f tokens q := by
      have hbuilt : (build k common).decodePrefix = some (decodePrefixTokens common) := by
        unfold build
        dsimp only
        rw [hsplit, hatomic]
        rfl
      exact Option.some.inj (hbuilt.symm.trans hmark)
    obtain ⟨d, p, hd', hnum, hrows⟩ := decodePrefixTokens_rows hcommon (hpfx ▸ hpos)
    refine ⟨d, p, hpfx ▸ hd', ?_, hrows⟩
    rw [← hnum]
    exact le_of_eq_of_le hactual hle

theorem useAtomicPrefill_decode (hof : f.Of k batch) (h : ∀ r ∈ batch, r.prefilling = false) :
    useAtomicPrefill k f tokens q = false := by
  unfold useAtomicPrefill
  split_ifs
  · rfl
  · rfl
  · rfl
  · cases hvalues : f.attnMetadata with
    | none => rfl
    | some values =>
      dsimp only
      rw [Bool.and_eq_false_iff]
      rcases hmarked : values.filterMap Meta.allPrefill with _ | ⟨b, rest⟩
      · exact Or.inl rfl
      · right
        obtain ⟨m, hm, hb⟩ := List.mem_filterMap.mp (hmarked ▸ List.mem_cons_self :
          b ∈ values.filterMap Meta.allPrefill)
        rcases hof values hvalues m hm with ⟨hnone, -⟩ | ⟨common, hcommon, rfl⟩
        · rw [hnone] at hb
          cases hb
        · have hfalse : allRequestsPrefilling common = false := by
            rw [Bool.eq_false_iff, ne_eq, allRequestsPrefilling_iff hcommon]
            rintro ⟨-, hne, hall⟩
            obtain ⟨r, hr⟩ := List.exists_mem_of_ne_nil batch hne
            exact absurd (hall r hr) (by rw [h r hr]; exact Bool.false_ne_true)
          have hb' : b = false := by
            rw [← Option.some.inj hb, hfalse, Bool.and_false]
          rw [hb']
          rfl

theorem useAtomicPrefill_prefill (hmarked : f.Marked k batch) (h : ∀ r ∈ batch, r.prefilling = true)
    (hne : batch ≠ [])
    (hk : k.atomicPrefill = true) (htokens : 128 ≤ tokens) :
      useAtomicPrefill k f tokens .nvfp4 = true := by
  obtain ⟨values, hvalues, ⟨m, hm, hmark⟩, hall⟩ := hmarked.marks
  have htrue : ∀ b ∈ values.filterMap Meta.allPrefill, b = true := by
    intro b hb
    obtain ⟨m', hm', hb'⟩ := List.mem_filterMap.mp hb
    obtain ⟨common, hcommon, rfl, hflags⟩ := hall m' hm' (by rw [hb']; exact Option.some_ne_none b)
    rw [← Option.some.inj hb', hk, (allRequestsPrefilling_iff hcommon).mpr ⟨hflags, hne, h⟩]
    rfl
  have hsome : values.filterMap Meta.allPrefill ≠ [] := by
    obtain ⟨b, hb⟩ := Option.ne_none_iff_exists'.mp hmark
    exact List.ne_nil_of_mem (List.mem_filterMap.mpr ⟨m, hm, hb⟩)
  unfold useAtomicPrefill
  rw [if_neg (by rw [hk]; simp; omega), if_neg (by rw [hmarked.available]; simp [hmarked.eager]),
    if_neg (not_not.mpr hmarked.mode), hvalues]
  dsimp only
  rw [Bool.and_eq_true, Bool.not_eq_true', List.isEmpty_eq_false_iff, List.all_eq_true]
  exact ⟨hsome, htrue⟩

end Imitated

section Sound

variable {Act Plan Row Out : Type} [DecidableEq Act] {api : FusedMoe Act Plan Row Out}

/-- The rows that a call on `c` splits off, as a number. -/
def Call.decodeRows (k : Knobs) (L : Layer) (f : Forward) (c : Call Act Row Out) : Nat :=
  (decision k f c.rows.length L.quantMode).toNat

variable {k : Knobs} {L : Layer} {f : Forward} {st : Seen} {plans : Plans api}
    {c : Call Act Row Out}

omit [DecidableEq Act] in
theorem decision_eq_decodeRows : decision k f c.rows.length L.quantMode = c.decodeRows k L f := by
  unfold Call.decodeRows
  by_cases hd : decision k f c.rows.length L.quantMode = 0
  · rw [hd]
    rfl
  · obtain ⟨-, -, -, -, -, -, _, _, -, -, hpos, -⟩ := decision_ne_zero hd
    exact (Int.toNat_of_nonneg hpos.le).symm

omit [DecidableEq Act] in
/-- A split leaves 128 rows and more to the second launch. -/
theorem decodeRows_add_le (hd : c.decodeRows k L f ≠ 0) :
    c.decodeRows k L f + 128 ≤ c.rows.length := by
  have hne : decision k f c.rows.length L.quantMode ≠ 0 := by
    rw [decision_eq_decodeRows]
    exact Nat.cast_ne_zero.mpr hd
  obtain ⟨-, -, -, -, -, -, _, actual, -, -, -, hmin, -, hle⟩ := decision_ne_zero hne
  rw [decision_eq_decodeRows] at hmin
  have h128 : (128 : Int) ≤ k.minPrefill := le_max_left _ _
  omega

/-- Rows by one launch under the batch's own policy. -/
theorem apply_policy {r : Applied Plan Out × Plans api × Seen} (hst : During k f st)
    (hd : decision k f c.rows.length L.quantMode = 0) (h : apply k L f plans st c = .ok r)
    {atomic : Bool} (hpolicy : policy k L.quantMode f c.rows.length = atomic) :
    r.1.launches = [⟨api.plan ⟨max (c.rows.length : Int) 1, c.topk, c.activation,
      L.applyRouterWeight, atomic⟩, 0, c.rows.length⟩] ∧
      r.1.output =
        c.rows.map (api.run (api.plan ⟨max (c.rows.length : Int) 1, c.topk, c.activation,
        L.applyRouterWeight, atomic⟩)) := by
  rw [apply_whole hst hd h, hpolicy, (apply_checks h).2]
  exact ⟨rfl, runAll_whole⟩

/-- **The mixed-step split.** All calls of a forward decide alike. A split takes off leading rows
which are those of the decoding requests, before those of the prefilling ones and the padding; its
two launches compute each row once, as a decode batch of the leading rows and an eager prefill batch
of the others would, plan by plan. Where there is no split the layer runs one launch, that of the
switch off. What `workspace_shapes` reserves is enough. -/
theorem mixed_split_sound (api : FusedMoe Act Plan Row Out) (k : Knobs) (L : Layer)
    (f : Forward) (st : Seen)
    (plans : Plans api) (c : Call Act Row Out) (hst : During k f st) :
    (∀ st', During k f st' → (mixedSplitRows k f c.rows.length L.quantMode st').1 =
      c.decodeRows k L f) ∧
      (c.decodeRows k L f ≠ 0 → ∀ batch, f.Of k batch → ∃ p,
      c.decodeRows k L f + p ≤ c.rows.length ∧
        rowPhases batch = List.replicate (c.decodeRows k L f) false ++ List.replicate p true) ∧
      (c.decodeRows k L f ≠ 0 → ∀ r, apply k L f plans st c = .ok r → ∃ decodePlan prefillPlan,
        r.1.launches = [⟨decodePlan, 0, c.decodeRows k L f⟩,
        ⟨prefillPlan, c.decodeRows k L f, c.rows.length⟩] ∧
        c.decodeRows k L f < c.rows.length ∧
        r.1.output = (c.rows.take (c.decodeRows k L f)).map (api.run decodePlan) ++
          (c.rows.drop (c.decodeRows k L f)).map (api.run prefillPlan) ∧
        (∀ f₁ batch st₁ (plans₁ : Plans api) (c₁ : Call Act Row Out) r₁, f₁.Of k batch →
          (∀ r ∈ batch, r.prefilling = false) → During k f₁ st₁ →
          c₁.rows = c.rows.take (c.decodeRows k L f) →
          c₁.topk = c.topk → c₁.activation = c.activation → apply k L f₁ plans₁ st₁ c₁ = .ok r₁ →
          r₁.1.launches = [⟨decodePlan, 0, c.decodeRows k L f⟩] ∧
          r₁.1.output = r.1.output.take (c.decodeRows k L f)) ∧
        ∀ f₂ batch st₂ (plans₂ : Plans api) (c₂ : Call Act Row Out) r₂, f₂.Of k batch →
          f₂.Marked k batch → batch ≠ [] →
          (∀ r ∈ batch, r.prefilling = true) → During k f₂ st₂ →
          c₂.rows = c.rows.drop (c.decodeRows k L f) →
          c₂.topk = c.topk → c₂.activation = c.activation → apply k L f₂ plans₂ st₂ c₂ = .ok r₂ →
          r₂.1.launches = [⟨prefillPlan, 0, c.rows.length - c.decodeRows k L f⟩] ∧
            r₂.1.output = r.1.output.drop (c.decodeRows k L f)) ∧
      (c.decodeRows k L f = 0 →
        (∀ st', During { k with mixedSplit := false } f st' →
          (apply k L f plans st c).map Prod.fst =
          (apply { k with mixedSplit := false } L f plans st' c).map Prod.fst) ∧
        ∀ r, apply k L f plans st c = .ok r → ∃ p, r.1.launches = [⟨p, 0, c.rows.length⟩] ∧
          r.1.output = c.rows.map (api.run p)) ∧
      ∀ st₀ (plans₀ : Plans api) kdim elements shape plans₁ st₁ w, During k f st₀ →
        workspaceShapes k L f plans₀ st₀ c.rows.length kdim c.topk c.activation =
        .ok ((elements, shape), plans₁, st₁) →
        c.hasExpertMap = false → c.applyRouterWeight = L.applyRouterWeight →
        (c.normalized = true ∨ f.capturing = false) →
        c.workspace2 = some w → w.contiguous = true → elements * L.itemsize ≤ w.nbytes →
        ∃ r, apply k L f plans₁ st c = .ok r := by
  have hcast := decision_eq_decodeRows (k := k) (L := L) (f := f) (c := c)
  have hne : c.decodeRows k L f ≠ 0 → decision k f c.rows.length L.quantMode ≠ 0 := fun h => by
    rw [hcast]
    exact Nat.cast_ne_zero.mpr h
  have hzero : c.decodeRows k L f = 0 → decision k f c.rows.length L.quantMode = 0 := fun h => by
    rw [hcast, h]
    rfl
  refine ⟨fun st' hst' => ?_, fun hd batch hof => ?_, fun hd r h => ?_, fun hd =>
    ⟨fun st' hst' => ?_, fun r h => ?_⟩, ?_⟩
  · rw [decision_during hst', hcast]
  · obtain ⟨d, p, heq, hle, hrows⟩ := decision_rows hof (hne hd)
    rw [hcast, Nat.cast_inj] at heq
    rw [heq]
    exact ⟨p, by exact_mod_cast hle, hrows⟩
  · have hsum := decodeRows_add_le hd
    obtain ⟨-, hatomic, hq, -, -, -, _, _, -, -, -, -, hdecode, -⟩ := decision_ne_zero (hne hd)
    have hsplit := apply_split hst (hne hd) h
    rw [hcast, Int.toNat_natCast, (apply_checks h).2] at hsplit
    have houtput := congrArg Applied.output hsplit
    rw [runAll_split (by omega)] at houtput
    refine ⟨_, _, congrArg Applied.launches hsplit, by omega, houtput, ?_, ?_⟩
    · intro f₁ batch st₁ plans₁ c₁ r₁ hof hphase hst₁ hrows htopk hact h₁
      have hlen : c₁.rows.length = c.decodeRows k L f := by
        rw [hrows, List.length_take, Nat.min_eq_left (by omega)]
      have hpolicy : policy k L.quantMode f₁ c₁.rows.length = false := by
        unfold policy
        rw [useAtomicPrefill_decode hof hphase, Bool.false_or, hlen, ← hcast, hq]
        exact hq ▸ hdecode
      obtain ⟨hl, ho⟩ := apply_policy hst₁ (decision_phase hof hphase) h₁ hpolicy
      rw [hlen, htopk, hact] at hl ho
      refine ⟨hl, ?_⟩
      rw [ho, houtput, hrows, List.take_left'
        (by rw [List.length_map, List.length_take, Nat.min_eq_left (by omega)])]
    · intro f₂ batch st₂ plans₂ c₂ r₂ hof hmarked hnonempty hphase hst₂ hrows htopk hact h₂
      have hlen : c₂.rows.length = c.rows.length - c.decodeRows k L f := by
        rw [hrows, List.length_drop]
      have hint : (c₂.rows.length : Int) = c.rows.length - c.decodeRows k L f := by omega
      have hpolicy : policy k L.quantMode f₂ c₂.rows.length = true := by
        unfold policy
        rw [hq, useAtomicPrefill_prefill hmarked hphase hnonempty hatomic (by omega), Bool.true_or]
      obtain ⟨hl, ho⟩ := apply_policy hst₂ (decision_phase hof hphase) h₂ hpolicy
      rw [hint, hlen, htopk, hact] at hl
      rw [hint, htopk, hact] at ho
      refine ⟨hl, ?_⟩
      rw [ho, houtput, hrows, List.drop_left'
        (by rw [List.length_map, List.length_take, Nat.min_eq_left (by omega)])]
  · exact apply_unsplit hst hst' (hzero hd)
  · obtain ⟨hl, ho⟩ := apply_policy hst (hzero hd) h rfl
    exact ⟨_, hl, ho⟩
  · intro st₀ plans₀ kdim elements shape plans₁ st₁ w hst₀ hshapes hmap harw hnorm hw hcont hn
    exact apply_of_reserved hst₀ hst hshapes hmap harw hnorm hw hcont hn

end Sound

/-! ## A verify request and a prefill chunk -/

/-- Two rows to verify, then a chunk. -/
def verifyAndChunk : List Request := [⟨false, 2⟩, ⟨true, 128⟩]

/-- Their common metadata. -/
def verifyCommon : Common where
  numReqs := 2
  numActualTokens := 130
  isPrefilling := some ⟨true, true, 1, [false, true]⟩
  queryStartLocCpu := some ⟨true, 1, [0, 2, 130]⟩

/-- Both switches on, no thresholds given. -/
def splitKnobs : Knobs := ⟨true, true, 0, 0⟩

/-- The eager forward of the two requests. -/
def mixedForward : Forward := ⟨true, false, .none,
    some [build splitKnobs verifyCommon, ⟨none, none, 130⟩], true⟩

/-- Plans that are their kind. -/
def kinds : FusedMoe Unit Bool Nat Nat where
  plan key := key.atomic
  scratchSpecs atomic := [⟨true, if atomic then 64 else 16⟩]
  run atomic row := if atomic then row + 1 else row

/-- A call on 130 rows and two of padding. -/
def mixedCall : Call Unit Nat Nat where
  rows := List.range 132
  output := List.replicate 132 0
  topk := 8
  activation := ()
  hasExpertMap := false
  applyRouterWeight := false
  normalized := true
  workspace2 := some ⟨true, 64⟩
  length_output := by rw [List.length_replicate, List.length_range]

/-- Its first two rows are the verified ones. -/
theorem mixedCall_split :
    (mixedSplitRows splitKnobs mixedForward mixedCall.rows.length .nvfp4 ⟨none, fun _ => 0⟩).1 = 2 ∧
      ∃ p, 2 + p ≤ 132 ∧ rowPhases verifyAndChunk = List.replicate 2 false ++
      List.replicate p true := by
  have hrows : mixedCall.decodeRows splitKnobs ⟨.nvfp4, false, 2, by decide⟩ mixedForward = 2 := by
    unfold Call.decodeRows
    rw [show mixedCall.rows.length = 132 from List.length_range]
    decide
  have hof : mixedForward.Of splitKnobs verifyAndChunk := by
    intro values hvalues m hm
    cases hvalues
    rcases List.mem_cons.mp hm with rfl | hm
    · refine Or.inr ⟨verifyCommon, ⟨rfl, ?_, ?_⟩, rfl⟩
      · rintro flags hflags - - - -
        cases hflags
        rfl
      · rintro starts hstarts - - -
        cases hstarts
        rfl
    · rw [List.mem_singleton.mp hm]
      exact Or.inl ⟨rfl, rfl⟩
  obtain ⟨hsame, hleading, -⟩ := mixed_split_sound kinds splitKnobs ⟨.nvfp4, false, 2, by
    decide⟩ mixedForward
    ⟨none, fun _ => 0⟩ ⟨Dict.empty, fun _ _ => nofun⟩ mixedCall (During.fresh _)
  obtain ⟨p, hle, hphases⟩ := hleading (by rw [hrows]; decide) verifyAndChunk hof
  rw [hrows] at hle hphases
  refine ⟨?_, p, hle, hphases⟩
  rw [hsame _ (During.fresh _), hrows]
  rfl

end Ringside.MixedSplit

import Ringside.Speedup.Geometry
import Mathlib.Data.List.Sort

/-!
# Graph dispatch (`cudagraph_utils.py`, `glm53_speedup/graphs.py`)

`_init_candidates` lists the graphs to capture, `extend_candidates` adds its own, and every token
count gets the graphs of the next captured size of either mode, the full ones first. `dispatch`
takes the first that fits the batch.

* `TargetManager` is the target's manager, of uniform decode graphs and a separate decode routine. A
  mixed mode that is not `.piecewise` stands for none. `decodeQueryLens` holds the configured
  length, or those of a dynamic schedule.
* `candidates` are the tables that `dispatch` looks up, as a function of the token count: `groups`
  and `inRange` are the loops that fill them.
* Every listed graph was captured. A batch has no adapters, so only descriptors without are
  candidates, and the manager captures that case.
* A uniform batch has its query length times as many tokens as requests.
* `eligible` is the guard that the patch adds: what the tails hold back of the piecewise graphs.

Results:
* `mem_modeCandidates`: the candidates of a token count are the descriptors of the next captured
  size.
* `mem_listed`: what is listed.
* `dispatch_spec`: what a dispatched graph is to its batch.
* `dispatch_shape`: the shapes of a scope have exact graphs.
* `dispatch_full`, `dispatch_piecewise`: which batches keep a graph.
* `graph_dispatch`: all of it.

Out of scope: capturing and replaying a graph, and the padding of a batch to the size of its graph.
-/

namespace Ringside.Speedup

open Checks

/-! ## Candidates -/

/-- `round_up`. -/
def roundUp (n q : Nat) : Nat := (n + q - 1) / q * q

/-- The manager that `_init_candidates` reads. -/
structure TargetManager extends Manager where
  captureSizes : List Nat
  maxCaptureSize : Nat
  decodeQueryLens : List Nat
  loraCases : List Nat
  target : isModelManager = true
  uniform : varlenDecode = false
  separate : decodeMode = .full
  lens_pos : ∀ q ∈ decodeQueryLens, 0 < q
  no_lora : 0 ∈ loraCases

section Candidates

variable (m : TargetManager) (env : Environment)

/-- `product(capture_sizes, lora_capture_cases)`. -/
def TargetManager.cases : List (Nat × Nat) := m.captureSizes.insertionSort (· ≤ ·) ×ˢ m.loraCases

/-- The uniform decode graphs of one case. -/
def TargetManager.decodeGraphs (numTokens numActiveLoras : Nat) : List Descriptor :=
  m.decodeQueryLens.filterMap fun q =>
    let tokens := roundUp numTokens q
    let reqs := tokens / q
    if tokens > m.maxNumReqs * m.decodeQueryLen ∨ tokens > m.maxCaptureSize ∨
      reqs > m.maxNumReqs then none
    else some ⟨.full, tokens, some reqs, some q, none, numActiveLoras⟩

/-- The native graphs. -/
def TargetManager.native : ByMode where
  full := (m.cases.flatMap fun c => m.decodeGraphs c.1 c.2).foldl addMissing []
  piecewise := if m.mixedMode = .piecewise then
    m.cases.map fun c => ⟨.piecewise, c.1, none, none, none, c.2⟩ else []

/-- The graphs that `_init_candidates` lists; none without capture sizes. -/
def TargetManager.listed : Except String ByMode :=
  if m.captureSizes = [] then pure ⟨[], []⟩ else extendCandidates env m.toManager m.native

/-- `groupby`, by the token count. -/
def groups : List Descriptor → List (Nat × List Descriptor)
  | [] => []
  | d :: ds =>
    match groups ds with
    | [] => [(d.numTokens, [d])]
    | (n, g) :: gs =>
      if d.numTokens = n then (n, d :: g) :: gs else (d.numTokens, [d]) :: (n, g) :: gs

/-- The groups whose range of token counts, from `start` on, holds `i`. -/
def inRange (i : Nat) : Nat → List (Nat × List Descriptor) → List Descriptor
  | _, [] => []
  | start, (n, g) :: gs => (if start ≤ i ∧ i ≤ n then g else []) ++ inRange i (n + 1) gs

/-- The candidates of one mode: sorted with the largest first, reversed, and grouped. -/
def modeCandidates (descs : List Descriptor) (i : Nat) : List Descriptor :=
  inRange i 0 (groups ((descs.insertionSort fun d e => d.numTokens ≥ e.numTokens).reverse.filter
    fun d => d.numActiveLoras = 0))

/-- `_candidates[i, 0]`: the full graphs, then the piecewise ones. -/
def candidates (byMode : ByMode) (i : Nat) : List Descriptor :=
    modeCandidates byMode.full i ++ modeCandidates byMode.piecewise i

end Candidates

/-! ## Dispatch -/

/-- A batch, as `dispatch` sees it. -/
structure DispatchBatch where
  numReqs : Nat
  numTokens : Nat
  uniformTokenCount : Option Nat
  maxQueryLen : Option Nat
  uniform_eq : ∀ q, uniformTokenCount = some q → numTokens = numReqs * q

/-- What `dispatch` returns: a graph, or the eager descriptor. -/
inductive Dispatched where
  | graph (desc : Descriptor)
  | eager (numTokens numReqs : Nat)
  deriving DecidableEq

section Dispatch

variable (env : Environment) (byMode : ByMode) (b : DispatchBatch)

/-- `eligible_descriptor`. -/
def eligible (d : Descriptor) : Bool :=
  if env.prefillTails ∧ d.cgMode = .piecewise ∧ (d.numTokens = 64 ∨ d.numTokens = 128) then
    b.numReqs = 1 ∧ b.numTokens = d.numTokens ∧ b.maxQueryLen = some b.numTokens ∧
      (b.uniformTokenCount = none ∨ b.uniformTokenCount = some d.numTokens)
  else true

/-- `_is_compatible`. -/
def compatible (d : Descriptor) : Bool :=
  (d.uniformTokenCount = none ∨ d.uniformTokenCount = b.uniformTokenCount) ∧
    (∀ q ∈ d.maxQueryLen, ∃ q' ∈ b.maxQueryLen, q' ≤ q) ∧ (∀ r ∈ d.numReqs, b.numReqs ≤ r) ∧
    b.numTokens ≤ d.numTokens ∧
    d.numActiveLoras = 0

/-- `dispatch`, once the graphs were captured. -/
def dispatch : Dispatched :=
  if b.numTokens > 0 then
    match (candidates byMode b.numTokens).find? fun d => eligible env b d && compatible b d with
    | some d => .graph d
    | none => .eager b.numTokens b.numReqs
  else .eager b.numTokens b.numReqs

end Dispatch

/-! ## The next captured size

The source fills a table by ranges: the candidates for `i` tokens are the group of the first
captured size that is not below `i`. Here this is a function of `i`, and these lemmas say that it
picks that group and no other.
-/

section Next

variable {l : List Descriptor} {d : Descriptor}

theorem mem_groups : ∀ {l : List Descriptor}, d ∈ l ↔ ∃ p ∈ groups l, d ∈ p.2
  | [] => by simp [groups]
  | e :: es => by
    have ih : d ∈ es ↔ _ := mem_groups
    unfold groups
    cases hgs : groups es with
    | nil =>
      rw [hgs] at ih
      simp only [List.mem_cons, ih]
      simp
    | cons p gs =>
      obtain ⟨n, g⟩ := p
      rw [hgs] at ih
      dsimp only
      split_ifs with heq
      · simp only [List.mem_cons, ih, exists_eq_or_imp, or_assoc]
      · simp only [List.mem_cons, ih, exists_eq_or_imp]
        simp

/-- The members of a group have its token count, and there are some. -/
theorem groups_spec : ∀ {l : List Descriptor}, ∀ p ∈ groups l,
    (∀ d ∈ p.2, d.numTokens = p.1) ∧ p.2 ≠ []
  | [] => by simp [groups]
  | e :: es => by
    have ih : ∀ p ∈ groups es, _ := groups_spec
    unfold groups
    cases hgs : groups es with
    | nil => simp
    | cons p gs =>
      obtain ⟨n, g⟩ := p
      rw [hgs] at ih
      obtain ⟨hhead, htail⟩ := List.forall_mem_cons.mp ih
      dsimp only
      split_ifs with heq
      · refine List.forall_mem_cons.mpr ⟨⟨fun d hd => ?_, List.cons_ne_nil _ _⟩, htail⟩
        rcases List.mem_cons.mp hd with rfl | hd
        · exact heq
        · exact hhead.1 d hd
      · exact List.forall_mem_cons.mpr ⟨⟨fun d hd => by rw [List.mem_singleton.mp hd],
          List.cons_ne_nil _ _⟩, ih⟩

/-- The groups of an ascending list ascend. -/
theorem groups_ascend : ∀ {l : List Descriptor}, l.Pairwise (fun d e => d.numTokens ≤ e.numTokens) →
    (groups l).Pairwise fun p p' => p.1 < p'.1
  | [], _ => List.Pairwise.nil
  | e :: es, h => by
    obtain ⟨hle, hes⟩ := List.pairwise_cons.mp h
    have ih := groups_ascend hes
    have hmem : ∀ p ∈ groups es, e.numTokens ≤ p.1 := by
      intro p hp
      obtain ⟨hkey, hne⟩ := groups_spec p hp
      obtain ⟨d, hd⟩ := List.exists_mem_of_ne_nil _ hne
      rw [← hkey d hd]
      exact hle d (mem_groups.mpr ⟨p, hp, hd⟩)
    unfold groups
    cases hgs : groups es with
    | nil => exact List.pairwise_singleton _ _
    | cons p gs =>
      obtain ⟨n, g⟩ := p
      rw [hgs] at ih hmem
      obtain ⟨hhead, htail⟩ := List.pairwise_cons.mp ih
      dsimp only
      split_ifs with heq
      · exact List.pairwise_cons.mpr ⟨hhead, htail⟩
      · have hlt : e.numTokens < n := Nat.lt_of_le_of_ne (hmem _ List.mem_cons_self) heq
        refine List.pairwise_cons.mpr ⟨fun p hp => ?_, ih⟩
        rcases List.mem_cons.mp hp with rfl | hp
        · exact hlt
        · exact hlt.trans (hhead p hp)

/-- **One group's range holds a token count**: that of the next size. -/
theorem mem_inRange {i : Nat} : ∀ {gs : List (Nat × List Descriptor)} {start : Nat},
    gs.Pairwise (fun p p' => p.1 < p'.1) →
    (∀ p ∈ gs, start ≤ p.1) →
    (d ∈ inRange i start gs ↔ start ≤ i ∧ ∃ p ∈ gs, d ∈ p.2 ∧ i ≤ p.1 ∧ ∀ p' ∈ gs,
    i ≤ p'.1 → p.1 ≤ p'.1)
  | [], _, _, _ => by simp [inRange]
  | (n, g) :: gs, start, h, hstart => by
    obtain ⟨hlt, hgs⟩ := List.pairwise_cons.mp h
    have hn : start ≤ n := hstart _ List.mem_cons_self
    unfold inRange
    rw [List.mem_append, mem_inRange hgs hlt]
    constructor
    · rintro (hd | ⟨hi, p, hp, hd, hle, hmin⟩)
      · split_ifs at hd with hin
        · refine ⟨hin.1, (n, g), List.mem_cons_self, hd, hin.2, fun p' hp' _ => ?_⟩
          rcases List.mem_cons.mp hp' with rfl | hp'
          · exact le_rfl
          · exact (hlt p' hp').le
        · cases hd
      · refine ⟨by omega, p, List.mem_cons_of_mem _ hp, hd, hle, fun p' hp' hle' => ?_⟩
        rcases List.mem_cons.mp hp' with rfl | hp'
        · exact absurd hle' (by omega)
        · exact hmin p' hp' hle'
    · rintro ⟨hi, p, hp, hd, hle, hmin⟩
      rcases List.mem_cons.mp hp with rfl | hp
      · exact Or.inl (by rw [if_pos ⟨hi, hle⟩]; exact hd)
      · refine Or.inr ⟨?_, p, hp, hd, hle, fun p' hp' => hmin p' (List.mem_cons_of_mem _ hp')⟩
        by_contra hbefore
        have hfirst := hmin (n, g) List.mem_cons_self (by dsimp only; omega)
        have hlater := hlt p hp
        omega

/-- **The candidates of a mode**: the descriptors of the next captured size. -/
theorem mem_modeCandidates {l : List Descriptor} {i : Nat} : d ∈ modeCandidates l i ↔
    (d ∈ l ∧ d.numActiveLoras = 0) ∧ i ≤ d.numTokens ∧ ∀ e ∈ l, e.numActiveLoras = 0 →
    i ≤ e.numTokens → d.numTokens ≤ e.numTokens := by
  have hsorted : ((l.insertionSort fun d e => d.numTokens ≥ e.numTokens).reverse.filter fun d =>
    d.numActiveLoras = 0).Pairwise
      fun d e => d.numTokens ≤ e.numTokens := by
    have : Std.Total fun d e : Descriptor => d.numTokens ≥ e.numTokens :=
      ⟨fun d e => Nat.le_total e.numTokens d.numTokens⟩
    have : IsTrans Descriptor fun d e => d.numTokens ≥ e.numTokens :=
      ⟨fun _ _ _ h h' => Nat.le_trans h' h⟩
    exact ((List.pairwise_reverse.mpr (List.pairwise_insertionSort _ l))).filter _
  have hmem : ∀ e, e ∈ ((l.insertionSort fun d e => d.numTokens ≥ e.numTokens).reverse.filter
    fun d => d.numActiveLoras = 0) ↔ e ∈ l ∧ e.numActiveLoras = 0 := by
    intro e
    rw [List.mem_filter, List.mem_reverse, List.mem_insertionSort, decide_eq_true_iff]
  unfold modeCandidates
  generalize ((l.insertionSort fun d e => d.numTokens ≥ e.numTokens).reverse.filter fun d =>
    d.numActiveLoras = 0) = sorted at *
  rw [mem_inRange (groups_ascend hsorted) fun _ _ => Nat.zero_le _, ← hmem]
  constructor
  · rintro ⟨-, p, hp, hd, hle, hmin⟩
    have hkey := (groups_spec p hp).1 d hd
    refine ⟨mem_groups.mpr ⟨p, hp, hd⟩, by omega, fun e he hlora hei => ?_⟩
    obtain ⟨p', hp', he'⟩ := mem_groups.mp ((hmem e).mpr ⟨he, hlora⟩)
    have hkey' := (groups_spec p' hp').1 e he'
    have hmin' := hmin p' hp' (by omega)
    omega
  · rintro ⟨hd, hle, hmin⟩
    obtain ⟨p, hp, hd'⟩ := mem_groups.mp hd
    have hkey := (groups_spec p hp).1 d hd'
    refine ⟨Nat.zero_le _, p, hp, hd', by omega, fun p' hp' hle' => ?_⟩
    obtain ⟨hkey', hne⟩ := groups_spec p' hp'
    obtain ⟨e, he⟩ := List.exists_mem_of_ne_nil _ hne
    obtain ⟨hel, helora⟩ := (hmem e).mp (mem_groups.mpr ⟨p', hp', he⟩)
    have hmin' := hmin e hel helora (by rw [hkey' e he]; exact hle')
    rw [hkey' e he] at hmin'
    omega

end Next

/-! ## What is listed

The list is the native one, then the decode shapes of the scope, then the tails; the extensions skip
what is there already. A full graph on it has a query length and a number of requests, whoever added
it.
-/

section Listed

variable {m : TargetManager} {env : Environment} {byMode : ByMode} {d : Descriptor}

/-- **The native full graphs**: a query length of the manager, and its requests. -/
theorem native_full (h : d ∈ m.native.full) : d.cgMode = .full ∧ d.maxQueryLen = none ∧
    ∃ q ∈ m.decodeQueryLens, ∃ r ≤ m.maxNumReqs, d.uniformTokenCount = some q ∧ d.numReqs = some r ∧
    d.numTokens = r * q := by
  rcases mem_foldl_addMissing.mp h with h | h
  · cases h
  obtain ⟨c, -, h⟩ := List.mem_flatMap.mp h
  obtain ⟨q, hq, h⟩ := List.mem_filterMap.mp h
  dsimp only at h
  split_ifs at h with hskip
  cases h
  have hpos := m.lens_pos q hq
  refine ⟨rfl, rfl, q, hq, _, by omega, rfl, rfl, ?_⟩
  unfold roundUp
  rw [Nat.mul_div_cancel _ hpos]

/-- **The native piecewise graphs** take any requests and lengths. -/
theorem native_piecewise (h : d ∈ m.native.piecewise) :
    d.cgMode = .piecewise ∧ d.numReqs = none ∧ d.uniformTokenCount = none ∧ d.maxQueryLen = none ∧
    m.mixedMode = .piecewise := by
  unfold TargetManager.native at h
  dsimp only at h
  split_ifs at h with hmixed
  · obtain ⟨c, -, rfl⟩ := List.mem_map.mp h
    exact ⟨rfl, rfl, rfl, rfl, hmixed⟩
  · cases h

/-- The decode shapes that are added. -/
theorem extendDecode_ok {full full' : List Descriptor} (h : m.extendDecode env full = .ok full') :
    ∀ d, d ∈ full' ↔
    d ∈ full ∨ env.capture ≠ .off ∧ ∃ shapes,
      decodeShapes env.capture m.maxNumReqs m.proposalK env.captureRequests
        env.captureKs = .ok shapes ∧ ∃ s ∈ shapes, s.descriptor = d := by
  unfold Manager.extendDecode at h
  intro d
  by_cases hoff : env.capture = .off
  · rw [if_pos hoff, pure_ok] at h
    rw [← h, hoff]
    simp
  · rw [if_neg hoff, checked_ok, bind_ok] at h
    obtain ⟨-, shapes, hshapes, hfull⟩ := h
    rw [← pure_ok.mp hfull, mem_foldl_addMissing, List.mem_map]
    refine or_congr_right ⟨fun hd => ⟨hoff, shapes, hshapes, hd⟩, ?_⟩
    rintro ⟨-, shapes', hshapes', hd⟩
    rwa [Except.ok.inj (hshapes.symm.trans hshapes')]

/-- The tails that are added. -/
theorem extendTails_ok {piecewise piecewise' : List Descriptor}
    (h : m.extendTails env piecewise = .ok piecewise') : ∀ d,
    d ∈ piecewise' ↔ d ∈ piecewise ∨ env.prefillTails = true ∧
    (tailDescriptor 64 = d ∨ tailDescriptor 128 = d) := by
  unfold Manager.extendTails at h
  intro d
  cases htails : env.prefillTails with
  | false =>
    rw [htails, Bool.not_false, if_pos rfl, pure_ok] at h
    rw [← h]
    simp
  | true =>
    rw [htails, if_neg (by simp), checked_ok, checked_ok, pure_ok] at h
    rw [← h.2.2, mem_foldl_addMissing]
    simp [eq_comm]

/-- What both extensions leave. -/
theorem extend_ok {full : ByMode} (h : extendCandidates env m.toManager full = .ok byMode) :
    (∀ d, d ∈ byMode.full ↔ d ∈ full.full ∨ env.capture ≠ .off ∧ ∃ shapes,
      decodeShapes env.capture m.maxNumReqs m.proposalK env.captureRequests
        env.captureKs = .ok shapes ∧ ∃ s ∈ shapes, s.descriptor = d) ∧
    (∀ d, d ∈ byMode.piecewise ↔ d ∈ full.piecewise ∨ env.prefillTails = true ∧
      (tailDescriptor 64 = d ∨ tailDescriptor 128 = d)) ∧
    (env.capture ≠ .off → m.decodeQueryLen = m.proposalK + 1 ∧ ∃ shapes,
      decodeShapes env.capture m.maxNumReqs m.proposalK env.captureRequests env.captureKs =
      .ok shapes) := by
  unfold extendCandidates at h
  split_ifs at h with hnone
  · cases h
    rw [m.target] at hnone
    have hoff : env.capture = .off ∧ env.prefillTails = false := by simpa using hnone
    simp [hoff.1, hoff.2]
  · simp only [bind_ok, pure_ok] at h
    obtain ⟨_, hchecked, full', hfull, piecewise', hpiecewise, rfl⟩ := h
    refine ⟨extendDecode_ok hfull, extendTails_ok hpiecewise, fun hon => ⟨?_, ?_⟩⟩
    · unfold Manager.checked at hchecked
      rw [guarded_ok] at hchecked
      exact not_not.mp hchecked.1
    · unfold Manager.extendDecode at hfull
      rw [if_neg hon, checked_ok, bind_ok] at hfull
      obtain ⟨-, shapes, hshapes, -⟩ := hfull
      exact ⟨shapes, hshapes⟩

/-- **What is listed**: the native graphs, the shapes of the scope and the tails. -/
theorem mem_listed (h : m.listed env = .ok byMode) :
    (∀ d, d ∈ byMode.full ↔ d ∈ m.native.full ∨ m.captureSizes ≠ [] ∧ env.capture ≠ .off ∧ ∃ shapes,
      decodeShapes env.capture m.maxNumReqs m.proposalK env.captureRequests
        env.captureKs = .ok shapes ∧ ∃ s ∈ shapes, s.descriptor = d) ∧
    (∀ d, d ∈ byMode.piecewise ↔ d ∈ m.native.piecewise ∨
      m.captureSizes ≠ [] ∧ env.prefillTails = true ∧
      (tailDescriptor 64 = d ∨ tailDescriptor 128 = d)) ∧
    (m.captureSizes ≠ [] → env.capture ≠ .off → m.decodeQueryLen = m.proposalK + 1 ∧ ∃ shapes,
      decodeShapes env.capture m.maxNumReqs m.proposalK env.captureRequests env.captureKs =
      .ok shapes) := by
  unfold TargetManager.listed at h
  by_cases hsizes : m.captureSizes = []
  · rw [if_pos hsizes, pure_ok] at h
    have hcases : m.cases = [] := by
      unfold TargetManager.cases
      rw [hsizes]
      rfl
    have hnative : m.native = ⟨[], []⟩ := by
      unfold TargetManager.native
      rw [hcases]
      simp
    rw [← h, hnative, hsizes]
    simp
  · rw [if_neg hsizes] at h
    obtain ⟨hfull, hpiecewise, hlen⟩ := extend_ok h
    simp only [hsizes, ne_eq, not_false_eq_true, true_and, true_implies]
    exact ⟨hfull, hpiecewise, hlen⟩

/-- A listed full graph has a query length and its requests. -/
theorem listed_full (h : m.listed env = .ok byMode) (hd : d ∈ byMode.full) : d.cgMode = .full ∧
    d.maxQueryLen = none ∧
    ∃ q r, 0 < q ∧ d.uniformTokenCount = some q ∧ d.numReqs = some r ∧ d.numTokens = r * q := by
  rcases ((mem_listed h).1 d).mp hd with hd | ⟨-, -, shapes, -, s, -, rfl⟩
  · obtain ⟨hmode, hmax, q, hq, r, -, hspec⟩ := native_full hd
    exact ⟨hmode, hmax, q, r, m.lens_pos q hq, hspec⟩
  · exact ⟨rfl, rfl, s.queryLen, s.concurrency, Nat.succ_pos _, rfl, rfl, rfl⟩

theorem listed_piecewise (h : m.listed env = .ok byMode) (hd : d ∈ byMode.piecewise) :
    d.cgMode = .piecewise ∧ (d ∈ m.native.piecewise ∨ env.prefillTails = true ∧
    (tailDescriptor 64 = d ∨ tailDescriptor 128 = d)) := by
  rcases ((mem_listed h).2.1 d).mp hd with hd | ⟨-, htails, hd⟩
  · exact ⟨(native_piecewise hd).1, Or.inl hd⟩
  · refine ⟨?_, Or.inr ⟨htails, hd⟩⟩
    rcases hd with rfl | rfl <;> rfl

end Listed

/-! ## What is dispatched

The full candidates come before the piecewise ones, and each list is in the order of the sizes. What
a batch lost by the extensions can be read off: a size between two native ones takes over the
batches up to it, whether or not it fits them.
-/

section Dispatched

variable {m : TargetManager} {env : Environment} {byMode : ByMode} {b : DispatchBatch}
    {d : Descriptor}

/-- **A dispatched graph** is a candidate that fits. -/
theorem dispatch_spec : match dispatch env byMode b with
    | .graph d =>
      d ∈ candidates byMode b.numTokens ∧ eligible env b d = true ∧ compatible b d = true
    | .eager t r => t = b.numTokens ∧ r = b.numReqs := by
  unfold dispatch
  split_ifs with hpos
  · cases hfind : (candidates byMode b.numTokens).find? fun d => eligible env b d &&
      compatible b d with
    | none => exact ⟨rfl, rfl⟩
    | some d =>
      have hfits := List.find?_some hfind
      rw [Bool.and_eq_true] at hfits
      exact ⟨List.mem_of_find?_eq_some hfind, hfits⟩
  · exact ⟨rfl, rfl⟩

/-- What a dispatched graph says of its batch. -/
theorem dispatched (h : dispatch env byMode b = .graph d) :
    0 < b.numTokens ∧ d ∈ candidates byMode b.numTokens ∧ compatible b d = true := by
  have hspec : match dispatch env byMode b with
    | .graph d =>
      d ∈ candidates byMode b.numTokens ∧ eligible env b d = true ∧ compatible b d = true
    | .eager t r => t = b.numTokens ∧ r = b.numReqs := dispatch_spec
  rw [h] at hspec
  refine ⟨?_, hspec.1, hspec.2.2⟩
  unfold dispatch at h
  split_ifs at h with hpos
  exact hpos

/-- Some graph is dispatched where a candidate fits, and a full one where a full one does. -/
theorem exists_dispatch (hpos : 0 < b.numTokens) (hd : d ∈ candidates byMode b.numTokens)
    (heligible : eligible env b d = true)
    (hcompatible : compatible b d = true) :
    ∃ d', dispatch env byMode b = .graph d' ∧ (d ∈ modeCandidates byMode.full b.numTokens →
      d' ∈ modeCandidates byMode.full b.numTokens) := by
  have hfit : (eligible env b d && compatible b d) = true := by rw [heligible, hcompatible]; rfl
  unfold dispatch
  rw [if_pos hpos]
  cases hfind : (candidates byMode b.numTokens).find? fun d => eligible env b d &&
    compatible b d with
  | none => exact absurd hfit (List.find?_eq_none.mp hfind d hd)
  | some d' =>
    refine ⟨d', rfl, fun hfull => ?_⟩
    unfold candidates at hfind
    rw [List.find?_append] at hfind
    cases hfirst : (modeCandidates byMode.full b.numTokens).find? fun d => eligible env b d &&
      compatible b d with
    | none => exact absurd hfit (List.find?_eq_none.mp hfirst d hfull)
    | some e =>
      rw [hfirst] at hfind
      cases hfind
      exact List.mem_of_find?_eq_some hfirst

theorem compatible_iff : compatible b d = true ↔
    (d.uniformTokenCount = none ∨ d.uniformTokenCount = b.uniformTokenCount) ∧
    (∀ q ∈ d.maxQueryLen, ∃ q' ∈ b.maxQueryLen, q' ≤ q) ∧ (∀ r ∈ d.numReqs, b.numReqs ≤ r) ∧
    b.numTokens ≤ d.numTokens ∧
    d.numActiveLoras = 0 := by
  unfold compatible
  exact decide_eq_true_iff

variable (env b) in
/-- Only piecewise graphs are held back. -/
theorem eligible_full (h : d.cgMode = .full) : eligible env b d = true := by
  unfold eligible
  rw [if_neg (by rw [h]; simp)]

theorem mem_full_or_piecewise (h : d ∈ candidates byMode b.numTokens) : d ∈ byMode.full ∨
    d ∈ byMode.piecewise := by
  rcases List.mem_append.mp h with h | h
  · exact Or.inl (mem_modeCandidates.mp h).1.1
  · exact Or.inr (mem_modeCandidates.mp h).1.1

/-- **A tail is for its own length.** -/
theorem tail_exact {n : Nat} (hlisted : m.listed env = .ok byMode)
    (h : dispatch env byMode b = .graph (tailDescriptor n)) :
    b.numReqs = 1 ∧ b.numTokens = n ∧ b.maxQueryLen = some n ∧
    (b.uniformTokenCount = none ∨ b.uniformTokenCount = some n) := by
  have hspec : match dispatch env byMode b with
    | .graph d =>
      d ∈ candidates byMode b.numTokens ∧ eligible env b d = true ∧ compatible b d = true
    | .eager t r => t = b.numTokens ∧ r = b.numReqs := dispatch_spec
  rw [h] at hspec
  obtain ⟨hmem, heligible, -⟩ := hspec
  rcases mem_full_or_piecewise hmem with hfull | hpiecewise
  · cases (listed_full hlisted hfull).1
  rcases (listed_piecewise hlisted hpiecewise).2 with hnative | ⟨htails, htail⟩
  · cases (native_piecewise hnative).2.1
  have hn : n = 64 ∨ n = 128 := by
    rcases htail with heq | heq <;> cases heq
    · exact Or.inl rfl
    · exact Or.inr rfl
  unfold eligible at heligible
  rw [if_pos ⟨htails, rfl, hn⟩, decide_eq_true_iff] at heligible
  obtain ⟨hreqs, htokens, hmax, huniform⟩ := heligible
  have htokens : b.numTokens = n := htokens
  exact ⟨hreqs, htokens, by rw [hmax, htokens], huniform⟩

/-- **The shapes of the scope have exact graphs.** -/
theorem dispatch_shape (hlisted : m.listed env = .ok byMode) (hd : d ∈ byMode.full)
    (hlora : d.numActiveLoras = 0) {r q : Nat} (huniform : d.uniformTokenCount = some q)
    (hreqs : d.numReqs = some r) (hr : 0 < r) (hb : b.numReqs = r)
    (hq : b.uniformTokenCount = some q) : dispatch env byMode b = .graph d := by
  have hspec : match dispatch env byMode b with
    | .graph d =>
      d ∈ candidates byMode b.numTokens ∧ eligible env b d = true ∧ compatible b d = true
    | .eager t r => t = b.numTokens ∧ r = b.numReqs := dispatch_spec
  obtain ⟨hmode, hmax, q', r', hpos, huniform', hreqs', htokens⟩ := listed_full hlisted hd
  obtain rfl := Option.some.inj (huniform.symm.trans huniform')
  obtain rfl := Option.some.inj (hreqs.symm.trans hreqs')
  have hb' : b.numTokens = r * q := by rw [b.uniform_eq q hq, hb]
  have hcand : d ∈ modeCandidates byMode.full b.numTokens :=
    mem_modeCandidates.mpr ⟨⟨hd, hlora⟩, by omega, fun e _ _ he => by omega⟩
  have hfits : compatible b d = true := compatible_iff.mpr ⟨Or.inr (by rw [huniform, hq]),
    by simp [hmax], fun r' hr' => by rw [hreqs] at hr'; cases hr'; exact hb.le, by omega, hlora⟩
  obtain ⟨e, hdispatch, hfull⟩ := exists_dispatch (by rw [hb']; exact Nat.mul_pos hr hpos)
    (List.mem_append_left _ hcand)
    (eligible_full env b hmode) hfits
  rw [hdispatch] at hspec ⊢
  -- whatever graph of that size fits has the same requests and query length
  obtain ⟨⟨he, helora⟩, hle, hmin⟩ := mem_modeCandidates.mp (hfull hcand)
  have hleast := hmin d hd hlora (by omega)
  obtain ⟨hmode', hmax', q', r', -, huniform'', hreqs'', htokens'⟩ := listed_full hlisted he
  obtain ⟨hsame, -⟩ := compatible_iff.mp hspec.2.2
  have hq' : q' = q := by
    rw [huniform'', hq] at hsame
    simpa using hsame
  subst hq'
  have hr' : r' = r := Nat.eq_of_mul_eq_mul_right hpos (by omega)
  subst hr'
  congr 1
  cases e
  cases d
  simp_all

/-- **A full graph is kept** where its shape is in the scope, or nothing was added. -/
theorem dispatch_full (hlisted : m.listed env = .ok byMode)
    (hnative : dispatch { env with prefillTails := false } m.native b = .graph d)
      (hmode : d.cgMode = .full)
    (hkeep : env.capture = .off ∨ b.uniformTokenCount = some m.decodeQueryLen ∨ ∃ shapes,
      decodeShapes env.capture m.maxNumReqs m.proposalK env.captureRequests
      env.captureKs = .ok shapes ∧
        ∃ s ∈ shapes, s.concurrency = b.numReqs ∧ b.uniformTokenCount = some s.queryLen) :
    ∃ d', dispatch env byMode b = .graph d' ∧ d'.cgMode = .full := by
  obtain ⟨hpos, hcand, hfits⟩ := dispatched hnative
  obtain ⟨huniform, hmaxq, hreqs, hle, hlora⟩ := compatible_iff.mp hfits
  have hfull : d ∈ modeCandidates m.native.full b.numTokens := by
    rcases List.mem_append.mp hcand with hfull | hpiecewise
    · exact hfull
    · rw [(native_piecewise (mem_modeCandidates.mp hpiecewise).1.1).1] at hmode
      cases hmode
  obtain ⟨⟨hd, -⟩, -, hmin⟩ := mem_modeCandidates.mp hfull
  obtain ⟨-, hmax, q, hq, r, hr, huniform', hreqs', htokens⟩ := native_full hd
  have hbq : b.uniformTokenCount = some q := by
    rw [huniform'] at huniform
    exact (huniform.resolve_left nofun).symm
  have hbr : b.numReqs ≤ r := hreqs r hreqs'
  have hbt := b.uniform_eq q hbq
  have hlisted' := mem_listed hlisted
  have hsizes : m.captureSizes ≠ [] := by
    intro hnone
    unfold TargetManager.native TargetManager.cases at hd
    rw [hnone] at hd
    cases hd
  by_cases hoff : env.capture = .off
  · -- nothing was added to the full graphs
    have hsame : ∀ e, e ∈ byMode.full ↔ e ∈ m.native.full := fun e => by
      rw [hlisted'.1 e]
      simp [hoff]
    have hcand' : d ∈ modeCandidates byMode.full b.numTokens :=
      mem_modeCandidates.mpr ⟨⟨(hsame d).mpr hd, hlora⟩, hle, fun e he => hmin e ((hsame e).mp he)⟩
    obtain ⟨d', hdispatch, hfull'⟩ := exists_dispatch hpos (List.mem_append_left _ hcand')
      (eligible_full env b hmode) hfits
    exact ⟨d', hdispatch, (listed_full hlisted (mem_modeCandidates.mp (hfull' hcand')).1.1).1⟩
  · -- the batch has a shape of the scope
    obtain ⟨hlen, shapes, hshapes⟩ := hlisted'.2.2 hsizes hoff
    have hreqs_pos : 0 < b.numReqs := by
      rcases Nat.eq_zero_or_pos b.numReqs with hzero | hpos'
      · rw [hzero, Nat.zero_mul] at hbt
        omega
      · exact hpos'
    obtain ⟨s, hs, hsr, hsq⟩ : ∃ s ∈ shapes, s.concurrency = b.numReqs ∧
      b.uniformTokenCount = some s.queryLen := by
      rcases hkeep with habs | hnative' | ⟨shapes', hshapes', hs⟩
      · exact absurd habs hoff
      · have haxes := hshapes
        unfold decodeShapes at haxes
        rw [bind_ok] at haxes
        obtain ⟨p, hp, -⟩ := haxes
        obtain ⟨shapes', hshapes', hmem⟩ := mem_decodeShapes env.capture hp
        rw [Except.ok.inj (hshapes.symm.trans hshapes')]
        refine ⟨⟨b.numReqs, m.proposalK⟩, (hmem _).mpr ⟨⟨hreqs_pos, by dsimp only; omega⟩,
          native_mem_shapeKs (captureAxes_ok hp).2.2.2⟩, rfl, ?_⟩
        rw [hnative', hlen]
        rfl
      · rwa [Except.ok.inj (hshapes.symm.trans hshapes')]
    exact ⟨s.descriptor, dispatch_shape hlisted
      ((hlisted'.1 _).mpr (Or.inr ⟨hsizes, hoff, shapes, hshapes, s, hs, rfl⟩)) rfl rfl rfl
      (by rw [hsr]; exact hreqs_pos) hsr.symm hsq, rfl⟩

/-- **A piecewise graph is kept** but for what the tails hold back. -/
theorem dispatch_piecewise (hlisted : m.listed env = .ok byMode)
    (hnative : dispatch { env with prefillTails := false } m.native b = .graph d)
      (hmode : d.cgMode = .piecewise)
    (hkeep : env.prefillTails = false ∨ (∀ n ∈ [64, 128], ¬ (b.numTokens ≤ n ∧ n ≤ d.numTokens)) ∨
      (b.numReqs = 1 ∧ (b.numTokens = 64 ∨ b.numTokens = 128) ∧ b.maxQueryLen = some b.numTokens ∧
        (b.uniformTokenCount = none ∨ b.uniformTokenCount = some b.numTokens))) :
    ∃ d', dispatch env byMode b = .graph d' := by
  obtain ⟨hpos, hcand, hfits⟩ := dispatched hnative
  obtain ⟨-, -, -, hle, hlora⟩ := compatible_iff.mp hfits
  have hpiecewise : d ∈ modeCandidates m.native.piecewise b.numTokens := by
    rcases List.mem_append.mp hcand with hfull | hpiecewise
    · rw [(native_full (mem_modeCandidates.mp hfull).1.1).1] at hmode
      cases hmode
    · exact hpiecewise
  obtain ⟨⟨hd, -⟩, -, hmin⟩ := mem_modeCandidates.mp hpiecewise
  have hlisted' := (mem_listed hlisted).2.1
  have hsizes : m.captureSizes ≠ [] := by
    intro hnone
    unfold TargetManager.native TargetManager.cases at hd
    rw [hnone] at hd
    dsimp only at hd
    split_ifs at hd
    · cases hd
    · cases hd
  have hnear : (env.prefillTails = false ∨ ∀ n ∈ [64, 128], ¬ (b.numTokens ≤ n ∧ n ≤ d.numTokens)) →
      ∃ d', dispatch env byMode b = .graph d' := by
    intro hfar
    have hcand' : d ∈ modeCandidates byMode.piecewise b.numTokens := by
      refine mem_modeCandidates.mpr ⟨⟨(hlisted' d).mpr (Or.inl hd), hlora⟩, hle,
        fun e he helora hele => ?_⟩
      rcases (hlisted' e).mp he with he | ⟨-, htails, he⟩
      · exact hmin e he helora hele
      · have hfar := hfar.resolve_left (by rw [htails]; exact Bool.noConfusion)
        rcases he with rfl | rfl
        · have h64 := hfar 64 (by simp)
          change b.numTokens ≤ 64 at hele
          change d.numTokens ≤ 64
          omega
        · have h128 := hfar 128 (by simp)
          change b.numTokens ≤ 128 at hele
          change d.numTokens ≤ 128
          omega
    have heligible : eligible env b d = true := by
      unfold eligible
      refine if_neg fun hheld => ?_
      have hfar := hfar.resolve_left (by rw [hheld.1]; exact Bool.noConfusion)
      rcases hheld.2.2 with hsize | hsize
      · exact hfar 64 (by simp) ⟨by omega, by omega⟩
      · exact hfar 128 (by simp) ⟨by omega, by omega⟩
    obtain ⟨d', hdispatch, -⟩ := exists_dispatch hpos (List.mem_append_right _ hcand')
      heligible hfits
    exact ⟨d', hdispatch⟩
  rcases hkeep with hoff | hfar | ⟨hreqs, hsize, hmaxq, huniform⟩
  · exact hnear (Or.inl hoff)
  · exact hnear (Or.inr hfar)
  · by_cases htails : env.prefillTails = true
    · -- the batch is a tail itself
      have hmem : tailDescriptor b.numTokens ∈ byMode.piecewise := by
        refine (hlisted' _).mpr (Or.inr ⟨hsizes, htails, ?_⟩)
        rcases hsize with h | h <;> rw [h]
        · exact Or.inl rfl
        · exact Or.inr rfl
      have hcand' : tailDescriptor b.numTokens ∈ modeCandidates byMode.piecewise b.numTokens :=
        mem_modeCandidates.mpr ⟨⟨hmem, rfl⟩, le_rfl, fun _ _ _ he => he⟩
      have heligible : eligible env b (tailDescriptor b.numTokens) = true := by
        unfold eligible
        rw [if_pos ⟨htails, rfl, hsize⟩, decide_eq_true_iff]
        exact ⟨hreqs, rfl, hmaxq, huniform⟩
      have hcompatible : compatible b (tailDescriptor b.numTokens) = true := by
        refine compatible_iff.mpr ⟨Or.inl rfl, ?_, ?_, le_rfl, rfl⟩
        · intro q hq
          cases hq
          exact ⟨b.numTokens, hmaxq, le_rfl⟩
        · intro r hr
          cases hr
          exact hreqs.le
      obtain ⟨d', hdispatch, -⟩ := exists_dispatch hpos (List.mem_append_right _ hcand')
        heligible hcompatible
      exact ⟨d', hdispatch⟩
    · exact hnear (Or.inl (Bool.eq_false_of_not_eq_true htails))

/-- What fits its batch: a graph of at least its size, or the eager descriptor of exactly its size.
-/
theorem dispatch_fits (hlisted : m.listed env = .ok byMode) : match dispatch env byMode b with
    | .graph d =>
      (d ∈ byMode.full ∨ d ∈ byMode.piecewise) ∧ b.numTokens ≤ d.numTokens ∧
        (∀ r ∈ d.numReqs, b.numReqs ≤ r) ∧
        (∀ q ∈ d.uniformTokenCount, b.uniformTokenCount = some q) ∧
        (∀ q ∈ d.maxQueryLen, ∃ q' ∈ b.maxQueryLen, q' ≤ q) ∧
        ∀ n, d = tailDescriptor n → b.numReqs = 1 ∧ b.numTokens = n ∧ b.maxQueryLen = some n
    | .eager t r => t = b.numTokens ∧ r = b.numReqs := by
  have hspec : match dispatch env byMode b with
    | .graph d =>
      d ∈ candidates byMode b.numTokens ∧ eligible env b d = true ∧ compatible b d = true
    | .eager t r => t = b.numTokens ∧ r = b.numReqs := dispatch_spec
  cases hdispatch : dispatch env byMode b with
  | eager t r =>
    rw [hdispatch] at hspec
    exact hspec
  | graph d =>
    rw [hdispatch] at hspec
    obtain ⟨huniform, hmaxq, hreqs, hle, -⟩ := compatible_iff.mp hspec.2.2
    refine ⟨mem_full_or_piecewise hspec.1, hle, hreqs, fun q hq => ?_, hmaxq, fun n hn => ?_⟩
    · rw [Option.mem_def.mp hq] at huniform
      exact (huniform.resolve_left nofun).symm
    · rw [hn] at hdispatch
      obtain ⟨h1, hn, hmax, -⟩ := tail_exact hlisted hdispatch
      exact ⟨h1, hn, hmax⟩

/-- **Graph dispatch.** What is dispatched fits the batch, the shapes of the scope have exact
graphs, and a graph of the native list is kept: a full one where its shape is in the scope or has
the configured length, a piecewise one (or a full one in its place) where no tail holds it back. -/
theorem graph_dispatch (hlisted : m.listed env = .ok byMode) :
    (match dispatch env byMode b with
      | .graph d =>
        (d ∈ byMode.full ∨ d ∈ byMode.piecewise) ∧ b.numTokens ≤ d.numTokens ∧
          (∀ r ∈ d.numReqs, b.numReqs ≤ r) ∧
          (∀ q ∈ d.uniformTokenCount, b.uniformTokenCount = some q) ∧
          (∀ q ∈ d.maxQueryLen, ∃ q' ∈ b.maxQueryLen, q' ≤ q) ∧
          ∀ n, d = tailDescriptor n → b.numReqs = 1 ∧ b.numTokens = n ∧ b.maxQueryLen = some n
      | .eager t r => t = b.numTokens ∧ r = b.numReqs) ∧
    (env.capture ≠ .off → m.captureSizes ≠ [] → ∃ shapes,
      decodeShapes env.capture m.maxNumReqs m.proposalK env.captureRequests
      env.captureKs = .ok shapes ∧
        ∀ s ∈ shapes, b.numReqs = s.concurrency → b.uniformTokenCount = some s.queryLen →
          dispatch env byMode b = .graph s.descriptor) ∧
    (∀ d, dispatch { env with prefillTails := false } m.native b = .graph d → d.cgMode = .full →
      (env.capture = .off ∨ b.uniformTokenCount = some m.decodeQueryLen ∨ ∃ shapes,
        decodeShapes env.capture m.maxNumReqs m.proposalK env.captureRequests
        env.captureKs = .ok shapes ∧
          ∃ s ∈ shapes, s.concurrency = b.numReqs ∧ b.uniformTokenCount = some s.queryLen) →
        ∃ d', dispatch env byMode b = .graph d' ∧ d'.cgMode = .full) ∧
    ∀ d, dispatch { env with prefillTails := false } m.native b = .graph d → d.cgMode = .piecewise →
      (env.prefillTails = false ∨ (∀ n ∈ [64, 128], ¬ (b.numTokens ≤ n ∧ n ≤ d.numTokens)) ∨
        (b.numReqs = 1 ∧ (b.numTokens = 64 ∨ b.numTokens = 128) ∧ b.maxQueryLen = some b.numTokens ∧
          (b.uniformTokenCount = none ∨ b.uniformTokenCount = some b.numTokens))) →
        ∃ d', dispatch env byMode b = .graph d' := by
  refine ⟨dispatch_fits hlisted, fun hscope hsizes => ?_, fun d => dispatch_full hlisted, fun d =>
    dispatch_piecewise hlisted⟩
  obtain ⟨-, shapes, hshapes⟩ := (mem_listed hlisted).2.2 hsizes hscope
  refine ⟨shapes, hshapes, fun s hs hreqs huniform => ?_⟩
  have hpos : 0 < s.concurrency := by
    have haxes := hshapes
    unfold decodeShapes at haxes
    rw [bind_ok] at haxes
    obtain ⟨p, hp, -⟩ := haxes
    obtain ⟨shapes', hshapes', hspec⟩ := mem_decodeShapes env.capture hp
    rw [Except.ok.inj (hshapes.symm.trans hshapes')] at hs
    exact ((hspec s).mp hs).1.1
  have hmem := ((mem_listed hlisted).1 s.descriptor).mpr
    (Or.inr ⟨hsizes, hscope, shapes, hshapes, s, hs, rfl⟩)
  exact dispatch_shape hlisted hmem rfl rfl rfl hpos hreqs huniform

/-- A manager of two capture sizes, with the whole scope and the tails. -/
def twoSizes : TargetManager where
  isModelManager := true
  maxNumReqs := 6
  decodeQueryLen := 5
  numSpeculativeTokens := none
  tpSize := 4
  varlenDecode := false
  decodeMode := .full
  mixedMode := .piecewise
  useBreakableCg := true
  captureSizes := [8, 96]
  maxCaptureSize := 96
  decodeQueryLens := [5]
  loraCases := [0]
  target := rfl
  uniform := rfl
  separate := rfl
  lens_pos := by decide
  no_lora := by decide

def allAndTails : Environment := ⟨.all, true, false, false, none, none⟩

/-- One request of exactly a tail's length has a graph. -/
theorem oneTail_dispatch : ∃ byMode, twoSizes.listed allAndTails = .ok byMode ∧
    ∃ d, dispatch allAndTails byMode ⟨1, 64, none, some 64, nofun⟩ = .graph d := by
  have hlisted : ∃ byMode, twoSizes.listed allAndTails = .ok byMode := ⟨_, rfl⟩
  obtain ⟨byMode, hlisted⟩ := hlisted
  exact ⟨byMode, hlisted, (graph_dispatch hlisted).2.2.2 ⟨.piecewise, 96, none, none, none, 0⟩
    (by decide +kernel) rfl
    (Or.inr (Or.inr ⟨rfl, Or.inl rfl, rfl, Or.inl rfl⟩))⟩

/-- Two requests of 60 tokens have the graph of size 96 natively, and none when the tail of size 64
is the next larger; one request of two tokens gets a full graph in place of its piecewise one. -/
theorem twoRequests_eager : ∃ byMode, twoSizes.listed allAndTails = .ok byMode ∧
    dispatch allAndTails twoSizes.native ⟨2, 60, none, some 40, nofun⟩ =
    .graph ⟨.piecewise, 96, none, none, none, 0⟩ ∧
    dispatch allAndTails byMode ⟨2, 60, none, some 40, nofun⟩ = .eager 60 2 ∧
    dispatch allAndTails twoSizes.native ⟨1, 2, some 2, some 2, fun _ h =>
    Option.some.inj h ▸ rfl⟩ = .graph ⟨.piecewise, 8, none, none, none, 0⟩ ∧
    dispatch allAndTails byMode ⟨1, 2, some 2, some 2, fun _ h => Option.some.inj h ▸ rfl⟩ =
      .graph ⟨.full, 2, some 1, some 2, none, 0⟩ :=
  ⟨_, rfl, by decide +kernel, by decide +kernel, by decide +kernel, by decide +kernel⟩

end Dispatched

end Ringside.Speedup

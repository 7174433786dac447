import Ringside.Checks

/-!
# Decode shapes and their graphs (`glm53_speedup/geometry.py`, `graphs.py`, `policy.py`)

A decode batch of `concurrency` requests at speculative length `k` has `concurrency * (k + 1)`
tokens and runs on a graph captured for that shape. `captureAxes` says which request counts and
lengths an adaptive length may use, `decodeShapes` lists the shapes of a capture scope, and
`extendCandidates` adds their descriptors to the graphs that the engine captures.

* The scope, the mode and the selectors are enumerations or truth values, so texts that name none of
  them are not represented; integers are natural numbers, since every bound of the code excludes the
  negative ones.
* `RawSettings.check` is `Settings.__post_init__` with its checks in order; `Settings` are raw
  settings that it accepts, so every later module has what they promise.
* `Environment` is what `extend_candidates` reads of the environment and `Manager` what it reads of
  the graph manager. Where the two do not belong together it raises.
* A descriptor is added once (`addMissing`), behind the native ones.
* The log lines are left out.

Results:
* `mem_decodeShapes`: the shapes of a scope are every request count at the lengths of the scope.
* `mem_extendCandidates`: every shape of an adaptive scope has its descriptor.

Which graph a batch gets is in `Dispatch`, which shape a policy asks for in `Policy` and `Select`.
-/

namespace Ringside.Speedup

open Checks

/-! ## Geometry -/

/-- `Geometry.ks`. -/
def ks (maxK : Nat) : List Nat := List.range' 1 maxK

/-- `Geometry.__post_init__`. -/
def geometry (maxRequests maxK : Nat) : Except String Unit := do
  if ¬ (1 ≤ maxRequests ∧ maxRequests ≤ 16) then
    throw "geometry max_requests must be an integer in 1..16"
  if ¬ (1 ≤ maxK ∧ maxK ≤ 8) then throw "geometry max_k must be an integer in 1..8"

/-- The inner `axis` of `capture_axes`. -/
def axis (values : Option (List Nat)) (limit : Nat) (label : String) : Except String (List Nat) :=
  match values with
  | none => pure (List.range' 1 limit)
  | some values =>
    if values = [] then throw (label ++ " must be a nonempty tuple")
    else if ¬ (∀ x ∈ values, 1 ≤ x ∧ x ≤ limit) ∨ ¬ values.Pairwise (· < ·) then
      throw (label ++ " must be sorted, unique and within runtime geometry")
    else pure values

/-- `capture_axes`. -/
def captureAxes (maxRequests maxK : Nat) (requests ks : Option (List Nat)) :
    Except String (List Nat × List Nat) := do
  geometry maxRequests maxK
  let requests ← axis requests maxRequests "capture requests"
  let ks ← axis ks maxK "capture K"
  if maxK ∉ ks then throw "capture K must include native proposal K"
  return (requests, ks)

inductive Scope where
  | off | c1c2 | all
  deriving DecidableEq, Repr

structure DecodeShape where
  concurrency : Nat
  k : Nat
  deriving DecidableEq, Repr

def DecodeShape.queryLen (s : DecodeShape) : Nat := s.k + 1

def DecodeShape.tokens (s : DecodeShape) : Nat := s.concurrency * s.queryLen

/-- The lengths of a request count. -/
def shapeKs (scope : Scope) (maxK : Nat) (requests ks : List Nat) (c : Nat) : List Nat :=
  if c ∈ requests ∧ (scope = .all ∨ scope = .c1c2 ∧ c ≤ 2) then ks else [maxK]

/-- `decode_shapes`. -/
def decodeShapes (scope : Scope) (maxRequests maxK : Nat) (requests ks : Option (List Nat)) :
    Except String (List DecodeShape) := do
  let (requests, ks) ← captureAxes maxRequests maxK requests ks
  return (List.range' 1 maxRequests).flatMap fun c =>
    (shapeKs scope maxK requests ks c).map (⟨c, ·⟩)

/-! ## Settings -/

inductive Mode where
  | off | forced | ema | cost | ema4 | saturation
  deriving DecidableEq, Repr

/-- The lengths a cost table measures. -/
def KS : List Nat := [1, 2, 3, 4]

structure RawSettings where
  mode : Mode
  forcedK : Nat
  scope : Scope
  maxRequests : Nat
  maxK : Nat
  captureRequests : Option (List Nat)
  captureKs : Option (List Nat)
  deriving DecidableEq, Repr

namespace RawSettings

variable (s : RawSettings)

def axes : Except String (List Nat × List Nat) :=
  captureAxes s.maxRequests s.maxK s.captureRequests s.captureKs

def shapes : Except String (List DecodeShape) :=
  decodeShapes s.scope s.maxRequests s.maxK s.captureRequests s.captureKs

/-- `Settings.__post_init__`. -/
def check : Except String Unit := do
  geometry s.maxRequests s.maxK
  if s.forcedK ∉ Speedup.ks s.maxK then
    throw "forced_k must be an integer within configured proposal K"
  let _ ← s.shapes
  let (requests, ks) ← s.axes
  if s.mode = .forced ∧ s.forcedK ∉ ks then throw "forced K is outside captured K set"
  if (s.mode = .ema4 ∨ s.mode = .saturation) ∧ (s.maxK ≠ 7 ∨ s.scope ≠ .all ∨ s.forcedK ≠ 7 ∨
      requests ≠ List.range' 1 s.maxRequests ∨ ks ≠ List.range' 1 7) then
    throw "saturation comparison requires native K7 and complete C x K1..7 capture"
  if s.mode = .cost ∧ (s.maxK ≠ 4 ∨ s.maxRequests > 6 ∨ ks ≠ KS) then
    throw "cost tables remain qualified only for C<=6/K4"
  if s.mode ≠ .off ∧ s.scope = .off then throw "adaptive modes require captured experimental shapes"

end RawSettings

/-- Settings that are accepted. -/
structure Settings extends RawSettings where
  accepted : toRawSettings.check = .ok ()

namespace Settings

variable (s : Settings)

/-- The request counts and lengths of the settings. -/
def axesOf : List Nat × List Nat := s.axes.toOption.getD ([], [])

/-- The lengths an adaptive choice may use. -/
def capturedKs : List Nat := s.axesOf.2

end Settings

/-! ## The graphs that are captured -/

inductive CgMode where
  | full | piecewise
  deriving DecidableEq, Repr

/-- `BatchExecutionDescriptor`. -/
structure Descriptor where
  cgMode : CgMode
  numTokens : Nat
  numReqs : Option Nat
  uniformTokenCount : Option Nat
  maxQueryLen : Option Nat
  numActiveLoras : Nat
  deriving DecidableEq, Repr

/-- The descriptor of a decode shape. -/
def DecodeShape.descriptor (s : DecodeShape) : Descriptor :=
  ⟨.full, s.tokens, some s.concurrency, some s.queryLen, none, 0⟩

/-- The descriptor of a prefill tail. -/
def tailDescriptor (n : Nat) : Descriptor := ⟨.piecewise, n, some 1, none, some n, 0⟩

/-- What `extend_candidates` reads of the graph manager. -/
structure Manager where
  isModelManager : Bool
  maxNumReqs : Nat
  decodeQueryLen : Nat
  numSpeculativeTokens : Option Nat
  tpSize : Nat
  varlenDecode : Bool
  decodeMode : CgMode
  mixedMode : CgMode
  useBreakableCg : Bool

/-- `proposal_k`. -/
def Manager.proposalK (m : Manager) : Nat := m.numSpeculativeTokens.getD (m.decodeQueryLen - 1)

/-- What `extend_candidates` reads of the environment. -/
structure Environment where
  capture : Scope
  prefillTails : Bool
  joint : Bool
  wideGeometry : Bool
  captureRequests : Option (List Nat)
  captureKs : Option (List Nat)

structure ByMode where
  full : List Descriptor
  piecewise : List Descriptor

/-- Append what is not there. -/
def addMissing (l : List Descriptor) (d : Descriptor) : List Descriptor := if d ∈ l then
    l else l ++ [d]

/-- `Geometry.runtime`. -/
def runtimeGeometry (env : Environment) (maxRequests maxK : Nat) : Except String Unit := do
  geometry maxRequests maxK
  if !env.wideGeometry ∧ (maxRequests, maxK) ≠ (6, 4) then
    throw "wider geometry requires GLM53_SPEEDUP_GEOMETRY=1"

/-- The checks in front of both extensions. -/
def Manager.checked (m : Manager) (env : Environment) : Except String Unit := do
  if m.decodeQueryLen ≠ m.proposalK + 1 then
    throw "target decode query length must be configured K plus one"
  runtimeGeometry env m.maxNumReqs m.proposalK
  if m.tpSize ≠ 2 ∧ m.tpSize ≠ 4 then throw "experimental graph geometry requires TP2 or TP4"
  if env.joint ∧ (m.tpSize ≠ 4 ∨ (m.maxNumReqs, m.proposalK) ≠ (6, 4)) then
    throw "joint fair/Cost-K requires TP4"
  if env.joint ∧ (env.capture ≠ .all ∨ env.prefillTails) then
    throw "joint TP4 Cost-K requires full decode scope without prefill-tail changes"
  if m.varlenDecode then throw "adaptive-K requires uniform target graphs"

/-- The decode shapes of the scope. -/
def Manager.extendDecode (m : Manager) (env : Environment) (full : List Descriptor) :
    Except String (List Descriptor) :=
  if env.capture = .off then pure full
  else if m.decodeMode ≠ .full then throw "adaptive-K requires FULL target decode graphs"
  else do
    let shapes ← decodeShapes env.capture m.maxNumReqs m.proposalK env.captureRequests env.captureKs
    pure ((shapes.map DecodeShape.descriptor).foldl addMissing full)

def Manager.extendTails (m : Manager) (env : Environment) (piecewise : List Descriptor) :
    Except String (List Descriptor) :=
  if !env.prefillTails then pure piecewise
  else if m.mixedMode ≠ .piecewise then
    throw "prefill tails require FULL_AND_PIECEWISE with breakable graphs"
  else if !m.useBreakableCg then throw "prefill tails require breakable graph support"
  else pure (([64, 128].map tailDescriptor).foldl addMissing piecewise)

/-- `extend_candidates`. -/
def extendCandidates (env : Environment) (m : Manager) (byMode : ByMode) : Except String ByMode :=
  if !m.isModelManager ∨ (env.capture = .off ∧ !env.prefillTails) then pure byMode
  else do
    m.checked env
    let full ← m.extendDecode env byMode.full
    let piecewise ← m.extendTails env byMode.piecewise
    return ⟨full, piecewise⟩

/-! ## What the axes and shapes are -/

theorem geometry_ok {r k : Nat} :
    geometry r k = .ok () ↔ (1 ≤ r ∧ r ≤ 16) ∧ 1 ≤ k ∧ k ≤ 8 := by
  simp only [geometry, guarded_ok, checked_ok, pure_ok, not_not, and_true]

theorem axis_ok {values : Option (List Nat)} {limit : Nat} {label : String} {l : List Nat}
    (h : axis values limit label = .ok l) : ∀ x ∈ l, 1 ≤ x ∧ x ≤ limit := by
  unfold axis at h
  cases values with
  | none =>
    obtain rfl := pure_ok.mp h
    intro x hx
    rw [List.mem_range'_1] at hx
    omega
  | some values =>
    simp only [checked_ok, pure_ok, not_or, not_not] at h
    obtain ⟨-, ⟨hin, -⟩, rfl⟩ := h
    exact hin

/-- What the axes of a geometry are. -/
theorem captureAxes_ok {r k : Nat} {requests lengths : Option (List Nat)} {p : List Nat × List Nat}
    (h : captureAxes r k requests lengths = .ok p) :
    (1 ≤ k ∧ k ≤ 8) ∧ (∀ c ∈ p.1, 1 ≤ c ∧ c ≤ r) ∧ (∀ j ∈ p.2, 1 ≤ j ∧ j ≤ k) ∧ k ∈ p.2 := by
  simp only [captureAxes, bind_ok, guarded_ok, pure_ok, not_not] at h
  obtain ⟨_, hgeo, cs, hcs, js, hjs, hk, rfl⟩ := h
  exact ⟨(geometry_ok.mp hgeo).2, axis_ok hcs, axis_ok hjs, hk⟩

/-- **The shapes of a scope**: every request count, at the lengths of the scope. -/
theorem mem_decodeShapes (scope : Scope) {r k : Nat} {requests lengths : Option (List Nat)}
    {p : List Nat × List Nat} (h : captureAxes r k requests lengths = .ok p) :
    ∃ shapes, decodeShapes scope r k requests lengths = .ok shapes ∧
      ∀ s : DecodeShape, s ∈ shapes ↔ (1 ≤ s.concurrency ∧ s.concurrency ≤ r) ∧
        s.k ∈ shapeKs scope k p.1 p.2 s.concurrency := by
  refine ⟨_, by simp only [decodeShapes, h]; rfl, fun s => ?_⟩
  obtain ⟨c, j⟩ := s
  simp only [List.mem_flatMap, List.mem_map, List.mem_range'_1, DecodeShape.mk.injEq]
  constructor
  · rintro ⟨c', hc', j', hj', rfl, rfl⟩
    exact ⟨⟨hc'.1, by omega⟩, hj'⟩
  · rintro ⟨hc, hj⟩
    exact ⟨c, ⟨hc.1, by omega⟩, j, hj, rfl, rfl⟩

/-- The native length is a shape of every request count. -/
theorem native_mem_shapeKs {scope : Scope} {k c : Nat} {requests lengths : List Nat}
    (hk : k ∈ lengths) :
    k ∈ shapeKs scope k requests lengths c := by
  unfold shapeKs
  split_ifs
  · exact hk
  · exact List.mem_singleton_self k

theorem mem_addMissing {l : List Descriptor} {d e : Descriptor} :
    e ∈ addMissing l d ↔ e ∈ l ∨ e = d := by
  unfold addMissing
  split_ifs with h
  · exact ⟨Or.inl, fun h' => h'.elim id fun he => he ▸ h⟩
  · simp

theorem mem_foldl_addMissing {ds l : List Descriptor} {e : Descriptor} :
    e ∈ ds.foldl addMissing l ↔ e ∈ l ∨ e ∈ ds := by
  induction ds generalizing l with
  | nil => simp
  | cons d ds ih => rw [List.foldl_cons, ih, mem_addMissing, List.mem_cons, or_assoc]

/-- **Every shape of an adaptive scope has its descriptor** among the graphs to capture. -/
theorem mem_extendCandidates {env : Environment} {m : Manager} {byMode byMode' : ByMode}
    {shapes : List DecodeShape} (hscope : env.capture ≠ .off) (hm : m.isModelManager = true)
    (h : extendCandidates env m byMode = .ok byMode')
    (hshapes : decodeShapes env.capture m.maxNumReqs m.proposalK env.captureRequests env.captureKs =
      .ok shapes) :
    ∀ s ∈ shapes, s.descriptor ∈ byMode'.full := by
  intro s hs
  have hgo : ¬ (!m.isModelManager ∨ (env.capture = .off ∧ !env.prefillTails)) :=
    by simp [hscope, hm]
  rw [extendCandidates, if_neg hgo] at h
  simp only [bind_ok, Manager.extendDecode, if_neg hscope, checked_ok, hshapes, pure_ok,
    Except.ok.injEq] at h
  obtain ⟨_, _, full, ⟨_, _, rfl, rfl⟩, _, _, rfl⟩ := h
  exact mem_foldl_addMissing.mpr (Or.inr (List.mem_map_of_mem hs))

/-! ## Accepted settings -/

/-- What `__post_init__` asks of settings with the axes `p`. -/
structure RawSettings.Accepted (s : RawSettings) (p : List Nat × List Nat) : Prop where
  geometry : (1 ≤ s.maxRequests ∧ s.maxRequests ≤ 16) ∧ 1 ≤ s.maxK ∧ s.maxK ≤ 8
  forcedK : s.forcedK ∈ ks s.maxK
  axes : s.axes = .ok p
  forced : s.mode = .forced → s.forcedK ∈ p.2
  growth : s.mode = .ema4 ∨ s.mode = .saturation → s.maxK = 7 ∧ s.scope = .all ∧ s.forcedK = 7 ∧
    p.1 = List.range' 1 s.maxRequests ∧ p.2 = List.range' 1 7
  cost : s.mode = .cost → s.maxK = 4 ∧ s.maxRequests ≤ 6 ∧ p.2 = KS
  adaptive : s.mode ≠ .off → s.scope ≠ .off

theorem check_ok {s : RawSettings} : s.check = .ok () ↔ ∃ p, s.Accepted p := by
  simp only [RawSettings.check, bind_ok, guarded_ok, checked_ok, pure_ok, and_true, not_and,
    not_or, not_not, not_lt, gt_iff_lt]
  constructor
  · rintro ⟨_, hgeo, hk, shapes, _, p, haxes, hforced, hgrowth, hcost, hscope⟩
    exact ⟨p, geometry_ok.mp hgeo, hk, haxes, hforced, hgrowth, hcost, hscope⟩
  · rintro ⟨p, h⟩
    obtain ⟨shapes, hshapes, -⟩ := mem_decodeShapes s.scope h.axes
    exact ⟨(), geometry_ok.mpr h.geometry, h.forcedK, shapes, hshapes, p, h.axes, h.forced,
      h.growth, h.cost, h.adaptive⟩

namespace Settings

variable (s : Settings)

theorem axesOf_spec : s.Accepted s.axesOf := by
  obtain ⟨p, hp⟩ := check_ok.mp s.accepted
  have : s.axesOf = p := by rw [axesOf, hp.axes]; rfl
  rwa [this]

/-- What an adaptive length may be. -/
theorem capturedKs_spec : (1 ≤ s.maxK ∧ s.maxK ≤ 8) ∧
    (∀ c ∈ s.axesOf.1, 1 ≤ c ∧ c ≤ s.maxRequests) ∧
    (∀ j ∈ s.capturedKs, 1 ≤ j ∧ j ≤ s.maxK) ∧ s.maxK ∈ s.capturedKs :=
  captureAxes_ok s.axesOf_spec.axes

/-- The settings of the baseline that the growing modes consult. -/
def baseline : Settings where
  mode := .ema
  forcedK := 4
  scope := .all
  maxRequests := s.maxRequests
  maxK := 4
  captureRequests := none
  captureKs := none
  accepted := by
    have hgeo := s.axesOf_spec.geometry.1
    refine check_ok.mpr ⟨(List.range' 1 s.maxRequests, List.range' 1 4),
      ⟨hgeo, show 1 ≤ 4 ∧ 4 ≤ 8 by decide⟩,
      show 4 ∈ ks 4 by decide, ?_, nofun, by simp, nofun, by simp⟩
    simp only [RawSettings.axes, captureAxes,
      geometry_ok.mpr (⟨hgeo, by decide⟩ : _ ∧ 1 ≤ 4 ∧ 4 ≤ 8)]
    rfl

end Settings

end Ringside.Speedup

import Ringside.Speedup.Geometry
import Ringside.Speedup.Saturation

/-!
# The verification-length policy (`Policy`, `glm53_speedup/policy.py`)

For each decode step `Policy.choose` picks a speculative length for the whole batch, from the
acceptance history of its requests, from a table of measured costs or from the growth controller of
`Saturation`. Whatever it picks has to be a length for which a graph was captured.

* Every operation on floating-point numbers is a parameter (`FloatOps`), so the results hold for
  whatever they return, exceptions included.
* An operation that raises leaves the state it has reached, as Python does: a call has an effect and
  an answer, or an effect and an exception.
* The baseline of the growing modes is a policy without a baseline of its own, so a `Policy` is a
  `Core` and perhaps an extension. The observation counters and the bridge's log are left out: no
  length depends on them.
* `Core.choose` has the branches of the source in order: the mode that is off, batches outside of
  what was captured, the forced length, then the adaptive modes with their warm-up and their probe
  at full length, and the hysteresis of four turns behind them (`take`).
* `Call` are the calls that the bridge makes, in any order.

Results:
* `Core.choose_answers`: what a policy without an extension answers, and that it stays sound.
* `sound_choose`: what a policy answers, and that it stays sound.
* `sound_after`: the invariant of the policy after every history of calls.

Out of scope: the drafter and the verification kernel, which take the length.
-/

namespace Ringside.Speedup

open Run Checks
open Saturation (SaturationGrowth)

/-! ## Histories and costs

The arithmetic is a parameter. Nothing below depends on what the estimates are, only on which
lengths an answer can be.
-/

/-- The floating-point operations of the policy. -/
structure FloatOps (F : Type) where
  ofNat : Nat → F
  /-- `.8 * old + .2 * new`. -/
  blend : F → F → F
  add : F → F → F
  min : F → F → F
  sum : List F → F
  div : F → F → Except String F
  gt : F → F → Bool
  eq : F → F → Bool
  /-- `math.ceil`. -/
  ceil : F → Except String Int
  /-- Equality of two cost tables, entry by entry. -/
  sameCosts : List ((Nat × Nat × Nat) × F) → List ((Nat × Nat × Nat) × F) → Bool

variable {Rid F : Type} (ops : FloatOps F)

structure RequestHistory (F : Type) where
  steps : Nat
  acceptedEma : F
  survival : List F
  maxK : Nat

namespace RequestHistory

def new (maxK : Nat) : RequestHistory F :=
    ⟨0, ops.ofNat maxK, List.replicate maxK (ops.ofNat 1), maxK⟩

/-- `observe`: only a full-length draw moves the length estimate. -/
def observe (h : RequestHistory F) (proposed accepted : Int) : Except String (RequestHistory F) :=
  if ¬ (1 ≤ proposed ∧ proposed ≤ h.maxK) ∨ ¬ (0 ≤ accepted ∧ accepted ≤ proposed) then
    throw "invalid proposed/accepted prefix"
  else pure
    { h with
      acceptedEma := if proposed = h.maxK then ops.blend h.acceptedEma (ops.ofNat accepted.toNat)
        else h.acceptedEma
      survival := h.survival.zipIdx.map fun (p, j) =>
        if (j : Int) < proposed then ops.blend p (ops.ofNat (if accepted > j then 1 else 0)) else p
      steps := h.steps + 1 }

/-- `expected_tokens`. -/
def expectedTokens (h : RequestHistory F) (k : Nat) : F :=
  ((h.survival.take k).foldl (fun (running, total) p =>
    let running := ops.min running p
    (running, ops.add total running)) (ops.ofNat 1, ops.ofNat 1)).2

end RequestHistory

inductive ExecutionKind where
  | unspecifiedLegacy | k4DrafterTrimmed | nativeK
  deriving DecidableEq, Repr

/-- Measured step times by concurrency, context and length. -/
structure CostTable (F : Type) where
  costs : List ((Nat × Nat × Nat) × F)
  executionKind : ExecutionKind
  outputHeadroom : Nat
  compatibilityIdentity : Option String

def CONTEXTS : List Nat := [8192, 32768, 131072]

/-- `curve` with the measured output span: the costs of the lengths `KS`. -/
def CostTable.curve (t : CostTable F) (c context : Nat) : Option (List F) := do
  if ¬ (1 ≤ c ∧ c ≤ 6) then none
  let bucket ← CONTEXTS.find? fun candidate =>
    t.costs.any (fun e => e.1.2.1 = candidate) && decide (context ≤ candidate + t.outputHeadroom)
  KS.mapM fun k => t.costs.lookup (c, bucket, k)

/-- Equality of two tables. -/
def sameTable : Option (CostTable F) → Option (CostTable F) → Bool
  | none, none => true
  | some t, some u => ops.sameCosts t.costs u.costs && t.executionKind = u.executionKind &&
      t.outputHeadroom = u.outputHeadroom && t.compatibilityIdentity = u.compatibilityIdentity
  | _, _ => false

/-! ## The policy without an extension -/

structure Decision where
  k : Nat
  reason : String
  shape : Option DecodeShape
  deriving DecidableEq, Repr

/-- The fields of `Policy` but `baseline` and `growth`. -/
structure Core (Rid F : Type) where
  settings : Settings
  costs : Option (CostTable F)
  requests : Rid → Option (RequestHistory F)
  currentK : Nat
  pendingK : Nat
  pendingCount : Nat
  steps : Nat
  members : List Rid

namespace Core

def new (settings : Settings) (costs : Option (CostTable F)) : Core Rid F :=
  ⟨settings, costs, fun _ => none, settings.maxK, settings.maxK, 0, 0, []⟩

variable (p : Core Rid F)

/-- `result`. -/
def result (c k : Nat) (reason : String) : Decision :=
  ⟨k, reason, if 1 ≤ c ∧ c ≤ p.settings.maxRequests then some ⟨c, k⟩ else none⟩

/-- The history of a request, fresh if there is none. -/
def history (r : Rid) : RequestHistory F := (p.requests r).getD (.new ops p.settings.maxK)

/-- `max` of tuples: the larger ratio, or at the same ratio the larger length. -/
def better (a b : F × Nat) : Bool := if ops.eq a.1 b.1 then b.2 < a.2 else ops.gt a.1 b.1

/-- The length with the most expected tokens for its cost. -/
def cheapest (histories : List (RequestHistory F)) (curve : List F) : Except String Nat := do
  let ratios ← (KS.zip curve).mapM fun (k, cost) => do
    pure (← ops.div (ops.sum (histories.map fun h => h.expectedTokens ops k)) cost, k)
  match ratios with
  | [] => throw "max() arg is an empty sequence"
  | first :: rest => pure (rest.foldl (fun best v => if better ops v best then v else best) first).2

/-- The longest accepted prefix that a member is expected to reach. -/
def longest (histories : List (RequestHistory F)) : Except String Nat := do
  let lengths ← histories.mapM fun h => do
    let up ← ops.ceil (ops.add h.acceptedEma (ops.ofNat 1))
    pure (max 1 (min (p.settings.maxK : Int) up)).toNat
  match lengths with
  | [] => throw "max() arg is an empty sequence"
  | first :: rest => pure (rest.foldl max first)

/-- Four turns in a row ask for another length before it is taken. -/
def hysteresis (desired : Nat) : Core Rid F :=
  if desired = p.currentK then { p with pendingCount := 0 }
  else
    let count := if desired = p.pendingK then p.pendingCount + 1 else 1
    if 4 ≤ count then { p with currentK := desired, pendingK := desired, pendingCount := 0 }
    else { p with pendingK := desired, pendingCount := count }

/-- The turn of an adaptive mode once the length it desires is known, rounded up into the captured
lengths. -/
def take (capturedK : List Nat) (c : Nat) (reason : String) (desired : Nat) :
    Core Rid F × Except String Decision :=
  match capturedK.find? (desired ≤ ·) with
  | none => (p, .error "StopIteration")
  | some k => (p.hysteresis k, .ok (p.result c (p.hysteresis k).currentK reason))

variable [LinearOrder Rid]

/-- The adaptive modes: the turns before a length is computed, then the length. -/
def adaptive (capturedK : List Nat) (contexts : List (Rid × Nat)) :
    Core Rid F × Except String Decision :=
  let c := contexts.length
  let histories := p.members.map (p.history ops)
  let p := { p with
    requests := fun r => if r ∈ p.members then some (p.history ops r) else p.requests r
    steps := p.steps + 1 }
  if histories.any (·.steps < 8) then (p, .ok (p.result c p.settings.maxK "warmup"))
  else if p.steps % 16 = 0 then (p, .ok (p.result c p.settings.maxK "full_length_probe"))
  else if p.settings.mode = .ema then
    match p.longest ops histories with
    | .error e => (p, .error e)
    | .ok desired => p.take capturedK c "ema" desired
  else
    match p.costs with
    | none => (p, .ok (p.result c p.settings.maxK "unqualified_cost_curve"))
    | some costs =>
      if costs.executionKind = .nativeK then
        (p, .ok (p.result c p.settings.maxK "cost_execution_kind_mismatch"))
      else match costs.curve c ((contexts.map Prod.snd).foldl max 0) with
        | none => (p, .ok (p.result c p.settings.maxK "unqualified_cost_curve"))
        | some curve =>
          match cheapest ops histories curve with
          | .error e => (p, .error e)
          | .ok desired => p.take capturedK c "cost" desired

/-- `choose` without an extension. -/
def choose (contexts : List (Rid × Nat)) (mixed : Bool) : Core Rid F × Except String Decision :=
  let c := contexts.length
  let native := fun reason => (p, Except.ok (p.result c p.settings.maxK reason))
  if p.settings.mode = .off then native "disabled"
  else if ¬ (1 ≤ c ∧ c ≤ p.settings.maxRequests) ∨ mixed then native "mixed_or_unsupported_batch"
  else match p.settings.axes with
    | .error e => (p, .error e)
    | .ok (capturedC, capturedK) =>
      if c ∉ capturedC ∨ (p.settings.scope = .c1c2 ∧ 2 < c) then native "outside_capture_scope"
      else
        let members := (contexts.map Prod.fst).mergeSort (· ≤ ·)
        let p := if members ≠ p.members then
          { p with
            members := members, currentK := p.settings.maxK, pendingK := p.settings.maxK,
            pendingCount := 0 }
          else p
        if p.settings.mode = .forced then (p, .ok (p.result c p.settings.forcedK "forced"))
        else p.adaptive ops capturedK contexts

/-- `observe` on the histories. -/
def observe (r : Rid) (proposed accepted : Int) : Core Rid F × Except String Unit :=
  let h := p.history ops r
  match h.observe ops proposed accepted with
  | .error e => ({ p with requests := Function.update p.requests r (some h) }, .error e)
  | .ok h => ({ p with requests := Function.update p.requests r (some h) }, .ok ())

/-- `discard`. -/
def discard (r : Rid) : Core Rid F := { p with requests := Function.update p.requests r none }

/-- `retain`. -/
def retain (live : List Rid) : Core Rid F :=
  { p with requests := fun r => if r ∈ live then p.requests r else none }

end Core

/-! ## What a policy without an extension answers

Every branch ends in `result`, with a length that is the native one, a captured one, or one rounded
up into the captured ones. So an answer is allowed whatever the costs say; costs only choose among
them.
-/

section Core

variable {p q : Core Rid F}

/-- The length `k` is captured for `c` requests. -/
def Settings.Allows (s : Settings) (c k : Nat) : Prop :=
  k ∈ shapeKs s.scope s.maxK s.axesOf.1 s.capturedKs c

theorem Settings.allows_native (s : Settings) (c : Nat) : s.Allows c s.maxK :=
  native_mem_shapeKs s.capturedKs_spec.2.2.2

/-- Inside the scope of an adaptive mode every captured length is captured. -/
theorem Settings.allows_captured {s : Settings} {c k : Nat} (hmode : s.mode ≠ .off)
    (hc : ¬ (c ∉ s.axesOf.1 ∨ (s.scope = .c1c2 ∧ 2 < c))) (hk : k ∈ s.capturedKs) :
      s.Allows c k := by
  push Not at hc
  have hscope : s.scope = .all ∨ s.scope = .c1c2 ∧ c ≤ 2 := by
    cases h : s.scope with
    | off => exact absurd h (s.axesOf_spec.adaptive hmode)
    | c1c2 => exact Or.inr ⟨rfl, hc.2 h⟩
    | all => exact Or.inl rfl
  unfold Settings.Allows shapeKs
  rwa [if_pos ⟨hc.1, hscope⟩]

/-- A captured length is one of the lengths of the geometry. -/
theorem Settings.Allows.bounds {s : Settings} {c k : Nat} (h : s.Allows c k) : 1 ≤ k ∧
    k ≤ s.maxK := by
  obtain ⟨hgeo, -, hks, -⟩ := s.capturedKs_spec
  unfold Settings.Allows shapeKs at h
  split_ifs at h with hc
  · exact hks k h
  · obtain rfl := List.mem_singleton.mp h
    exact ⟨hgeo.1, le_refl _⟩

/-- A length below the native one is captured for request counts of the geometry. -/
theorem Settings.Allows.count_bounds {s : Settings} {c k : Nat} (h : s.Allows c k)
    (hk : k ≠ s.maxK) :
    1 ≤ c ∧ c ≤ s.maxRequests := by
  unfold Settings.Allows shapeKs at h
  split_ifs at h with hc
  · exact s.capturedKs_spec.2.1 c hc.1
  · exact absurd (List.mem_singleton.mp h) hk

/-- What a call keeps: the settings, and a current length that is captured. -/
structure Core.Kept (p q : Core Rid F) : Prop where
  settings : q.settings = p.settings
  current : p.currentK ∈ p.settings.capturedKs → q.currentK ∈ p.settings.capturedKs

theorem Core.Kept.rfl : Core.Kept p p := ⟨Eq.refl _, id⟩

theorem Core.Kept.trans {r : Core Rid F} (h : Core.Kept p q) (h' : Core.Kept q r) :
    Core.Kept p r where
  settings := h'.settings.trans h.settings
  current hp := h.settings ▸ h'.current (h.settings ▸ h.current hp)

/-- What a choice for `c` requests answers: it keeps the policy, and an answer is an allowed length.
-/
structure Core.Answers (p : Core Rid F) (c : Nat)
    (out : Core Rid F × Except String Decision) : Prop where
  kept : Core.Kept p out.1
  allowed : p.currentK ∈ p.settings.capturedKs → ∀ d, out.2 = .ok d →
    p.settings.Allows c d.k ∧
      d.shape = if 1 ≤ c ∧ c ≤ p.settings.maxRequests then some ⟨c, d.k⟩ else none

theorem Core.Kept.answers {c : Nat} {out : Core Rid F × Except String Decision} (h : Core.Kept p q)
    (ho : Core.Answers q c out) : Core.Answers p c out where
  kept := h.trans ho.kept
  allowed hp d hd := h.settings ▸ ho.allowed (h.settings ▸ h.current hp) d hd

theorem Core.answers_error {c : Nat} {e : String} : Core.Answers p c (p, .error e) :=
    ⟨.rfl, fun _ _ => nofun⟩

theorem Core.answers_result {c k : Nat} {reason : String}
    (hk : p.currentK ∈ p.settings.capturedKs → p.settings.Allows c k) :
    Core.Answers p c (p, .ok (p.result c k reason)) where
  kept := .rfl
  allowed hp d hd := by
    obtain rfl := Except.ok.inj hd
    exact ⟨hk hp, rfl⟩

theorem Core.answers_native {c : Nat} {reason : String} :
    Core.Answers p c (p, .ok (p.result c p.settings.maxK reason)) :=
  answers_result fun _ => p.settings.allows_native c

theorem Core.kept_hysteresis {k : Nat} (hk : k ∈ p.settings.capturedKs) :
    Core.Kept p (p.hysteresis k) := by
  unfold hysteresis
  by_cases h : k = p.currentK
  · rw [if_pos h]
    exact ⟨rfl, id⟩
  rw [if_neg h]
  generalize (if k = p.pendingK then p.pendingCount + 1 else 1) = count
  by_cases h4 : 4 ≤ count
  · exact (if_pos h4).symm ▸ ⟨rfl, fun _ => hk⟩
  · exact (if_neg h4).symm ▸ ⟨rfl, id⟩

/-- The desired length is rounded up into the captured ones, so the current length stays captured.
-/
theorem Core.take_answers {c desired : Nat} {reason : String} (hmode : p.settings.mode ≠ .off)
    (hc : ¬ (c ∉ p.settings.axesOf.1 ∨ (p.settings.scope = .c1c2 ∧ 2 < c))) :
    Core.Answers p c (p.take p.settings.capturedKs c reason desired) := by
  unfold take
  cases hfind : p.settings.capturedKs.find? (desired ≤ ·) with
  | none => exact answers_error
  | some k =>
    have hkept := kept_hysteresis (List.mem_of_find?_eq_some hfind)
    refine ⟨hkept, fun hp d hd => ?_⟩
    obtain rfl := Except.ok.inj hd
    exact ⟨Settings.allows_captured hmode hc (hkept.current hp), rfl⟩

variable [LinearOrder Rid]

theorem Core.adaptive_answers {contexts : List (Rid × Nat)} (hmode : p.settings.mode ≠ .off)
    (hc : ¬ (contexts.length ∉ p.settings.axesOf.1 ∨
      (p.settings.scope = .c1c2 ∧ 2 < contexts.length))) :
    Core.Answers p contexts.length (p.adaptive ops p.settings.capturedKs contexts) := by
  -- counting the step and filling in fresh histories touches neither the settings nor the current
  -- length
  let q : Core Rid F := { p with
    requests := fun r => if r ∈ p.members then some (p.history ops r) else p.requests r
    steps := p.steps + 1 }
  have hq : Core.Kept p q := ⟨rfl, id⟩
  refine hq.answers ?_
  have htake : ∀ desired reason, Core.Answers q contexts.length
      (q.take p.settings.capturedKs contexts.length reason desired) :=
        fun _ _ => take_answers hmode hc
  unfold adaptive
  dsimp only
  split_ifs
  · exact answers_native
  · exact answers_native
  · split
    · exact answers_error
    · exact htake _ _
  · split
    · exact answers_native
    · split_ifs
      · exact answers_native
      · split
        · exact answers_native
        · split
          · exact answers_error
          · exact htake _ _

/-- **A policy without an extension answers an allowed length**, in every mode. -/
theorem Core.choose_answers (contexts : List (Rid × Nat)) (mixed : Bool) :
    Core.Answers p contexts.length (p.choose ops contexts mixed) := by
  have haxes : p.settings.axes = .ok (p.settings.axesOf.1, p.settings.capturedKs) :=
    p.settings.axesOf_spec.axes
  unfold choose
  simp only [haxes]
  by_cases hmode : p.settings.mode = .off
  · rw [if_pos hmode]
    exact answers_native
  rw [if_neg hmode]
  by_cases hbatch : ¬ (1 ≤ contexts.length ∧ contexts.length ≤ p.settings.maxRequests) ∨
    mixed = true
  · rw [if_pos hbatch]
    exact answers_native
  rw [if_neg hbatch]
  by_cases hc : contexts.length ∉ p.settings.axesOf.1 ∨
    (p.settings.scope = .c1c2 ∧ 2 < contexts.length)
  · rw [if_pos hc]
    exact answers_native
  rw [if_neg hc]
  -- a batch of other members starts again from the native length
  generalize hq : (if (contexts.map Prod.fst).mergeSort (· ≤ ·) ≠ p.members then
    { p with members := (contexts.map Prod.fst).mergeSort (· ≤ ·), currentK := p.settings.maxK,
             pendingK := p.settings.maxK, pendingCount := 0 } else p) = q
  have hkept : Core.Kept p q := by
    subst hq
    split_ifs
    · exact ⟨rfl, fun _ => p.settings.capturedKs_spec.2.2.2⟩
    · exact .rfl
  have hs := hkept.settings
  refine hkept.answers ?_
  rw [← hs] at hmode hc ⊢
  by_cases hforced : q.settings.mode = .forced
  · rw [if_pos hforced]
    exact answers_result fun _ => Settings.allows_captured hmode hc
      (q.settings.axesOf_spec.forced hforced)
  · rw [if_neg hforced]
    exact adaptive_answers ops hmode hc

theorem Core.kept_observe (r : Rid) (proposed accepted : Int) :
    Core.Kept p (p.observe ops r proposed accepted).1 := by
  unfold observe
  dsimp only
  split
  · exact ⟨rfl, id⟩
  · exact ⟨rfl, id⟩

end Core

/-! ## The policy -/

/-- `Policy`: in the growing modes with the baseline and the growth controller. -/
structure Policy (Rid F : Type) where
  core : Core Rid F
  extension : Option (Core Rid F × SaturationGrowth Rid)

namespace Policy

def growing (mode : Mode) : Bool := mode = .ema4 ∨ mode = .saturation

variable [LinearOrder Rid]

/-- `_reset_extension`. -/
def resetExtension (core : Core Rid F) : Policy Rid F :=
  ⟨core, if growing core.settings.mode then
    some (.new core.settings.baseline none, .reset) else none⟩

def new (settings : Settings) (costs : Option (CostTable F)) : Policy Rid F :=
  resetExtension (.new settings costs)

variable (p : Policy Rid F)

def discard (r : Rid) : Policy Rid F :=
  ⟨p.core.discard r, p.extension.map fun (b, _) => (b.discard r, .reset)⟩

/-- `configure`; no `costs` keep the old ones. -/
def configure (settings : Settings) (costs : Option (Option (CostTable F))) :
    Policy Rid F × Except String Unit :=
  let old := p.core.settings
  if (settings.maxK, settings.maxRequests, settings.captureRequests, settings.captureKs) ≠
      (old.maxK, old.maxRequests, old.captureRequests, old.captureKs) then
    (p, .error "runtime geometry is immutable; requires restart and recapture")
  else
    let next := costs.getD p.core.costs
    if settings.toRawSettings ≠ old.toRawSettings ∨ !sameTable ops next p.core.costs then
      (resetExtension { p.core with
        settings := settings, costs := next, currentK := settings.maxK, pendingK := settings.maxK
        pendingCount := 0 }, .ok ())
    else (p, .ok ())

def retain (live : List Rid) : Policy Rid F :=
  ⟨p.core.retain live, p.extension.map fun (b, g) =>
    (b.retain live, if ∀ r ∈ g.members, r ∈ live then g else .reset)⟩

def observe (r : Rid) (proposed accepted : Int) : Policy Rid F × Except String Unit :=
  match p.core.observe ops r proposed accepted with
  | (core, .error e) => ({ p with core := core }, .error e)
  | (core, .ok ()) =>
    match p.extension with
    | none => ({ p with core := core }, .ok ())
    | some (b, g) =>
      match b.observe ops r (min proposed 4) (min accepted 4) with
      | (b, .error e) => (⟨core, some (b, g)⟩, .error e)
      | (b, .ok ()) =>
        (⟨core, some (b, if core.settings.mode = .saturation then g.observe r proposed accepted
          else g)⟩, .ok ())

def choose (contexts : List (Rid × Nat)) (mixed : Bool) : Policy Rid F × Except String Decision :=
  match p.extension with
  | none =>
    let (core, d) := p.core.choose ops contexts mixed
    ({ p with core := core }, d)
  | some (b, g) =>
    let c := contexts.length
    if ¬ (1 ≤ c ∧ c ≤ p.core.settings.maxRequests) ∨ mixed then
      (⟨p.core, some (b, .reset)⟩,
        .ok (p.core.result c p.core.settings.maxK "mixed_or_unsupported_batch"))
    else
      match b.choose ops contexts false with
      | (b, .error e) => (⟨p.core, some (b, g)⟩, .error e)
      | (b, .ok base) =>
        if p.core.settings.mode = .ema4 then
          (⟨p.core, some (b, g)⟩, .ok (p.core.result c base.k ("ema4_" ++ base.reason)))
        else
          let (g, k, reason) := g.choose ((contexts.map Prod.fst).mergeSort (· ≤ ·)) base.k
          (⟨p.core, some (b, g)⟩, .ok (p.core.result c k.toNat reason))

end Policy

/-- One call on the policy. -/
inductive Call (Rid F : Type) where
  | observe (r : Rid) (proposed accepted : Int)
  | configure (settings : Settings) (costs : Option (Option (CostTable F)))
  | retain (live : List Rid)
  | discard (r : Rid)
  | choose (contexts : List (Rid × Nat)) (mixed : Bool)

variable [LinearOrder Rid]

/-- The effect of a call, whether or not it raises. -/
def Policy.call (p : Policy Rid F) : Call Rid F → Policy Rid F
  | .observe r proposed accepted => (p.observe ops r proposed accepted).1
  | .configure settings costs => (p.configure ops settings costs).1
  | .retain live => p.retain live
  | .discard r => p.discard r
  | .choose contexts mixed => (p.choose ops contexts mixed).1

/-- The policy after a history of calls. -/
abbrev Policy.after (settings : Settings) (costs : Option (CostTable F)) (h : List (Call Rid F)) :
    Policy Rid F :=
  run (Policy.call ops) (.new settings costs) h

/-! ## The invariant of the policy

The settings may change between calls, and with them what is allowed. `Sound` therefore names the
settings, and `configure` moves it to the new ones; a call that raises keeps it as well.
-/

/-- The geometry that a restart alone may change. -/
def RawSettings.geometryKey (s : RawSettings) : Nat × Nat × Option (List Nat) × Option (List Nat) :=
  (s.maxK, s.maxRequests, s.captureRequests, s.captureKs)

/-- The answer of the growth controller is the baseline's short length or one of the lengths 4 to 7.
-/
theorem growth_answer (h : List (Saturation.Event Rid)) (members : List Rid) (baselineK : Int) :
    let k := ((Saturation.after h).choose members baselineK).2.1
    k = baselineK ∨ 4 ≤ k ∧ k ≤ 7 := by
  obtain ⟨h4, h7, -⟩ := Saturation.evidence_run h
  rcases Saturation.choose_cases (Saturation.after h) members baselineK with
    ⟨-, hk, -⟩ | ⟨-, hlt, -, -, hk, -⟩ | ⟨-, hk, -⟩
  · simp only [hk]
    split_ifs with hb
    · exact Or.inl rfl
    · exact Or.inr (by decide)
  · simp only [hk]
    exact Or.inr (by omega)
  · simp only [hk]
    exact Or.inr ⟨h4, h7⟩

namespace Policy

/-- The extension of settings: it is there in the growing modes, its baseline is the EMA policy of
length 4 and its controller has seen calls only. -/
def ExtensionOk (settings : Settings) : Option (Core Rid F × SaturationGrowth Rid) → Prop
  | none => growing settings.mode = false
  | some (b, g) => growing settings.mode = true ∧ b.settings = settings.baseline ∧
      b.currentK ∈ settings.baseline.capturedKs ∧ ∃ h, g = Saturation.after h

/-- What holds of a policy made with `settings` after every call. -/
structure Sound (settings : Settings) (p : Policy Rid F) : Prop where
  geometry : p.core.settings.geometryKey = settings.geometryKey
  current : p.core.currentK ∈ p.core.settings.capturedKs
  extension : ExtensionOk p.core.settings p.extension

variable {settings : Settings} {p : Policy Rid F}

theorem extensionOk_reset (core : Core Rid F) :
    ExtensionOk core.settings (resetExtension core).extension := by
  unfold resetExtension
  by_cases hg : growing core.settings.mode
  · simp only [hg, if_true]
    exact ⟨hg, rfl, core.settings.baseline.capturedKs_spec.2.2.2, [], rfl⟩
  · rw [if_neg hg]
    exact Bool.eq_false_iff.mpr hg

/-- Calls on the core that keep its settings, and calls on the parts of the extension. -/
theorem Sound.of_kept {core : Core Rid F} {e : Option (Core Rid F × SaturationGrowth Rid)}
    (hp : p.Sound settings) (hcore : Core.Kept p.core core) (he : ExtensionOk p.core.settings e) :
    Sound settings ⟨core, e⟩ where
  geometry := by rw [hcore.settings, hp.geometry]
  current := by
    change core.currentK ∈ core.settings.capturedKs
    rw [hcore.settings]
    exact hcore.current hp.current
  extension := by
    change ExtensionOk core.settings e
    rwa [hcore.settings]

theorem sound_discard (hp : p.Sound settings) (r : Rid) : (p.discard r).Sound settings := by
  refine hp.of_kept ⟨rfl, id⟩ ?_
  have he := hp.extension
  cases hext : p.extension with
  | none => rwa [hext] at he
  | some e =>
    rw [hext] at he
    exact ⟨he.1, he.2.1, he.2.2.1, [], rfl⟩

theorem sound_retain (hp : p.Sound settings) (live : List Rid) :
    (p.retain live).Sound settings := by
  refine hp.of_kept ⟨rfl, id⟩ ?_
  have he := hp.extension
  cases hext : p.extension with
  | none => rwa [hext] at he
  | some e =>
    rw [hext] at he
    obtain ⟨hg, hb, hk, h, heq⟩ := he
    refine ⟨hg, hb, hk, ?_⟩
    by_cases hl : ∀ r ∈ e.2.members, r ∈ live
    · exact ⟨h, (if_pos hl).trans heq⟩
    · exact ⟨[], if_neg hl⟩

theorem sound_configure (hp : p.Sound settings) (next : Settings)
    (costs : Option (Option (CostTable F))) :
    (p.configure ops next costs).1.Sound settings := by
  unfold configure
  dsimp only
  split
  · exact hp
  · rename_i hgeo
    split
    · -- the new settings start from their native length with a fresh extension
      exact ⟨(not_not.mp hgeo).trans hp.geometry, next.capturedKs_spec.2.2.2, extensionOk_reset _⟩
    · exact hp

theorem sound_observe (hp : p.Sound settings) (r : Rid) (proposed accepted : Int) :
    (p.observe ops r proposed accepted).1.Sound settings := by
  have hcore := Core.kept_observe (p := p.core) ops r proposed accepted
  have he := hp.extension
  unfold observe
  generalize p.core.observe ops r proposed accepted = out at hcore ⊢
  obtain ⟨core, _ | _⟩ := out
  · exact hp.of_kept hcore he
  cases hext : p.extension with
  | none =>
    rw [hext] at he
    exact hp.of_kept hcore he
  | some e =>
    rw [hext] at he
    obtain ⟨b, g⟩ := e
    obtain ⟨hg, hb, hk, h, rfl⟩ := he
    have hbase := Core.kept_observe (p := b) ops r (min proposed 4) (min accepted 4)
    dsimp only
    generalize b.observe ops r (min proposed 4) (min accepted 4) = out at hbase ⊢
    obtain ⟨b', _ | _⟩ := out
    all_goals
      have hb' : b'.settings = p.core.settings.baseline := hbase.settings.trans hb
      have hk' : b'.currentK ∈ p.core.settings.baseline.capturedKs := hb ▸ hbase.current (hb ▸ hk)
    · exact hp.of_kept hcore ⟨hg, hb', hk', h, rfl⟩
    · refine hp.of_kept hcore ⟨hg, hb', hk', ?_⟩
      split_ifs
      · exact ⟨_, (Saturation.after_snoc h (.observe r proposed accepted)).symm⟩
      · exact ⟨h, rfl⟩

/-- A growing mode has captured every length from 1 to 7 for every batch. -/
theorem allows_of_growing {s : Settings} {c k : Nat} (hg : growing s.mode = true)
    (hc : 1 ≤ c ∧ c ≤ s.maxRequests) (hk : 1 ≤ k ∧ k ≤ 7) : s.Allows c k := by
  obtain ⟨-, hscope, -, hreq, hks⟩ := s.axesOf_spec.growth (by simpa [growing] using hg)
  unfold Settings.Allows shapeKs Settings.capturedKs
  rw [hreq, hks, hscope, if_pos ⟨List.mem_range'_1.mpr (by omega), Or.inl rfl⟩, List.mem_range'_1]
  omega

/-- The answer of a choice for `c` requests under `s`: an allowed length, and its shape. -/
def Captured (s : Settings) (c : Nat) (d : Decision) : Prop :=
  s.Allows c d.k ∧ d.shape = if 1 ≤ c ∧ c ≤ s.maxRequests then some ⟨c, d.k⟩ else none

/-- **A choice keeps the policy sound and answers an allowed length**, in every mode. -/
theorem sound_choose (hp : p.Sound settings) (contexts : List (Rid × Nat)) (mixed : Bool) :
    (p.choose ops contexts mixed).1.Sound settings ∧
      ∀ d, (p.choose ops contexts mixed).2 = .ok d →
      Captured p.core.settings contexts.length d := by
  have he := hp.extension
  unfold choose
  cases hext : p.extension with
  | none =>
    rw [hext] at he
    obtain ⟨hkept, hallowed⟩ := Core.choose_answers (p := p.core) ops contexts mixed
    exact ⟨hp.of_kept hkept he, hallowed hp.current⟩
  | some e =>
    rw [hext] at he
    obtain ⟨b, g⟩ := e
    obtain ⟨hg, hb, hk, h, rfl⟩ := he
    dsimp only
    by_cases hbatch : ¬ (1 ≤ contexts.length ∧ contexts.length ≤ p.core.settings.maxRequests) ∨
      mixed = true
    · rw [if_pos hbatch]
      refine ⟨hp.of_kept .rfl ⟨hg, hb, hk, [], rfl⟩, fun d hd => ?_⟩
      obtain rfl := Except.ok.inj hd
      exact ⟨p.core.settings.allows_native _, rfl⟩
    rw [if_neg hbatch]
    obtain ⟨hc, -⟩ := not_or.mp hbatch
    rw [not_not] at hc
    -- the baseline answers a length from 1 to 4
    obtain ⟨hkept, hallowed⟩ := Core.choose_answers (p := b) ops contexts false
    generalize b.choose ops contexts false = out at hkept hallowed ⊢
    have hb' : out.1.settings = p.core.settings.baseline := hkept.settings.trans hb
    have hk' : out.1.currentK ∈ p.core.settings.baseline.capturedKs := hb ▸ hkept.current (hb ▸ hk)
    obtain ⟨b', _ | base⟩ := out
    · exact ⟨hp.of_kept .rfl ⟨hg, hb', hk', h, rfl⟩, fun _ => nofun⟩
    have hbase : 1 ≤ base.k ∧ base.k ≤ 4 := by
      have := (hallowed (hb ▸ hk) base rfl).1.bounds
      rwa [hb] at this
    dsimp only
    split_ifs
    · refine ⟨hp.of_kept .rfl ⟨hg, hb', hk', h, rfl⟩, fun d hd => ?_⟩
      obtain rfl := Except.ok.inj hd
      exact ⟨allows_of_growing hg hc (by change 1 ≤ base.k ∧ base.k ≤ 7; omega), rfl⟩
    · have hgrow := growth_answer h ((contexts.map Prod.fst).mergeSort (· ≤ ·)) base.k
      have hafter := (Saturation.after_snoc h
        (.choose ((contexts.map Prod.fst).mergeSort (· ≤ ·)) base.k)).symm
      rw [Saturation.step] at hafter
      generalize (Saturation.after h).choose ((contexts.map Prod.fst).mergeSort
        (· ≤ ·)) base.k = out
        at hgrow hafter ⊢
      obtain ⟨g, k, reason⟩ := out
      refine ⟨hp.of_kept .rfl ⟨hg, hb', hk', _, hafter⟩, fun d hd => ?_⟩
      obtain rfl := Except.ok.inj hd
      refine ⟨allows_of_growing hg hc ?_, rfl⟩
      change 1 ≤ k.toNat ∧ k.toNat ≤ 7
      change k = base.k ∨ 4 ≤ k ∧ k ≤ 7 at hgrow
      omega

theorem choose_settings (contexts : List (Rid × Nat)) (mixed : Bool) :
    (p.choose ops contexts mixed).1.core.settings = p.core.settings := by
  unfold choose
  cases p.extension with
  | none => exact (Core.choose_answers (p := p.core) ops contexts mixed).kept.settings
  | some e =>
    dsimp only
    split
    · rfl
    · generalize e.1.choose ops contexts false = out
      obtain ⟨b, _ | base⟩ := out
      · rfl
      · dsimp only
        split_ifs
        · rfl
        · rfl

/-- Every call keeps the policy sound, whether or not it raises. -/
theorem sound_call (hp : p.Sound settings) (c : Call Rid F) : (p.call ops c).Sound settings := by
  cases c with
  | observe r proposed accepted => exact sound_observe ops hp r proposed accepted
  | configure next costs => exact sound_configure ops hp next costs
  | retain live => exact sound_retain hp live
  | discard r => exact sound_discard hp r
  | choose contexts mixed => exact (sound_choose ops hp contexts mixed).1

/-- **The invariant of the policy** holds after every history of calls. -/
theorem sound_after (settings : Settings) (costs : Option (CostTable F)) (h : List (Call Rid F)) :
    (Policy.after ops settings costs h).Sound settings :=
  invariant (P := Sound settings) ⟨rfl, settings.capturedKs_spec.2.2.2, extensionOk_reset _⟩
    (fun _ c hp => sound_call ops hp c) h

end Policy

end Ringside.Speedup

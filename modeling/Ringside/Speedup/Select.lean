import Ringside.Speedup.Policy
import Ringside.Speedup.Request

/-!
# Trimming a decode batch (`trim_batch` of `glm53_speedup/policy.py`, `SchedulerBridge.select`)

`select` runs once for each scheduled batch: it asks the policy for a length and, when the whole
batch is a complete decode batch, cuts every request's count and drafts to it. A batch that is cut
in part would be of no captured shape.

* A batch is the dictionary of counts in its order, with distinct keys, and the drafts of the
  requests.
* `trimBatch` has the source's checks in front of its loop; `trimmed` is what the loop leaves.
* What the cadence and the fair planner observe is modelled with them; what `refresh` reads from the
  override file is an input, as the calls of `configure` that it makes.
* `CapturesFor`: the manager captures the graphs of these settings.
* The bridge's log, trace and clock are left out.

Results:
* `trimBatch_ok`: when a trim passes its checks, and that it then cuts the whole batch.
* `select_cases`: a selection leaves the batch or cuts it as a whole to the length of its decision;
  its trim never raises.
* `shapeCaptured_of_allows`: a length that the settings allow is a captured shape.
* `chosen_shape_captured`: the shape of every decision is a decode shape whose graph is captured,
  after every history of calls.
-/

namespace Ringside.Speedup

open Run Checks

variable {Rid F : Type} [LinearOrder Rid] (ops : FloatOps F)

/-! ## Batches -/

structure Batch (Rid : Type) where
  counts : List (Rid × Nat)
  drafts : Rid → Option (List Int)
  keys_nodup : (counts.map Prod.fst).Nodup

namespace Batch

variable (b : Batch Rid)

/-- The request has a draft of the length that its count was made for, and of at least `k` tokens.
-/
def complete (k : Nat) (e : Rid × Nat) : Bool :=
  (b.drafts e.1).any fun draft => decide (e.2 = draft.length + 1) && decide (k ≤ draft.length)

omit [LinearOrder Rid] in
theorem keys_map (f : Rid × Nat → Nat) :
    ((b.counts.map fun e => (e.1, f e)).map Prod.fst).Nodup := by
  rw [List.map_map]
  exact b.keys_nodup

/-- What the loop of `trim_batch` leaves: each request once, at count `k + 1` with the first `k`
drafts. -/
def trimmed (k : Nat) : Batch Rid where
  counts := b.counts.map fun e => (e.1, k + 1)
  drafts r := if ∃ e ∈ b.counts, e.1 = r then (b.drafts r).map (·.take k) else b.drafts r
  keys_nodup := b.keys_map fun _ => k + 1

end Batch

/-- `trim_batch`. -/
def trimBatch (b : Batch Rid) (k maxK : Nat) : Except String (Batch Rid) := do
  geometry 1 maxK
  if k ∉ ks maxK then throw "K outside qualified range"
  if b.counts = [] ∨ ¬ (∀ e ∈ b.counts, b.complete k e) then
    throw "cannot trim a mixed, short, or missing-draft batch"
  return b.trimmed k

/-! ## The selection -/

/-- What a selection reads besides the policy and the batch. -/
structure Turn (Rid F : Type) where
  /-- The scope, an override or the log keeps the bridge active. -/
  active : Bool
  /-- The calls of `configure` that `refresh` makes: on the override, and on what replaces an
  invalid one. -/
  overrides : List (Settings × Option (Option (CostTable F)))
  requests : List (Request Rid)
  preempted : List Rid

/-- `refresh`: the exception of a call is caught unless it is the last one. -/
def Policy.refresh (p : Policy Rid F) :
    List (Settings × Option (Option (CostTable F))) → Policy Rid F × Except String Unit
  | [] => (p, .ok ())
  | [(settings, costs)] => p.configure ops settings costs
  | (settings, costs) :: rest => Policy.refresh (p.configure ops settings costs).1 rest

/-- `{rid: scheduler.requests[rid].num_computed_tokens for rid in counts}`. -/
def Batch.contexts (b : Batch Rid) (requests : List (Request Rid)) : Option (List (Rid × Nat)) :=
  b.counts.mapM fun e => (byId requests e.1).map fun q => (e.1, q.numComputedTokens)

/-- `mixed`: some request is not in a complete decode step of the native length. -/
def Batch.mixed (b : Batch Rid) (requests : List (Request Rid)) (maxK : Nat) : Bool :=
  b.counts.any fun e => (byId requests e.1).any isPrefilling ||
    !(b.drafts e.1).any fun draft => decide (e.2 = draft.length + 1) && decide (draft.length = maxK)

structure Selection (Rid F : Type) where
  policy : Policy Rid F
  batch : Batch Rid
  decision : Except String (Option Decision)

/-- `SchedulerBridge.select`. -/
def select (maxK : Nat) (t : Turn Rid F) (p : Policy Rid F) (b : Batch Rid) : Selection Rid F :=
  if !t.active then ⟨p, b, .ok none⟩
  else match p.refresh ops t.overrides with
  | (p, .error e) => ⟨p, b, .error e⟩
  | (p, .ok ()) =>
    let p := t.preempted.foldl Policy.discard (p.retain (t.requests.map (·.requestId)))
    match b.contexts t.requests with
    | none => ⟨p, b, .error "KeyError"⟩
    | some contexts =>
      let mixed := b.mixed t.requests maxK
      match p.choose ops contexts mixed with
      | (p, .error e) => ⟨p, b, .error e⟩
      | (p, .ok d) =>
        if !mixed ∧ d.k < maxK then
          match trimBatch b d.k maxK with
          | .error e => ⟨p, b, .error e⟩
          | .ok b' => ⟨p, b', .ok (some d)⟩
        else ⟨p, b, .ok (some d)⟩

/-! ## What a selection does to the batch -/

section Selections

variable {settings : Settings} {p : Policy Rid F} {b b' : Batch Rid} {k maxK : Nat}

/-- **When a trim passes its checks**, and what it leaves then. -/
theorem trimBatch_ok : trimBatch b k maxK = .ok b' ↔
    (1 ≤ maxK ∧ maxK ≤ 8) ∧ (1 ≤ k ∧ k ≤ maxK) ∧ (b.counts ≠ [] ∧ ∀ e ∈ b.counts, b.complete k e) ∧
      b.trimmed k = b' := by
  have hk : k ∈ ks maxK ↔ 1 ≤ k ∧ k ≤ maxK := by
    rw [ks, List.mem_range'_1]
    omega
  simp only [trimBatch, bind_ok, guarded_ok, pure_ok, not_not, not_or, hk]
  constructor
  · rintro ⟨_, hgeo, h⟩
    exact ⟨(geometry_ok.mp hgeo).2, h⟩
  · rintro ⟨hmax, h⟩
    exact ⟨(), geometry_ok.mpr ⟨by decide, hmax⟩, h⟩

theorem contexts_length {requests : List (Request Rid)} {contexts : List (Rid × Nat)}
    (h : b.contexts requests = some contexts) : contexts.length = b.counts.length := by
  unfold Batch.contexts at h
  generalize b.counts = counts at h ⊢
  induction counts generalizing contexts with
  | nil =>
    obtain rfl := Option.some.inj h
    rfl
  | cons e counts ih =>
    simp only [List.mapM_cons, Option.bind_eq_bind, Option.bind_eq_some_iff] at h
    obtain ⟨_, -, rest, hrest, heq⟩ := h
    obtain rfl := Option.some.inj heq
    rw [List.length_cons, List.length_cons, ih hrest]

/-- An unmixed batch is complete at every length up to the native one. -/
theorem complete_of_unmixed {requests : List (Request Rid)} (h : b.mixed requests maxK = false)
    (hk : k ≤ maxK) :
    ∀ e ∈ b.counts, b.complete k e := by
  intro e he
  have hm := List.any_eq_false.mp h e he
  rw [Bool.not_eq_true, Bool.or_eq_false_iff, Bool.not_eq_false'] at hm
  obtain ⟨draft, hdraft, hlen⟩ := (Option.any_eq_true ..).mp hm.2
  simp only [Bool.and_eq_true, decide_eq_true_eq] at hlen
  refine (Option.any_eq_true ..).mpr ⟨draft, hdraft, ?_⟩
  simp only [Bool.and_eq_true, decide_eq_true_eq]
  omega

theorem sound_refresh (hp : p.Sound settings)
    (overrides : List (Settings × Option (Option (CostTable F)))) :
    (p.refresh ops overrides).1.Sound settings := by
  induction overrides generalizing p with
  | nil => exact hp
  | cons o rest ih =>
    cases rest with
    | nil => exact Policy.sound_configure ops hp o.1 o.2
    | cons => exact ih (Policy.sound_configure ops hp o.1 o.2)

theorem sound_discards (hp : p.Sound settings) (preempted : List Rid) :
    (preempted.foldl Policy.discard p).Sound settings := by
  induction preempted generalizing p with
  | nil => exact hp
  | cons r rest ih => exact ih (Policy.sound_discard hp r)

/-- What a selection makes of the batch: it leaves it, or it cuts the complete batch to the length
of its decision. -/
inductive Selection.Outcome (settings : Settings) (b : Batch Rid) (out : Selection Rid F) : Prop
  | left (h : out.batch = b)
  | cut (d : Decision) (decision : out.decision = .ok (some d)) (shorter : d.k < settings.maxK)
      (complete : ∀ e ∈ b.counts, b.complete settings.maxK e)
      (captured : Policy.Captured out.policy.core.settings b.counts.length d)
      (bounds : 1 ≤ b.counts.length ∧ b.counts.length ≤ settings.maxRequests)
        (h : out.batch = b.trimmed d.k)

/-- **A selection leaves the batch or cuts it as a whole**; its trim never raises. -/
theorem select_cases (hp : p.Sound settings) (t : Turn Rid F) (b : Batch Rid) :
    (select ops settings.maxK t p b).policy.Sound settings ∧
      (select ops settings.maxK t p b).Outcome settings b := by
  unfold select
  by_cases hactive : (!t.active) = true
  · rw [if_pos hactive]
    exact ⟨hp, .left rfl⟩
  rw [if_neg hactive]
  have hrefresh := sound_refresh ops hp t.overrides
  generalize p.refresh ops t.overrides = out at hrefresh ⊢
  obtain ⟨p, _ | _⟩ := out
  · exact ⟨hrefresh, .left rfl⟩
  dsimp only
  have hlive := sound_discards (Policy.sound_retain hrefresh
    (t.requests.map (·.requestId))) t.preempted
  generalize t.preempted.foldl Policy.discard
    (p.retain (t.requests.map (·.requestId))) = p at hlive ⊢
  cases hcontexts : b.contexts t.requests with
  | none => exact ⟨hlive, .left rfl⟩
  | some contexts =>
    dsimp only
    obtain ⟨hsound, hanswer⟩ := Policy.sound_choose ops hlive contexts
      (b.mixed t.requests settings.maxK)
    have hkept := Policy.choose_settings (p := p) ops contexts (b.mixed t.requests settings.maxK)
    generalize p.choose ops contexts (b.mixed t.requests settings.maxK) =
      out at hsound hanswer hkept ⊢
    obtain ⟨q, _ | d⟩ := out
    · exact ⟨hsound, .left rfl⟩
    dsimp only
    split_ifs with htrim
    · obtain ⟨hmixed, hshort⟩ := htrim
      have hmixed : b.mixed t.requests settings.maxK = false := by simpa using hmixed
      have hd := hanswer d rfl
      rw [contexts_length hcontexts, ← hkept] at hd
      have hmax : q.core.settings.maxK = settings.maxK := congrArg Prod.fst hsound.geometry
      have hreq : q.core.settings.maxRequests = settings.maxRequests :=
        congrArg (fun key => key.2.1) hsound.geometry
      -- a shorter length is answered for a captured request count alone
      have hbounds := hd.1.count_bounds (hmax ▸ hshort.ne)
      rw [hreq] at hbounds
      have hpass : trimBatch b d.k settings.maxK = .ok (b.trimmed d.k) :=
        trimBatch_ok.mpr ⟨settings.capturedKs_spec.1, ⟨hd.1.bounds.1, hshort.le⟩,
          ⟨List.length_pos_iff.mp hbounds.1, complete_of_unmixed hmixed hshort.le⟩, rfl⟩
      rw [hpass]
      exact ⟨hsound, .cut d rfl hshort (complete_of_unmixed hmixed le_rfl) hd hbounds rfl⟩
    · exact ⟨hsound, .left rfl⟩

end Selections

/-! ## Every chosen shape is captured -/

/-- The manager captures the graphs of these settings. -/
structure CapturesFor (env : Environment) (m : Manager) (s : Settings) : Prop where
  model : m.isModelManager = true
  scope : env.capture = s.scope
  requests : m.maxNumReqs = s.maxRequests
  length : m.proposalK = s.maxK
  captureRequests : env.captureRequests = s.captureRequests
  captureKs : env.captureKs = s.captureKs

/-- A shape of the settings, with a graph in every capture list made for them. The scope `off` adds
no graphs: there the shape is the native one. -/
structure ShapeCaptured (s : Settings) (shape : DecodeShape) : Prop where
  listed : ∃ shapes, s.shapes = .ok shapes ∧ shape ∈ shapes
  native : s.scope = .off → shape.k = s.maxK
  graph : s.scope ≠ .off → ∀ (env : Environment) (m : Manager) (byMode out : ByMode),
    CapturesFor env m s →
    extendCandidates env m byMode = .ok out → shape.descriptor ∈ out.full

/-- **An allowed length is a captured shape.** -/
theorem shapeCaptured_of_allows {s : Settings} {c k : Nat} (h : s.Allows c k)
    (hc : 1 ≤ c ∧ c ≤ s.maxRequests) : ShapeCaptured s ⟨c, k⟩ := by
  obtain ⟨shapes, hshapes, hmem⟩ := mem_decodeShapes s.scope s.axesOf_spec.axes
  have hin : (⟨c, k⟩ : DecodeShape) ∈ shapes := (hmem _).mpr ⟨hc, h⟩
  refine ⟨⟨shapes, hshapes, hin⟩, fun hoff => ?_, fun hscope env m byMode out hfor hout => ?_⟩
  · unfold Settings.Allows shapeKs at h
    rw [if_neg (by simp [hoff])] at h
    exact List.mem_singleton.mp h
  · refine mem_extendCandidates (hfor.scope ▸ hscope) hfor.model hout ?_ _ hin
    rw [hfor.scope, hfor.requests, hfor.length, hfor.captureRequests, hfor.captureKs]
    exact hshapes

/-- **Every chosen shape was captured**, after every history of calls; and a selection leaves its
batch or cuts all of it to the length of a captured shape. -/
theorem chosen_shape_captured (settings : Settings) (costs : Option (CostTable F))
    (h : List (Call Rid F)) :
    (∀ (contexts : List (Rid × Nat)) (mixed : Bool) (d : Decision),
      ((Policy.after ops settings costs h).choose ops contexts mixed).2 = .ok d →
        d.shape = (if 1 ≤ contexts.length ∧ contexts.length ≤ settings.maxRequests then
          some ⟨contexts.length, d.k⟩ else none) ∧
        ∀ shape, d.shape = some shape →
          ShapeCaptured (Policy.after ops settings costs h).core.settings shape) ∧
    ∀ (t : Turn Rid F) (b : Batch Rid),
      let out := select ops settings.maxK t (Policy.after ops settings costs h) b
      out.batch = b ∨
        ∃ d, out.decision = .ok (some d) ∧ d.k < settings.maxK ∧
          (∀ e ∈ b.counts, b.complete settings.maxK e) ∧ out.batch = b.trimmed d.k ∧
          d.shape = some ⟨b.counts.length, d.k⟩ ∧
          ShapeCaptured out.policy.core.settings ⟨b.counts.length, d.k⟩ := by
  have hp := Policy.sound_after ops settings costs h
  have hreq : ∀ {p : Policy Rid F}, p.Sound settings →
    p.core.settings.maxRequests = settings.maxRequests :=
    fun hp => congrArg (fun key => key.2.1) hp.geometry
  constructor
  · intro contexts mixed d hd
    obtain ⟨hallows, hshape⟩ := (Policy.sound_choose ops hp contexts mixed).2 d hd
    rw [hreq hp] at hshape
    refine ⟨hshape, fun shape hsome => ?_⟩
    rw [hshape] at hsome
    split_ifs at hsome with hc
    obtain rfl := Option.some.inj hsome
    exact shapeCaptured_of_allows hallows (hreq hp ▸ hc)
  · intro t b out
    obtain ⟨hsound, hcases⟩ := select_cases ops hp t b
    cases hcases with
    | left h => exact Or.inl h
    | cut d hd hshort hcomplete hcaptured hbounds h =>
      rw [← hreq hsound] at hbounds
      refine Or.inr ⟨d, hd, hshort, hcomplete, h, ?_, shapeCaptured_of_allows hcaptured.1 hbounds⟩
      rw [hcaptured.2, if_pos hbounds]

/-- Operations for runs that compute no length. -/
def noFloats : FloatOps Unit :=
  ⟨fun _ => (), fun _ _ => (), fun _ _ => (), fun _ _ => (), fun _ => (), fun _ _ => .ok (),
    fun _ _ => false, fun _ _ => true, fun _ => .ok 1, fun _ _ => true⟩

def forcedTwo : Settings := ⟨⟨.forced, 2, .all, 6, 4, none, none⟩, by rfl⟩

def targetGraphs : Manager := ⟨true, 6, 5, some 4, 2, false, .full, .piecewise, true⟩

def captureAll : Environment := ⟨.all, false, false, false, none, none⟩

/-- A forced length of two for one request: its graph of three tokens is captured. -/
theorem forcedTwo_captured (out : ByMode) : extendCandidates captureAll targetGraphs
    ⟨[], []⟩ = .ok out →
    (⟨1, 2⟩ : DecodeShape).descriptor ∈ out.full := by
  intro hout
  have hd : ((Policy.after noFloats forcedTwo none ([] : List (Call Nat Unit))).choose
    noFloats [(7, 100)]
      false).2 = .ok ⟨2, "forced", some ⟨1, 2⟩⟩ := by
    change (Core.choose noFloats (Core.new forcedTwo none) [(7, 100)] false).2 = _
    simp only [Core.choose, List.map_cons, List.map_nil, List.mergeSort_singleton]
    rfl
  have hshape := ((chosen_shape_captured noFloats forcedTwo none []).1 _ _ _ hd).2 _ rfl
  exact hshape.graph (by decide) captureAll targetGraphs _ out ⟨rfl, rfl, rfl, rfl, rfl, rfl⟩ hout

/-- The default settings: no mode and no scope. -/
def defaults : Settings := ⟨⟨.off, 4, .off, 6, 4, none, none⟩, by rfl⟩

/-- The graphs of an engine that captures its full batch alone. -/
def fullBatch : ByMode := ⟨[⟨.full, 30, some 6, some 5, none, 0⟩], []⟩

/-- With the default settings the shape of one request is decided, and no graph is added for its
five tokens. -/
theorem defaults_add_nothing :
    ((Policy.after noFloats defaults none ([] : List (Call Nat Unit))).choose noFloats
      [(7, 100)] false).2 = .ok ⟨4, "disabled", some ⟨1, 4⟩⟩ ∧
      CapturesFor ⟨.off, false, false, false, none, none⟩ targetGraphs defaults ∧
      extendCandidates ⟨.off, false, false, false, none, none⟩ targetGraphs fullBatch =
      .ok fullBatch ∧
      ∀ d ∈ fullBatch.full, d.numTokens ≠ DecodeShape.tokens ⟨1, 4⟩ :=
  ⟨rfl, ⟨rfl, rfl, rfl, rfl, rfl, rfl⟩, rfl, by decide⟩

end Ringside.Speedup

import Ringside.Speedup.Costs
import Ringside.Speedup.FairPrefill

/-!
# The live override (`SchedulerBridge.refresh`, `glm53_speedup/scheduler.py`)

Once a second the scheduler looks at a file that may switch its mode, its mixed prefill cap and its
cost table. Everything is read and checked first (`stage`); one commit follows, or the disabled
state.

* What a call sees of the files is its own (`Poll`, `Observed`): another process may replace them
  between two looks, and within one call the cost table may be another's than the override.
* An exception outside the five kinds that the call catches would leave it; the state stays as it is
  then, and `Watched` keeps the exception. The proof is that there is none.
* `Force` is the mode, the costs, the cap and the stamp that are in force together. `InForce`
  compares cost tables as the policy does (`sameTable`).
* The policy's own state is the one of `Policy`; `configure` may keep it or start afresh.
* The log is left out.

Results:
* `stage_caught`: reading and checking an override raises only what is caught.
* `configure_ok`, `commit_whole`: a state of the bridge's geometry is taken whole.
* `disable_disabled`: the disabled state is always reached, from whatever is in force.
* `refresh_outcome`: a call leaves the state of the override it read, or the disabled one, or
  nothing changes.
* `refresh_atomic`: so does every history of calls.
-/

namespace Ringside.Speedup

open Run Checks

variable {F : Type}

/-- What the bridge is started with. -/
structure Launch where
  /-- The settings of the start; their geometry is the bridge's. -/
  startup : Settings
  override : String
  costReload : Bool
  costsPath : String
  runtimePrefill : Bool
  splitFair : Bool
  splitAdaptive : Bool
  prefillAdaptive : Bool
  cadence : Bool
  /-- The block size of fair prefill. -/
  fairPrefill : Option Nat

/-- What a call sees of the override and of the cost table. -/
structure Observed (F : Type) where
  stat : Except Fault Info
  opened : Except Fault Opened
  resolved : Except Fault String
  costStat : Except Fault Info
  costOpened : Except Fault Opened
  resolvedAgain : Except Fault String
  costStatAgain : Except Fault Info
  statAgain : Except Fault Info

/-- The scheduler's side of the bridge. -/
structure Bridge (Rid F Clock : Type) where
  policy : Policy Rid F
  prefillCap : Nat
  stamp : Option Stamp
  lastPoll : Clock

/-- An override that passed every check. -/
structure Commit (F : Type) where
  setting : Settings
  cap : Nat
  costs : Option (CostTable F)
  stamp : Stamp

section Checks

variable (py : PyOps F) (l : Launch)

def modeOf : Json F → Option Mode
  | .str "off" => some .off
  | .str "forced" => some .forced
  | .str "ema" => some .ema
  | .str "cost" => some .cost
  | .str "ema4" => some .ema4
  | .str "saturation" => some .saturation
  | _ => none

/-- `_settings`. -/
def settingsOf (mode k : Json F) : Except PyError Settings :=
  match modeOf mode, k with
  | some mode, .int i =>
    if i < 0 then raise "forced_k must be an integer within configured proposal K"
    else
      let raw : RawSettings := { l.startup.toRawSettings with mode := mode, forcedK := i.toNat }
      match h : raw.check with
      | .ok () => .ok ⟨raw, h⟩
      | .error text => raise text
  | none, _ => raise "mode must be off, forced, ema, cost, ema4, or saturation"
  | _, _ => raise "forced_k must be an integer within configured proposal K"

/-- `_validate_prefill_adaptive`. -/
def validatePrefillAdaptive (s : Settings) (cap : Nat) : Except PyError Unit := do
  let fixed := s.mode = .forced ∨ s.forcedK = l.startup.maxK
  let growing := s.mode = .off ∨ s.mode = .ema ∨ s.mode = .forced ∨ s.mode = .ema4 ∨
    s.mode = .saturation
  let costly := l.runtimePrefill ∨ l.costReload ∨ l.costsPath ≠ ""
  if l.splitFair then
    if ¬ growing ∨ ¬ fixed ∨ l.startup.scope ≠ .all ∨ cap ≠ 4608 ∨ l.fairPrefill = none ∨
        l.splitAdaptive ∨ !l.prefillAdaptive ∨ costly then
      raise ("split/fair requires all capture, static fair4608 and " ++
        "off/EMA/forced/ema4/saturation only")
  else if l.cadence ∧ l.splitAdaptive then
    if ¬ growing ∨ ¬ fixed ∨ l.startup.scope ≠ .all ∨ cap ≠ 4608 ∨ l.fairPrefill ≠ none ∨
        !l.prefillAdaptive ∨ costly then
      raise ("split/adaptive requires all capture, static legacy cap4608 and " ++
        "off/EMA/forced/ema4/saturation only")
  else if l.cadence ∧ (s.mode ≠ .off ∨ s.forcedK ≠ l.startup.maxK ∨ l.startup.scope ≠ .off ∨
      cap ≠ 4608 ∨ l.fairPrefill ≠ none ∨ l.prefillAdaptive ∨ costly) then
    raise ("split cadence requires static legacy cap4608 and fixed K4; " ++
      "no adaptive or cost composition")
  if (cap = 0 ∧ l.fairPrefill = none) ∨ (s.mode = .off ∧ s.forcedK = l.startup.maxK) then return
  if !l.prefillAdaptive ∨
      ¬ (s.mode = .ema ∨ s.mode = .forced ∨ s.mode = .ema4 ∨ s.mode = .saturation) ∨
      l.startup.scope ≠ .all ∨ cap ≠ 4608 ∨ costly ∨ ¬ fixed then
    raise ("prefill/adaptive composition requires explicit opt-in, static cap4608, all capture " ++
      "and EMA/forced/ema4/saturation only")

def costFields : List String := ["costs_path", "cost_identity", "cost_sha256"]

/-- The fields that an override may have. -/
def allowed : List String :=
  ["mode", "forced_k"] ++ (if l.runtimePrefill then ["mixed_prefill_tokens"] else []) ++
    (if l.costReload then costFields else [])

/-- The cap of an override. -/
def capOf (data : Fields F) : Except PyError Nat :=
  match getOr data "mixed_prefill_tokens" (.int 0) with
  | .int i =>
    if i ∈ [0, 2304, 4608, 6912, 9216] then return i.toNat
      else raise "invalid runtime mixed prefill cap"
  | _ => raise "invalid runtime mixed prefill cap"

/-- The cost table of an override in cost mode. -/
def selectedCosts (o : Observed F) (data : Fields F) : Except PyError (CostTable F) := do
  if (data.any fun e => e.1 ∉ "mode" :: costFields) ∨ ("mode" :: costFields).any fun n =>
    (data.lookup n).isNone then
    raise "cost override requires exactly path, identity and SHA256"
  match ← item data "costs_path" with
  | .str path =>
    if path = "" ∨ path ≠ l.costsPath ∨ !path.startsWith "/" then
      raise "cost path must equal the canonical permitted startup path"
    let resolved ← lift o.resolved
    if resolved ≠ path then raise "cost path must equal the canonical permitted startup path"
    let before ← lift o.costStat
    let identity ← item data "cost_identity"
    let sha256 ← item data "cost_sha256"
    let costs ← loadCostTable py o.costOpened identity sha256 true
    let resolved ← lift o.resolvedAgain
    if resolved ≠ path then raise "cost path changed while reading"
    let after ← lift o.costStatAgain
    if fileStamp after ≠ fileStamp before then raise "cost path changed while reading"
    return costs
  | _ => raise "cost path must equal the canonical permitted startup path"

/-- The costs that an override asks for; without reload the old ones. -/
def stagedCosts (old : Option (CostTable F)) (o : Observed F) (data : Fields F) (s : Settings) :
    Except PyError (Option (CostTable F)) :=
  if !l.costReload then pure old
  else if s.mode = .cost then some <$> selectedCosts py l o data
  else if data.any fun e => e.1 ∈ costFields then
    raise "cost fields are only permitted in cost mode"
  else pure none

/-- The staged half of `refresh`: everything that is read and checked. `none` where the file has not
changed. -/
def stage (stamp : Option Stamp) (prefillCap : Nat) (old : Option (CostTable F)) (o : Observed F) :
    Except PyError (Option (Commit F)) := do
  if l.override = "" then raise "cost reload requires an override path"
  let info ← lift o.stat
  if some (fileStamp info) = stamp ∧ !l.costReload then return none
  let (raw, stamp) ← readBounded o.opened 4096
  match ← loadsUnique py raw with
  | .obj data =>
    if data.any fun e => e.1 ∉ allowed l then raise "unknown override field"
    let cap ← capOf data
    let setting ← settingsOf l (getOr data "mode" (.str "off"))
      (getOr data "forced_k" (.int l.startup.maxK))
    let effectiveCap := if l.runtimePrefill then cap else prefillCap
    validatePrefillAdaptive l setting effectiveCap
    if l.fairPrefill.any fun blockSize => !Fair.validCap blockSize effectiveCap then
      raise "fair prefill cap must be a multiple of the KDA block size"
    let costs ← stagedCosts py l old o data setting
    let again ← lift o.statAgain
    if fileStamp again ≠ stamp then raise "override changed during validation"
    return some ⟨setting, cap, costs, stamp⟩
  | _ => raise "override must be an object"

end Checks

section Refresh

variable {Rid Clock : Type} (ops : FloatOps F) (py : PyOps F)
  (soon : Clock → Clock → Bool) (l : Launch)

/-- A call of `refresh`: when, and what it sees. -/
abbrev Poll (F Clock : Type) := Clock × Observed F

/-- The handler: the disabled state. -/
def disable (b : Bridge Rid F Clock) : Bridge Rid F Clock × Option PyError :=
  match settingsOf (F := F) l (.str "off") (.int l.startup.maxK) with
  | .error e => (b, some e)
  | .ok off =>
    match b.policy.configure ops off (if l.costReload then some none else none) with
    | (p, .error text) => ({ b with policy := p }, some (.fault .value text))
    | (p, .ok ()) =>
      ({ b with
        policy := p, prefillCap := if l.runtimePrefill then 0 else b.prefillCap,
        stamp := none }, none)

/-- `refresh`, with the exception that leaves it, if one does. -/
def refresh (b : Bridge Rid F Clock) (poll : Poll F Clock) : Bridge Rid F Clock × Option PyError :=
  if soon poll.1 b.lastPoll then (b, none)
  else if l.override = "" ∧ !l.costReload then (b, none)
  else
    let b := { b with lastPoll := poll.1 }
    match stage py l b.stamp b.prefillCap b.policy.core.costs poll.2 with
    | .ok none => (b, none)
    | .ok (some c) =>
      match b.policy.configure ops c.setting (if l.costReload then some c.costs else none) with
      | (p, .error _) => disable ops l { b with policy := p }
      | (p, .ok ()) =>
        ({ b with
          policy := p, prefillCap := if l.runtimePrefill then c.cap else b.prefillCap,
          stamp := some c.stamp }, none)
    | .error (.fault _ _) => disable ops l b
    | .error e => (b, some e)

/-- The bridge as it starts, with the cap and the costs of the environment. -/
def Bridge.start (cap : Nat) (costs : Option (CostTable F)) (now : Clock) : Bridge Rid F Clock :=
  ⟨.new l.startup costs, cap, none, now⟩

/-- What a call reads of the override: nothing where it is not due, or the file has not changed. -/
def reading (b : Bridge Rid F Clock) (poll : Poll F Clock) : Option (Except PyError (Commit F)) :=
  if soon poll.1 b.lastPoll ∨ (l.override = "" ∧ !l.costReload) then none
  else
    match stage py l b.stamp b.prefillCap b.policy.core.costs poll.2 with
    | .ok none => none
    | .ok (some c) => some (.ok c)
    | .error e => some (.error e)

/-- A bridge, what the last call that read the override got, and an exception that left a call. -/
structure Watched (Rid F Clock : Type) where
  bridge : Bridge Rid F Clock
  last : Option (Except PyError (Commit F))
  raised : Option PyError

def watch (w : Watched Rid F Clock) (poll : Poll F Clock) : Watched Rid F Clock where
  bridge := (refresh ops py soon l w.bridge poll).1
  last := (reading py soon l w.bridge poll).or w.last
  raised := w.raised.or (refresh ops py soon l w.bridge poll).2

/-- The mode, the costs, the cap and the stamp that are in force together. -/
structure Force (F : Type) where
  setting : Settings
  costs : Option (CostTable F)
  cap : Nat
  stamp : Option Stamp

/-- The state that an override asks for: what it may set, and the rest as at the start. -/
def Commit.force (cap : Nat) (costs : Option (CostTable F)) (c : Commit F) : Force F where
  setting := c.setting
  costs := if l.costReload then c.costs else costs
  cap := if l.runtimePrefill then c.cap else cap
  stamp := some c.stamp

/-- The settings of the disabled state. -/
def Launch.off : Settings where
  toRawSettings := { l.startup.toRawSettings with mode := .off, forcedK := l.startup.maxK }
  accepted := by
    have h := l.startup.axesOf_spec
    exact check_ok.mpr ⟨l.startup.axesOf, h.geometry,
      List.mem_range'_1.mpr (by have := h.geometry.2; simp only; omega), h.axes, nofun, by
      simp, nofun, by simp⟩

/-- The disabled state. -/
def Launch.disabled (cap : Nat) (costs : Option (CostTable F)) : Force F where
  setting := l.off
  costs := if l.costReload then none else costs
  cap := if l.runtimePrefill then 0 else cap
  stamp := none

/-- A state is in force, its cost table up to the policy's equality of tables. -/
structure InForce (f : Force F) (b : Bridge Rid F Clock) : Prop where
  setting : b.policy.core.settings = f.setting
  costs : b.policy.core.costs = f.costs ∨ sameTable ops f.costs b.policy.core.costs = true
  cap : b.prefillCap = f.cap
  stamp : b.stamp = f.stamp

/-- A commit is what the override of a call says. -/
def Reads (o : Observed F) (c : Commit F) : Prop :=
  ∃ raw data, readBounded o.opened 4096 = .ok (raw, c.stamp) ∧
    loadsUnique py raw = .ok (.obj data) ∧
    settingsOf l (getOr data "mode" (.str "off")) (getOr data "forced_k" (.int l.startup.maxK)) =
    .ok c.setting ∧
    capOf data = .ok c.cap ∧
    (l.costReload = true → if c.setting.mode = .cost then ∃ t, selectedCosts py l o data = .ok t ∧
    c.costs = some t
      else c.costs = none)

/-! ## The checks

The staged half of `refresh` writes nothing. What it raises is one of the exceptions that the
handler names, for each of its parts.
-/

theorem settingsOf_geometry {mode k : Json F} {s : Settings} (h : settingsOf l mode k = .ok s) :
    ∃ mode k, s.toRawSettings = { l.startup.toRawSettings with mode := mode, forcedK := k } := by
  unfold settingsOf at h
  split at h
  · split_ifs at h
    · cases h
    · dsimp only at h
      split at h
      · cases h
        exact ⟨_, _, rfl⟩
      · cases h
  · cases h
  · cases h

/-- **The disabled settings are always accepted.** -/
theorem settingsOf_off : settingsOf (F := F) l (.str "off") (.int l.startup.maxK) = .ok l.off := by
  unfold settingsOf
  simp only [modeOf]
  rw [if_neg (by omega)]
  split
  · rfl
  · next h => cases l.off.accepted.symm.trans h

theorem caught_settingsOf (mode k : Json F) : Caught (settingsOf l mode k) := by
  unfold settingsOf
  split
  · refine caught_check fun _ => ?_
    dsimp only
    split
    · exact nofun
    · exact caught_raise _
  · exact caught_raise _
  · exact caught_raise _

theorem caught_validatePrefillAdaptive (s : Settings) (cap : Nat) :
    Caught (validatePrefillAdaptive l s cap) := by
  unfold validatePrefillAdaptive
  dsimp only
  split_ifs <;> first | exact caught_pure _ | exact caught_raise _

theorem caught_selectedCosts (o : Observed F) (data : Fields F) :
    Caught (selectedCosts py l o data) := by
  unfold selectedCosts
  refine caught_guard fun hfields => ?_
  have hkey : ∀ n ∈ "mode" :: costFields, (data.lookup n).isSome := by
    intro n hn
    simp only [not_or, Bool.not_eq_true, List.any_eq_false] at hfields
    simpa using hfields.2 n hn
  refine caught_bind (caught_item (hkey _ (by decide))) fun v _ => ?_
  cases v with
  | null | bool | int | float | arr | obj => exact caught_raise _
  | str path =>
    refine caught_guard fun _ => caught_bind (caught_lift _) fun _ _ => caught_guard fun _ =>
      caught_bind (caught_lift _) fun _ _ => caught_bind
        (caught_item (hkey _ (by decide))) fun _ _ =>
      caught_bind (caught_item (hkey _ (by decide))) fun _ _ =>
        caught_bind (loadCostTable_caught py _ _ _ _) fun _ _ =>
      caught_bind (caught_lift _) fun _ _ => caught_guard fun _ =>
        caught_bind (caught_lift _) fun _ _ =>
      caught_guard fun _ => caught_pure _

theorem caught_stagedCosts (old : Option (CostTable F)) (o : Observed F) (data : Fields F)
    (s : Settings) :
    Caught (stagedCosts py l old o data s) := by
  unfold stagedCosts
  split_ifs
  · exact caught_pure _
  · rw [map_eq_pure_bind]
    exact caught_bind (caught_selectedCosts py l o data) fun _ _ => caught_pure _
  · exact caught_raise _
  · exact caught_pure _

/-- **Reading and checking an override raises only what is caught.** -/
theorem stage_caught (stamp : Option Stamp) (cap : Nat) (old : Option (CostTable F))
    (o : Observed F) :
    Caught (stage py l stamp cap old o) := by
  unfold stage
  refine caught_guard fun _ => caught_bind (caught_lift _) fun info _ =>
    caught_ite (fun _ => caught_pure _) fun _ => ?_
  refine caught_bind (caught_readBounded _ _) fun raw _ =>
    caught_bind (caught_loadsUnique py _) fun v _ => ?_
  cases v with
  | null | bool | int | float | str | arr => exact caught_raise _
  | obj data =>
    have hcap : Caught (capOf data) := by
      unfold capOf
      split
      · exact caught_ite (fun _ => caught_pure _) fun _ => caught_raise _
      · exact caught_raise _
    exact caught_guard fun _ => caught_bind hcap fun cap _ =>
      caught_bind (caught_settingsOf l _ _) fun s _ =>
      caught_bind (caught_validatePrefillAdaptive l _ _) fun _ _ => caught_guard fun _ =>
      caught_bind (caught_stagedCosts py l _ _ _ _) fun _ _ =>
        caught_bind (caught_lift _) fun _ _ =>
      caught_guard fun _ => caught_pure _

/-- What a staged override is made of. -/
theorem stage_reads {stamp : Option Stamp} {cap : Nat} {old : Option (CostTable F)} {o : Observed F}
    {c : Commit F}
    (h : stage py l stamp cap old o = .ok (some c)) : Reads py l o c ∧
      (l.costReload = false → c.costs = old) := by
  unfold stage at h
  simp only [bind_ok, guard_ok] at h
  obtain ⟨-, info, -, h⟩ := h
  rcases ite_eq_iff.mp h with ⟨-, h⟩ | ⟨-, h⟩
  · cases h
  · simp only [bind_ok] at h
    obtain ⟨⟨raw, stamp'⟩, hraw, v, hv, h⟩ := h
    cases v with
    | null | bool | int | float | str | arr => cases h
    | obj data =>
      simp only [bind_ok, guard_ok, pure_ok, Option.some_inj] at h
      obtain ⟨-, cap', hcap, s, hs, -, -, -, costs, hcosts, again, -, -, rfl⟩ := h
      unfold stagedCosts at hcosts
      refine ⟨⟨raw, data, hraw, hv, hs, hcap, fun hreload => ?_⟩, fun hreload => ?_⟩
      · simp only [hreload, Bool.not_true, Bool.false_eq_true, if_false] at hcosts
        split_ifs at hcosts ⊢
        · rw [map_eq_pure_bind] at hcosts
          obtain ⟨t, ht, hcosts⟩ := bind_ok.mp hcosts
          exact ⟨t, ht, (pure_ok.mp hcosts).symm⟩
        · cases hcosts
        · exact (pure_ok.mp hcosts).symm
      · rw [hreload] at hcosts
        exact (pure_ok.mp hcosts).symm

/-! ## The commit -/

/-- The geometry that no override may change. -/
def SameGeometry (b : Bridge Rid F Clock) : Prop :=
  ∃ mode k, b.policy.core.settings.toRawSettings = { l.startup.toRawSettings with
    mode := mode, forcedK := k }

theorem Settings.eq_of_raw {s t : Settings} (h : s.toRawSettings = t.toRawSettings) : s = t := by
  cases s
  cases t
  cases h
  rfl

/-- **A configuration of the bridge's geometry is taken whole.** -/
theorem configure_ok {b : Bridge Rid F Clock} {s : Settings} (costs : Option (Option (CostTable F)))
    (hb : SameGeometry l b)
    (hs : ∃ mode k, s.toRawSettings = { l.startup.toRawSettings with mode := mode, forcedK := k }) :
    ∃ p, b.policy.configure ops s costs = (p, .ok ()) ∧ p.core.settings = s ∧
      (p.core.costs = costs.getD b.policy.core.costs ∨
        sameTable ops (costs.getD b.policy.core.costs) p.core.costs = true) ∧
      (costs = none → p.core.costs = b.policy.core.costs) := by
  obtain ⟨mode, k, hb⟩ := hb
  obtain ⟨mode', k', hs⟩ := hs
  unfold Policy.configure
  dsimp only
  rw [if_neg (by rw [hb, hs]; simp)]
  split_ifs with h
  · exact ⟨_, rfl, rfl, .inl rfl, by rintro rfl; rfl⟩
  · rw [not_or, not_not] at h
    exact ⟨b.policy, rfl, (Settings.eq_of_raw h.1).symm, .inr (by simpa using h.2), fun _ => rfl⟩

/-! ## A call

A call commits all of what was staged, or goes to the disabled state, or does nothing. That the
commit itself cannot fail half way is what the geometry is kept for: settings that were checked
against it are taken whole.
-/

section Call

variable {b : Bridge Rid F Clock} {cap : Nat} {costs : Option (CostTable F)}

/-- What no call changes: the geometry, and what no override may set. -/
structure Kept (cap : Nat) (costs : Option (CostTable F)) (b : Bridge Rid F Clock) : Prop where
  geometry : SameGeometry l b
  cap : l.runtimePrefill = false → b.prefillCap = cap
  costs : l.costReload = false → b.policy.core.costs = costs

/-- **A state of the bridge's geometry is taken whole.** -/
theorem commit_whole (hb : Kept l cap costs b) {s : Settings} (next : Option (CostTable F))
    (c : Nat) (stamp : Option Stamp)
    (hs : ∃ mode k, s.toRawSettings = { l.startup.toRawSettings with mode := mode, forcedK := k }) :
    ∃ p, b.policy.configure ops s (if l.costReload then some next else none) = (p, .ok ()) ∧
      let b' :=
        { b with
        policy := p, prefillCap := if l.runtimePrefill then c else b.prefillCap, stamp := stamp }
      Kept l cap costs b' ∧ InForce ops ⟨s, if l.costReload then next else costs,
        if l.runtimePrefill then c else cap,
        stamp⟩ b' := by
  obtain ⟨p, hp, hsetting, htable, hkeep⟩ := configure_ok ops l (if l.costReload then some next
    else none) hb.geometry hs
  refine ⟨p, hp, ⟨by rwa [SameGeometry, hsetting], fun h => ?_, fun h => ?_⟩, hsetting, ?_, ?_, rfl⟩
  · simp only [h, Bool.false_eq_true, if_false]
    exact hb.cap h
  · rw [hkeep (by simp [h])]
    exact hb.costs h
  · cases h : l.costReload with
    | false => exact .inl (by simpa [h, hb.costs h] using hkeep (by simp [h]))
    | true => simpa [h] using htable
  · cases h : l.runtimePrefill with
    | false => simpa [h] using hb.cap h
    | true => simp

/-- **The disabled state is always reached**, from whatever is in force. -/
theorem disable_disabled (hb : Kept l cap costs b) :
    (disable ops l b).2 = none ∧ Kept l cap costs (disable ops l b).1 ∧
      InForce ops (l.disabled cap costs) (disable ops l b).1 := by
  obtain ⟨p, hp, hwhole⟩ := @commit_whole _ _ _ ops l _ _ _ hb l.off none 0 none ⟨_, _, rfl⟩
  unfold disable
  rw [settingsOf_off]
  simp only [hp]
  exact ⟨trivial, hwhole⟩

/-- **A call leaves the state of the override it read, or the disabled one, or nothing changes.** -/
theorem refresh_outcome (hb : Kept l cap costs b) (poll : Poll F Clock) :
    let b' := (refresh ops py soon l b poll).1
    (refresh ops py soon l b poll).2 = none ∧ Kept l cap costs b' ∧
      match reading py soon l b poll with
      | none => b'.policy = b.policy ∧ b'.prefillCap = b.prefillCap ∧ b'.stamp = b.stamp
      | some (.ok c) => InForce ops (c.force l cap costs) b' ∧ Reads py l poll.2 c
      | some (.error _) => InForce ops (l.disabled cap costs) b' := by
  have hb' : Kept l cap costs { b with lastPoll := poll.1 } := ⟨hb.geometry, hb.cap, hb.costs⟩
  unfold refresh reading
  by_cases hsoon : soon poll.1 b.lastPoll = true
  · simp only [hsoon, true_or, if_true]
    exact ⟨trivial, hb, trivial, trivial, trivial⟩
  by_cases hidle : l.override = "" ∧ (!l.costReload) = true
  · simp only [hsoon, hidle, or_true, and_self, if_true, Bool.false_eq_true, if_false]
    exact ⟨trivial, hb, trivial⟩
  simp only [hsoon, hidle, or_self, if_false, Bool.false_eq_true]
  cases hstage : stage py l b.stamp b.prefillCap b.policy.core.costs poll.2 with
  | error e =>
    obtain ⟨kind, text, rfl⟩ := stage_caught py l _ _ _ _ e hstage
    exact disable_disabled ops l hb'
  | ok commit =>
    cases commit with
    | none => exact ⟨rfl, hb', rfl, rfl, rfl⟩
    | some c =>
      obtain ⟨hreads, -⟩ := stage_reads py l hstage
      have hreads' := hreads
      obtain ⟨raw, data, -, -, hs, -, -⟩ := hreads'
      obtain ⟨p, hp, hkept, hforce⟩ := commit_whole ops l hb' c.costs c.cap (some c.stamp)
        (settingsOf_geometry l hs)
      simp only [hp]
      exact ⟨trivial, hkept, hforce, hreads⟩

end Call

/-- **The refresh is atomic and fails closed**: no exception leaves a call, and after every history
of calls the state is that of the last override that was read, if it was valid, else the disabled
one; before the first, that of the start. -/
theorem refresh_atomic (cap : Nat) (costs : Option (CostTable F)) (now : Clock)
    (h : List (Poll F Clock)) :
    let w := run (watch ops py soon l) ⟨(Bridge.start l cap costs now :
      Bridge Rid F Clock), none, none⟩ h
    w.raised = none ∧
      match w.last with
      | none => InForce ops ⟨l.startup, costs, cap, none⟩ w.bridge
      | some (.ok c) => InForce ops (c.force l cap costs) w.bridge ∧ ∃ poll ∈ h, Reads py l poll.2 c
      | some (.error _) => InForce ops (l.disabled cap costs) w.bridge := by
  have hrun := @history_invariant _ _ (watch ops py soon l)
    ⟨(Bridge.start l cap costs now : Bridge Rid F Clock), none, none⟩
      (fun h w => Kept l cap costs w.bridge ∧ w.raised = none ∧
      match w.last with
      | none => InForce ops ⟨l.startup, costs, cap, none⟩ w.bridge
      | some (.ok c) => InForce ops (c.force l cap costs) w.bridge ∧ ∃ poll ∈ h, Reads py l poll.2 c
      | some (.error _) => InForce ops (l.disabled cap costs) w.bridge)
    ⟨⟨⟨l.startup.mode, l.startup.forcedK, rfl⟩, fun _ => rfl, fun _ => rfl⟩, rfl, rfl, .inl rfl,
      rfl, rfl⟩ ?_ h
  · exact hrun.2
  · rintro h ⟨b, last, raised⟩ poll ⟨hkept, hraised, hlast⟩
    obtain ⟨hnone, hkept', hread⟩ := refresh_outcome ops py soon l hkept poll
    simp only at hkept hraised hlast hnone hkept' hread
    refine ⟨hkept', by simp only [watch, hraised, hnone, Option.or_self], ?_⟩
    simp only [watch]
    cases hr : reading py soon l b poll with
    | none =>
      -- nothing was read: the state is still that of the last call that read
      rw [hr] at hread
      obtain ⟨hpolicy, hcap, hstamp⟩ := hread
      have hsame : ∀ {f : Force F}, InForce ops f b →
        InForce ops f (refresh ops py soon l b poll).1 :=
        fun hf => ⟨by rw [hpolicy, hf.setting], by rw [hpolicy]; exact hf.costs, by
          rw [hcap, hf.cap], by rw [hstamp, hf.stamp]⟩
      rw [Option.none_or]
      match last, hlast with
      | none, hlast => exact hsame hlast
      | some (.ok c), ⟨hforce, earlier, hmem, hreads⟩ =>
        exact ⟨hsame hforce, earlier, List.mem_append_left _ hmem, hreads⟩
      | some (.error _), hlast => exact hsame hlast
    | some r =>
      rw [hr] at hread
      rw [Option.some_or]
      cases r with
      | error e => exact hread
      | ok c => exact ⟨hread.1, poll, List.mem_append_right _ (List.mem_singleton_self _), hread.2⟩

end Refresh

end Ringside.Speedup

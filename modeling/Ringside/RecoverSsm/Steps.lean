import Ringside.RecoverSsm.Fused

/-!
# Steps of the fused commit

A run of the model runner is a sequence of commits, flushes, preparations and forwards. A forward
reads what is visible and writes states, convolution histories and records. Launching the split
kernel or skipping it, commit by commit as the host decides, leaves the same visible run.

* A forward is any function of what later calls can see (`observed`), so the result does not depend
  on the model that runs between the calls.
* `Call.Precise` is asked of the commits only; flushes and preparations read no host numbers.
* A call that raises ends the run, with the error of that call.

Results:
* `commit_observed`: a commit of contexts that look the same.
* `run_host_skip`: a run that skips wherever the host allows, and one that never skips, look the
  same call by call, errors included.
-/

namespace Ringside.RecoverSsm

variable {σ β ρ : Type}

/-- What happens to a context, in order. A forward reads what later calls can see. -/
inductive Call (σ β ρ : Type) where
  | commit (h : Host) (b : Batch)
  | flushAbsent (keepRows : Nat → Nat)
  | prepareFused (stateIndices : Option (Nat → Int)) (numRows : Nat)
  | forward (state : Context σ β ρ → Int → σ) (conv : Context σ β ρ → Int → Nat → Nat → β)
      (records : Context σ β ρ → Bool → Nat → ρ)

/-- The host's numbers are the batch's, where the call is a commit. -/
def Call.Precise : Call σ β ρ → Prop
  | .commit h b => ∀ a, b.align = some a → h.Precise a b
  | _ => True

section Runs

variable (recover : ρ → Nat → σ → σ) (nullBlockId : Int) (skip : Bool)

/-- One call; `skip` is whether the host's condition is used at all. -/
def call (c : Context σ β ρ) : Call σ β ρ → Except String (Context σ β ρ)
  | .commit h b =>
    commit recover nullBlockId (c.withHostSkip (skip && rule1HostSkip h c.fused c.specQueryLen b)) b
  | .flushAbsent keepRows => .ok (flushAbsent recover nullBlockId c keepRows)
  | .prepareFused stateIndices numRows =>
    .ok (prepareFused recover nullBlockId c stateIndices numRows)
  | .forward state conv records => .ok { c with
      state := state (observed c)
      conv := conv (observed c)
      records := records (observed c) }

/-- A run, up to the call that raises. -/
def run (c : Context σ β ρ) (calls : List (Call σ β ρ)) : Except String (Context σ β ρ) :=
  calls.foldlM (call recover nullBlockId skip) c

end Runs

section Observed

variable {recover : ρ → Nat → σ → σ} {nullBlockId : Int} {c x y : Context σ β ρ}
    {b : Batch} {flag : Bool}

theorem rows_observed : launch c.nPrev (observed c).rowOf (fun _ => 0) = launch c.nPrev
    c.rowOf fun _ => 0 :=
  launch_congr fun _ he => rowOf_observed he

/-- The states now, from contexts that look the same. -/
theorem commitState_visible :
    observed (commitState recover nullBlockId ((observed c).withHostSkip flag) b.batch
        b.stateIndices b.align.isSome ((observed c).withHostSkip flag).commitLens false) =
      observed (commitState recover nullBlockId (c.withHostSkip flag) b.batch b.stateIndices
        b.align.isSome (c.withHostSkip flag).commitLens false) := by
  show { observed (commitState recover nullBlockId (c.withHostSkip flag) b.batch b.stateIndices
      b.align.isSome (c.withHostSkip flag).commitLens false) with
    pendRow := launch c.nPrev (observed c).rowOf fun _ => 0 } = _
  rw [rows_observed]
  rfl

/-- What later calls see of a deferred split: its states, lengths and rows. -/
theorem splitBatch_observed :
    observed (defer { splitBatch recover nullBlockId c b with pendMap := some .pendRow } b) =
      { observed c with
        state := (splitBatch recover nullBlockId c b).state
        commitLens := launch b.batch (fun e =>
          (splitEntry nullBlockId c.specQueryLen b (c.commitLens e)
          (c.boundaryStateIndices e) e).2.1) c.commitLens
        pendRow := launch b.batch
          (fun e => (splitEntry nullBlockId c.specQueryLen b (c.commitLens e)
          (c.boundaryStateIndices e) e).2.2) fun _ => 0
        pendSrc := launch b.batch b.stateIndices c.pendSrc
        nPrev := b.batch
        pendingActive := true
        writeBuf := !c.writeBuf } := by
  have hrows : ∀ f old : Nat → Nat, launch b.batch (launch b.batch f old) (fun _ => 0) =
    launch b.batch f fun _ => 0 :=
    fun _ _ => launch_congr fun _ he => if_pos he
  unfold splitBatch
  dsimp only
  by_cases halign : b.align.isSome = true
  · rw [if_pos halign, ← hrows _ c.pendRow]
    rfl
  · rw [if_neg halign, ← hrows _ c.pendRow]
    rfl

/-- The states that the split kernel's commit writes, from contexts that look the same. -/
theorem splitBatch_state :
    (splitBatch recover nullBlockId ((observed c).withHostSkip flag) b).state =
      (splitBatch recover nullBlockId (c.withHostSkip flag) b).state := by
  unfold splitBatch
  dsimp only
  split
  · exact commitState_state (fun e he => (if_pos he).trans (if_pos he).symm) rfl rfl rfl rfl rfl
  · rfl

/-- The split kernel sees no difference. -/
theorem splitBatch_visible :
    observed (defer { splitBatch recover nullBlockId ((observed c).withHostSkip flag) b with
    pendMap := some .pendRow } b) =
      observed (defer { splitBatch recover nullBlockId (c.withHostSkip flag) b with
      pendMap := some .pendRow } b) := by
  rw [splitBatch_observed, splitBatch_observed, splitBatch_state]
  rfl

/-- What is behind the plan sees no difference. -/
theorem foldBatch_visible :
    (foldBatch recover nullBlockId ((observed c).withHostSkip flag) b).map observed =
      (foldBatch recover nullBlockId (c.withHostSkip flag) b).map observed := by
  unfold foldBatch
  by_cases hfused : c.fused = true
  · have hf : (c.withHostSkip flag).fused = true := hfused
    have hf' : ((observed c).withHostSkip flag).fused = true := hfused
    rw [if_pos hf, if_pos hf']
    by_cases hmode : b.align.isSome ∧ ¬c.alignMode
    · have hm : b.align.isSome ∧ ¬(c.withHostSkip flag).alignMode := hmode
      have hm' : b.align.isSome ∧ ¬((observed c).withHostSkip flag).alignMode := hmode
      rw [if_pos hm, if_pos hm']
    · have hm : ¬(b.align.isSome ∧ ¬(c.withHostSkip flag).alignMode) := hmode
      have hm' : ¬(b.align.isSome ∧ ¬((observed c).withHostSkip flag).alignMode) := hmode
      rw [if_neg hm, if_neg hm']
      by_cases hskip : flag = true ∧ b.align.isSome ∧ b.requestIndices.isNone
      · have hs : (c.withHostSkip flag).rule1HostSkip ∧ b.align.isSome ∧
          b.requestIndices.isNone := hskip
        have hs' : ((observed c).withHostSkip flag).rule1HostSkip ∧ b.align.isSome ∧
          b.requestIndices.isNone := hskip
        rw [if_pos hs, if_pos hs']
        rfl
      · have hs : ¬((c.withHostSkip flag).rule1HostSkip ∧ b.align.isSome ∧
          b.requestIndices.isNone) := hskip
        have hs' : ¬(((observed c).withHostSkip flag).rule1HostSkip ∧ b.align.isSome ∧
          b.requestIndices.isNone) := hskip
        rw [if_neg hs, if_neg hs']
        exact congrArg Except.ok splitBatch_visible
  · have hf : ¬(c.withHostSkip flag).fused = true := hfused
    have hf' : ¬((observed c).withHostSkip flag).fused = true := hfused
    rw [if_neg hf, if_neg hf']
    exact congrArg Except.ok commitState_visible

/-- **A commit sees no difference** between contexts that look the same. -/
theorem commit_observed (hobs : observed x = observed y) :
    (commit recover nullBlockId (x.withHostSkip flag) b).map observed =
      (commit recover nullBlockId (y.withHostSkip flag) b).map observed := by
  have hvisible : ∀ c : Context σ β ρ, (commit recover nullBlockId ((observed c).withHostSkip flag)
    b).map observed = (commit recover nullBlockId (c.withHostSkip flag) b).map observed := by
    intro c
    unfold commit
    by_cases hempty : b.batch = 0
    · rw [if_pos hempty, if_pos hempty]
      exact (congrArg Except.ok (@observed_observed _ _ _ c) :)
    · rw [if_neg hempty, if_neg hempty]
      have hcheck : checkBatch ((observed c).withHostSkip flag) b = checkBatch
        (c.withHostSkip flag) b := rfl
      rw [hcheck]
      cases checkBatch (c.withHostSkip flag) b with
      | error e => rfl
      | ok => exact foldBatch_visible (c := planBatch nullBlockId c b)
  rw [← hvisible x, hobs, hvisible y]

/-- Used or not, the host's condition leaves the same. -/
theorem commit_host_skip {h : Host} (hp : ∀ a, b.align = some a → h.Precise a b) :
    (commit recover nullBlockId
        (c.withHostSkip (true && rule1HostSkip h c.fused c.specQueryLen b)) b).map observed =
      (commit recover nullBlockId
        (c.withHostSkip (false && rule1HostSkip h c.fused c.specQueryLen b)) b).map observed := by
  rw [Bool.true_and, Bool.false_and]
  cases hskip : rule1HostSkip h c.fused c.specQueryLen b with
  | false => rfl
  | true =>
    cases halign : b.align with
    | none =>
      unfold rule1HostSkip at hskip
      rw [halign] at hskip
      cases hskip
    | some a => exact commit_skipped hskip halign (hp a halign)

/-- A call sees no difference, with the host's condition or without it. -/
theorem call_observed {k : Call σ β ρ} (hk : k.Precise) (hobs : observed x = observed y) :
    (call recover nullBlockId true x k).map observed =
      (call recover nullBlockId false y k).map observed := by
  cases k with
  | commit h b =>
    have hfused : x.fused = y.fused := (congrArg Context.fused hobs :)
    have hlen : x.specQueryLen = y.specQueryLen := (congrArg Context.specQueryLen hobs :)
    unfold call
    rw [← commit_host_skip (c := y) hk, ← hfused, ← hlen]
    exact commit_observed hobs
  | flushAbsent keepRows =>
    refine congrArg Except.ok ?_
    rw [← flushAbsent_observed (c := x), hobs, flushAbsent_observed]
  | prepareFused stateIndices numRows =>
    refine congrArg Except.ok ?_
    rw [← prepareFused_observed (c := x), hobs, prepareFused_observed]
  | forward state conv records =>
    refine congrArg Except.ok ?_
    show { observed x with
      state := state (observed x), conv := conv (observed x), records := records (observed x) } =
      { observed y with
      state := state (observed y), conv := conv (observed y), records := records (observed y) }
    rw [hobs]

/-- **Runs look the same with the host's condition and without it**, call by call, errors included.
-/
theorem run_host_skip {calls : List (Call σ β ρ)} (hcalls : ∀ k ∈ calls, k.Precise)
    (hobs : observed x = observed y) :
    (run recover nullBlockId true x calls).map observed =
    (run recover nullBlockId false y calls).map observed := by
  induction calls generalizing x y with
  | nil => exact congrArg Except.ok hobs
  | cons k calls ih =>
    obtain ⟨hk, hcalls⟩ := List.forall_mem_cons.mp hcalls
    have hcall := @call_observed _ _ _ recover nullBlockId _ _ _ hk hobs
    unfold run at ih ⊢
    rw [List.foldlM_cons, List.foldlM_cons]
    cases hx : call recover nullBlockId true x k with
    | error e =>
      cases hy : call recover nullBlockId false y k with
      | error e' =>
        rw [hx, hy] at hcall
        exact congrArg Except.error (Except.error.inj hcall)
      | ok y' =>
        rw [hx, hy] at hcall
        cases hcall
    | ok x' =>
      cases hy : call recover nullBlockId false y k with
      | error e' =>
        rw [hx, hy] at hcall
        cases hcall
      | ok y' =>
        rw [hx, hy] at hcall
        exact ih hcalls (Except.ok.inj hcall)

/-- Two steps of one request, whose window ends at token 9 of its block of 16: the host skips both
commits. -/
theorem one_row_run :
    let c : Context Nat Nat Nat :=
      ⟨8, 4, 1, 3, true, true, fun _ => 0, fun _ _ h => h, fun _ _ => 0, fun _ => 0, fun _ =>
        0, fun _ => 0, fun _ => 0,
        fun _ => 0, fun _ => -1, fun _ => 0, none, fun _ => 0, 0, false, false, false⟩
    let h : Host := ⟨some false, false, some fun _ => 9, fun i => 4 * i, 1⟩
    let calls : List (Call Nat Nat Nat) :=
      [.commit h (oneRow 2), .flushAbsent fun _ => 1, .prepareFused (some fun _ => 3) 1,
        .forward (fun c i => c.state i + 1) (fun c => c.conv) (fun c _ e => c.commitLens e),
        .commit h (oneRow 1)]
    let recover : Nat → Nat → Nat → Nat := fun records len state => records + len + state
    (run recover 0 true c calls).map observed = (run recover 0 false c calls).map observed :=
  run_host_skip (by
    have hprecise : ∀ accepted, ∀ a, (oneRow accepted).align = some a →
        Host.Precise ⟨some false, false, some fun _ => 9, fun i => 4 * i, 1⟩ a
        (oneRow accepted) := by
      intro accepted a ha
      cases ha
      exact
        { rows := rfl
          starts := fun i _ => by simp [oneRow]
          increasing := fun i _ => Nat.mul_le_mul_left 4 (Nat.le_succ i)
          upper := fun upper hu i hi => by
            cases hu
            rw [Nat.lt_one_iff.mp hi]
            rfl }
    simp only [List.forall_mem_cons, List.not_mem_nil, false_imp_iff, implies_true, and_true,
      Call.Precise, true_and]
    exact ⟨hprecise 2, hprecise 1⟩) rfl

end Observed

end Ringside.RecoverSsm

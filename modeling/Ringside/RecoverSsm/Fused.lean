import Ringside.RecoverSsm.Plan

/-!
# The fused commit (`KDARecoverSSMCommitContext`, `models/glm5next/nvidia/ops/recoverssm.py`)

Model of `commit`, `flush_absent`, `prepare_fused` with their kernels, and of the host condition of
`kda.py` (`_glm53_rule1_host_skip`). A fused commit plans and moves the convolution history at once
and defers the states: each entry stays pending until the next step hands it to a row
(`prepareFused`), or until it is flushed because its request is absent (`flushAbsent`). Entries that
write a boundary state, or whose next window could reach the next block, are committed at once
(`splitEntry`). Where the host can tell that the split kernel would take nothing, it skips the
launch.

* States are abstract: `recover` rebuilds the state after some tokens of an entry's records. One
  layer. What `recover` computes is in `Recurrence`.
* The entries of a launch are taken one after another. Arrays are functions of the entry; a launch
  over `n` entries writes the first `n`.
* `RowMap` is which tensor `pend_map` is: the one that the split kernel writes or the identity,
  which a skipped launch leaves.
* Block tables, computed lengths and accepted lengths are data of the batch; `Host` is what the host
  knows of them, and `Host.Precise` that it is right.
* The checks on tensor shapes and devices are left out.

Results:
* `splitEntry_idle`: the split kernel takes nothing from a row that stays away from its block's end.
* `rule1HostSkip_fused`: the host condition of `kda.py` for one commit.
* `observed`: what later calls can see of a context.
* `host_skip_sound`: a skipped launch of the split kernel leaves what launching it would.
* `flushAbsent_observed`, `prepareFused_observed`: so do the calls after it.

Out of scope: CUDA graphs and streams, and the forward between the calls (`Steps`).
-/

namespace Ringside.RecoverSsm

/-- Which tensor `pend_map` is. -/
inductive RowMap where
  | rowIds
  | pendRow
  deriving DecidableEq, Repr

/-- The context of a commit: configuration, memory, the plan's arrays and the pending entries. -/
structure Context (σ β ρ : Type) where
  capacity : Nat
  specQueryLen : Nat
  convDim : Nat
  convHistoryLen : Nat
  fused : Bool
  alignMode : Bool
  state : Int → σ
  conv : Int → Nat → Nat → β
  records : Bool → Nat → ρ
  commitLens : Nat → Nat
  finalStateIndices : Nat → Int
  boundaryStateIndices : Nat → Int
  boundaryRecoveryLens : Nat → Nat
  flushLens : Nat → Nat
  pendEntry : Nat → Int
  pendRow : Nat → Nat
  pendMap : Option RowMap
  pendSrc : Nat → Int
  nPrev : Nat
  pendingActive : Bool
  writeBuf : Bool
  rule1HostSkip : Bool

/-- A launch over `n` entries. -/
def launch {α : Type} (n : Nat) (value old : Nat → α) : Nat → α := fun e => if e < n then
    value e else old e

section Operations

variable {σ β ρ : Type} (recover : ρ → Nat → σ → σ) (nullBlockId : Int)

/-- `_commit_kda_state_kernel` for an entry. -/
def commitEntry (stateIndices : Nat → Int) (alignMode : Bool) (commitLens : Nat → Nat) (buf : Bool)
    (c : Context σ β ρ) (state : Int → σ) (e : Nat) : Int → σ :=
  let sourceStateIdx := stateIndices e
  if sourceStateIdx ≤ nullBlockId then state
  else if commitLens e = 0 then state
  else if c.finalStateIndices e ≤ nullBlockId then state
  else
    let initial := state sourceStateIdx
    let boundaryState := recover (c.records buf e)
      (min (commitLens e) (c.boundaryRecoveryLens e)) initial
    let final := recover (c.records buf e) (commitLens e) initial
    let state :=
      if alignMode ∧ nullBlockId < c.boundaryStateIndices e then
        Function.update state (c.boundaryStateIndices e) boundaryState
      else state
    Function.update state (c.finalStateIndices e) final

/-- `_commit_state`. -/
def commitState (c : Context σ β ρ) (batch : Nat) (stateIndices : Nat → Int) (alignMode : Bool)
    (commitLens : Nat → Nat) (buf : Bool) : Context σ β ρ :=
  { c with state :=
      (List.range batch).foldl (commitEntry recover nullBlockId stateIndices alignMode commitLens
        buf c) c.state }

/-- What the split kernel stores for an entry: `now_lens`, `commit_lens` and `pend_row`. -/
def splitEntry (specQueryLen : Nat) (b : Batch) (commitLen : Nat) (boundaryStateIdx : Int)
    (e : Nat) :
    Nat × Nat × Nat :=
  let row := b.row e
  let now : Bool :=
    match b.align with
    | some a =>
      let finalNumComputed := a.numComputedTokens row + commitLen
      let crosses := nullBlockId < boundaryStateIdx
      let nearEnd := a.mambaBlockSize < finalNumComputed % a.mambaBlockSize + specQueryLen
      0 < commitLen ∧ (crosses ∨ nearEnd)
    | none => false
  (if now then commitLen else 0, if now then 0 else commitLen, row)

/-- `_prepare_commit_plan_kernel` and `_compact_conv_state_kernel`. -/
def planBatch (c : Context σ β ρ) (b : Batch) : Context σ β ρ :=
  let plan := planRow nullBlockId c.specQueryLen b
  { c with
    commitLens := launch b.batch (fun e => (plan e).commitLen) c.commitLens
    finalStateIndices := launch b.batch (fun e => (plan e).finalStateIdx) c.finalStateIndices
    boundaryStateIndices := launch b.batch (fun e => (plan e).boundaryStateIdx)
      c.boundaryStateIndices
    boundaryRecoveryLens := launch b.batch (fun e => (plan e).boundaryRecoveryLen)
      c.boundaryRecoveryLens
    conv := (List.range b.batch).foldl
      (fun conv e => compactConv nullBlockId b.align.isSome c.convDim c.convHistoryLen
        (b.stateIndices e) (plan e) conv)
      c.conv }

/-- Rule 1: the split kernel, and the commit of what it takes. -/
def splitBatch (c : Context σ β ρ) (b : Batch) : Context σ β ρ :=
  let split := fun e => splitEntry nullBlockId c.specQueryLen b (c.commitLens e)
    (c.boundaryStateIndices e) e
  let c := { c with
    flushLens := launch b.batch (fun e => (split e).1) c.flushLens
    commitLens := launch b.batch (fun e => (split e).2.1) c.commitLens
    pendRow := launch b.batch (fun e => (split e).2.2) c.pendRow }
  if b.align.isSome then
    commitState recover nullBlockId c b.batch b.stateIndices true c.flushLens c.writeBuf else c

/-- The entries of the batch become pending. -/
def defer (c : Context σ β ρ) (b : Batch) : Context σ β ρ :=
  { c with
    pendSrc := launch b.batch b.stateIndices c.pendSrc
    nPrev := b.batch
    pendingActive := true
    writeBuf := !c.writeBuf }

/-- The checks of `commit` on its batch. -/
def checkBatch (c : Context σ β ρ) (b : Batch) : Except String Unit :=
  if c.capacity < b.batch then throw "KDA RecoverSSM commit batch exceeds its plan capacity"
  else if b.align.any fun a => a.mambaBlockSize < c.specQueryLen then
    throw "KDA RecoverSSM align block size must cover one speculative window"
  else return ()

/-- `commit` behind its plan: the states now, or deferred. -/
def foldBatch (c : Context σ β ρ) (b : Batch) : Except String (Context σ β ρ) :=
  if c.fused then
    if b.align.isSome ∧ ¬ c.alignMode then
      throw "fused KDA RecoverSSM context was created without align mode"
    else if c.rule1HostSkip ∧ b.align.isSome ∧ b.requestIndices.isNone then
      return defer { c with pendMap := some .rowIds } b
    else return defer { splitBatch recover nullBlockId c b with pendMap := some .pendRow } b
  else
    return commitState recover nullBlockId c b.batch b.stateIndices b.align.isSome c.commitLens
      false

/-- `commit`. -/
def commit (c : Context σ β ρ) (b : Batch) : Except String (Context σ β ρ) :=
  if b.batch = 0 then return c
  else do
    checkBatch c b
    foldBatch recover nullBlockId (planBatch nullBlockId c b) b

/-- The row of a pending entry. -/
def Context.rowOf (c : Context σ β ρ) (e : Nat) : Nat :=
  match c.pendMap with
  | some .rowIds => e
  | _ => c.pendRow e

/-- `_fused_absent_kernel`. -/
def absentBatch (c : Context σ β ρ) (keepRows : Nat → Nat) : Context σ β ρ :=
  let flush := fun e => 0 < c.commitLens e ∧ keepRows (c.rowOf e) = 0
  { c with
    flushLens := launch c.nPrev (fun e => if flush e then c.commitLens e else 0) c.flushLens
    commitLens := launch c.nPrev (fun e => if flush e then 0 else c.commitLens e) c.commitLens }

/-- The commit of the pending entries' flush lengths, from the records of the last step. -/
def flushPending (c : Context σ β ρ) : Context σ β ρ :=
  commitState recover nullBlockId c c.nPrev c.pendSrc c.alignMode c.flushLens !c.writeBuf

/-- `flush_absent`. -/
def flushAbsent (c : Context σ β ρ) (keepRows : Nat → Nat) : Context σ β ρ :=
  if c.pendingActive then flushPending recover nullBlockId (absentBatch c keepRows) else c

/-- The row that an entry is handed to: the last one that verifies from its final block. -/
def foundRow (stateIndices : Nat → Int) (numRows : Nat) (finalStateIdx : Int) : Int :=
  (List.range numRows).foldl (fun found row => if stateIndices row = finalStateIdx then
    row else found) (-1)

/-- `_fused_prepare_kernel`. -/
def prepareBatch (c : Context σ β ρ) (stateIndices : Nat → Int) (numRows : Nat) : Context σ β ρ :=
  let found := fun e => foundRow stateIndices numRows (c.finalStateIndices e)
  let handed := fun e => c.commitLens e ≠ 0 ∧ 0 ≤ found e ∧ c.boundaryStateIndices e ≤ nullBlockId
  { c with
    pendEntry := (List.range c.nPrev).foldl
      (fun pendEntry e => if handed e then Function.update pendEntry (found e).toNat (e : Int)
        else pendEntry) c.pendEntry
    flushLens := launch c.nPrev
      (fun e => if c.commitLens e = 0 then 0 else if handed e then 0
        else c.commitLens e) c.flushLens }

/-- `prepare_fused`. -/
def prepareFused (c : Context σ β ρ) (stateIndices : Option (Nat → Int)) (numRows : Nat) :
    Context σ β ρ :=
  let c := { c with pendEntry := fun _ => -1 }
  if c.pendingActive then
    let rows := if 0 < numRows then stateIndices.getD c.pendSrc else c.pendSrc
    let prepared := prepareBatch nullBlockId c rows (if stateIndices.isSome then numRows else 0)
    { flushPending recover nullBlockId prepared with pendingActive := false }
  else c

end Operations

/-! ## The host condition

The host computes from its own numbers whether some row of the batch can reach the end of its block.
If none can, the split kernel would commit nothing now, and would map each row to itself. What
differs after a skip are the scratch array of the flushed lengths and the tensor that holds the row
map, not the rows in it.
-/

/-- What the host knows of a step when its metadata is built. -/
structure Host where
  asyncScheduling : Option Bool
  enableAdaptiveVerification : Bool
  seqLensCpuUpperBound : Option (Nat → Int)
  queryStartLocCpu : Nat → Int
  numSpecDecodes : Nat

/-- `_glm53_rule1_host_skip` sets the skip for the step's commit. -/
def rule1HostSkip (h : Host) (fused : Bool) (specQueryLen : Nat) (b : Batch) : Bool :=
  match b.align, b.requestIndices, h.seqLensCpuUpperBound with
  | some a, none, some upper =>
    fused && h.asyncScheduling == some false && !h.enableAdaptiveVerification &&
      0 < h.numSpecDecodes &&
      (List.range h.numSpecDecodes).all fun i =>
        let queryLen := h.queryStartLocCpu (i + 1) - h.queryStartLocCpu i
        decide ((upper i - queryLen) % (a.mambaBlockSize : Int) + queryLen ≤ (a.mambaBlockSize :
          Int) - specQueryLen)
  | _, _, _ => false

/-- The host's numbers are those of the batch, as they are under synchronous scheduling without
adaptive verification: every row verifies, and its length is what is computed and its query. -/
structure Host.Precise (h : Host) (a : Align) (b : Batch) : Prop where
  rows : h.numSpecDecodes = b.batch
  starts : ∀ i ≤ b.batch, h.queryStartLocCpu i = b.queryStartLoc i
  increasing : ∀ i < b.batch, b.queryStartLoc i ≤ b.queryStartLoc (i + 1)
  upper : ∀ upper, h.seqLensCpuUpperBound = some upper → ∀ i < b.batch,
    upper i = a.numComputedTokens i + b.queryLen i

section Skip

variable {σ β ρ : Type} {recover : ρ → Nat → σ → σ} {nullBlockId : Int} {c : Context σ β ρ}
    {b : Batch} {a : Align}
  {h : Host} {specQueryLen : Nat}

/-- Every row of the batch stays a window away from its block's end. -/
theorem rule1HostSkip_rows {fused : Bool} (hskip : rule1HostSkip h fused specQueryLen b = true)
    (halign : b.align = some a)
    (hp : h.Precise a b) : b.requestIndices = none ∧ ∀ e < b.batch,
      a.numComputedTokens e % a.mambaBlockSize + b.queryLen e + specQueryLen ≤
      a.mambaBlockSize := by
  unfold rule1HostSkip at hskip
  rw [halign] at hskip
  cases hind : b.requestIndices with
  | some indices => rw [hind] at hskip; exact absurd hskip Bool.false_ne_true
  | none =>
    cases hup : h.seqLensCpuUpperBound with
    | none => rw [hind, hup] at hskip; exact absurd hskip Bool.false_ne_true
    | some upper =>
      rw [hind, hup] at hskip
      simp only [Bool.and_eq_true, List.all_eq_true, List.mem_range, decide_eq_true_eq] at hskip
      refine ⟨rfl, fun e he => ?_⟩
      have hrow := hskip.2 e (hp.rows ▸ he)
      have hstarts := hp.starts e he.le
      have hstarts' := hp.starts (e + 1) he
      have hlen : h.queryStartLocCpu (e + 1) - h.queryStartLocCpu e = b.queryLen e := by
        have := hp.increasing e he
        unfold Batch.queryLen
        omega
      rw [hlen, hp.upper upper hup e he, add_sub_cancel_right] at hrow
      have : ((a.numComputedTokens e % a.mambaBlockSize : Nat) : Int) + b.queryLen
        e ≤ a.mambaBlockSize - specQueryLen := by
        push_cast
        exact hrow
      omega

theorem rule1HostSkip_fused {fused : Bool} (hskip : rule1HostSkip h fused specQueryLen b = true) :
    fused = true := by
  unfold rule1HostSkip at hskip
  split at hskip
  · simp only [Bool.and_eq_true] at hskip
    exact hskip.1.1.1.1
  · exact absurd hskip Bool.false_ne_true

/-- **The split kernel takes nothing from a row that stays a window away from its block's end.** -/
theorem splitEntry_idle {e : Nat} (halign : b.align = some a) (hind : b.requestIndices = none)
    (hrow : a.numComputedTokens e % a.mambaBlockSize + b.queryLen e + specQueryLen ≤
      a.mambaBlockSize) :
    splitEntry nullBlockId specQueryLen b (planRow nullBlockId specQueryLen b e).commitLen
        (planRow nullBlockId specQueryLen b e).boundaryStateIdx e =
      (0, (planRow nullBlockId specQueryLen b e).commitLen, e) := by
  have hself : b.row e = e := by
    unfold Batch.row
    rw [hind]
    rfl
  have hnow : ¬ (0 < (planRow nullBlockId specQueryLen b e).commitLen ∧
      (nullBlockId < (planRow nullBlockId specQueryLen b e).boundaryStateIdx ∨
        a.mambaBlockSize < (a.numComputedTokens
        e + (planRow nullBlockId specQueryLen b e).commitLen) %
          a.mambaBlockSize + specQueryLen)) := by
    by_cases hvalid : nullBlockId < b.stateIndices e ∧ 0 < b.accepted specQueryLen e
    · rw [planRow_of_valid halign hvalid.1 hvalid.2, hself]
      have hlen := @accepted_le specQueryLen b e
      have hspec := @accepted_le_spec specQueryLen b e
      have hpos := hvalid.2
      generalize b.accepted specQueryLen e = len at *
      have hsum : a.numComputedTokens e % a.mambaBlockSize + len < a.mambaBlockSize := by omega
      have hmod : (a.numComputedTokens e + len) % a.mambaBlockSize =
        a.numComputedTokens e % a.mambaBlockSize + len := by
        rw [← Nat.mod_add_mod, Nat.mod_eq_of_lt hsum]
      have hdiv := Nat.div_add_mod (a.numComputedTokens e) a.mambaBlockSize
      have hnext : ¬ (a.numComputedTokens e / a.mambaBlockSize + 1) * a.mambaBlockSize ≤
        a.numComputedTokens e + len := by
        rw [Nat.succ_mul, Nat.mul_comm]
        omega
      rw [if_neg hnext, hmod]
      dsimp only
      omega
    · rw [planRow_of_invalid hvalid]
      exact fun hc => absurd hc.1 (lt_irrefl 0)
  unfold splitEntry
  rw [halign, hself]
  simp only [hnow, decide_false, Bool.false_eq_true, if_false]

/-- A commit of nothing. -/
theorem commitState_idle {batch : Nat} {stateIndices : Nat → Int} {alignMode : Bool}
    {lens : Nat → Nat} {buf : Bool}
    (hlens : ∀ e < batch, lens e = 0) :
    commitState recover nullBlockId c batch stateIndices alignMode lens buf = c := by
  have hfold : ∀ n ≤ batch, (List.range n).foldl
      (commitEntry recover nullBlockId stateIndices alignMode lens buf c) c.state = c.state := by
    intro n hn
    induction n with
    | zero => rfl
    | succ n ih =>
      rw [List.range_succ, List.foldl_append, ih (by omega)]
      simp only [List.foldl_cons, List.foldl_nil, commitEntry, hlens n (by omega),
        if_true, ite_self]
  unfold commitState
  rw [hfold batch le_rfl]

/-- The wrapper of `_glm53_rule1_host_skip` sets the flag for one commit. -/
def Context.withHostSkip (c : Context σ β ρ) (flag : Bool) : Context σ β ρ :=
    { c with rule1HostSkip := flag }

theorem checkBatch_withHostSkip {flag : Bool} :
    checkBatch (c.withHostSkip flag) b = checkBatch c b := rfl

theorem planBatch_withHostSkip {flag : Bool} :
    planBatch nullBlockId (c.withHostSkip flag) b =
    (planBatch nullBlockId c b).withHostSkip flag := rfl

/-- What later calls can see of a context: the pending entries with their rows, and all memory but
the scratch array of flushed lengths. -/
def observed (c : Context σ β ρ) : Context σ β ρ :=
  { c with
    flushLens := fun _ => 0
    pendRow := launch c.nPrev c.rowOf fun _ => 0
    pendMap := some .pendRow
    rule1HostSkip := false }

theorem launch_congr {α : Type} {n : Nat} {f g old : Nat → α} (hfg : ∀ e < n, f e = g e) :
    launch n f old = launch n g old := by
  funext e
  unfold launch
  split_ifs with he
  · exact hfg e he
  · rfl

theorem launch_self {α : Type} {n : Nat} {old : Nat → α} : launch n old old = old := by
  funext e
  unfold launch
  exact ite_self _

/-- Where it takes nothing, the split kernel clears the scratch array and writes the identity. -/
theorem splitBatch_idle (hidle : ∀ e < b.batch,
      splitEntry nullBlockId c.specQueryLen b (c.commitLens e) (c.boundaryStateIndices e) e =
      (0, c.commitLens e, e)) :
    splitBatch recover nullBlockId c b =
      { c with
        flushLens := launch b.batch (fun _ => 0) c.flushLens
        pendRow := launch b.batch (fun e => e) c.pendRow } := by
  have hflush : launch b.batch (fun e => (splitEntry nullBlockId c.specQueryLen b (c.commitLens e)
      (c.boundaryStateIndices e) e).1) c.flushLens = launch b.batch (fun _ => 0) c.flushLens :=
    launch_congr fun e he => by rw [hidle e he]
  have hcommit : launch b.batch (fun e => (splitEntry nullBlockId c.specQueryLen b (c.commitLens e)
      (c.boundaryStateIndices e) e).2.1) c.commitLens = c.commitLens :=
    (launch_congr fun e he => by rw [hidle e he]).trans launch_self
  have hrow : launch b.batch (fun e => (splitEntry nullBlockId c.specQueryLen b (c.commitLens e)
      (c.boundaryStateIndices e) e).2.2) c.pendRow = launch b.batch (fun e => e) c.pendRow :=
    launch_congr fun e he => by rw [hidle e he]
  unfold splitBatch
  dsimp only
  rw [hflush, hcommit, hrow]
  split
  · exact commitState_idle fun e he => if_pos he
  · rfl

/-- Deferred without the split kernel or after it, what takes nothing looks the same. -/
theorem defer_observed (hidle : ∀ e < b.batch,
      splitEntry nullBlockId c.specQueryLen b (c.commitLens e) (c.boundaryStateIndices e) e =
      (0, c.commitLens e, e)) :
    observed (defer { c.withHostSkip true with pendMap := some .rowIds } b) =
      observed (defer { splitBatch recover nullBlockId (c.withHostSkip false) b with
      pendMap := some .pendRow } b) := by
  rw [splitBatch_idle (c := c.withHostSkip false) hidle]
  have hrows : launch b.batch (fun e => launch b.batch (fun e => e) c.pendRow e) (fun _ => 0) =
      launch b.batch (fun e => e) fun _ => 0 := launch_congr fun e he => if_pos he
  unfold observed defer Context.withHostSkip Context.rowOf
  simp only [hrows]

theorem foldBatch_observed (hfused : c.fused = true) (halign : b.align = some a)
    (hind : b.requestIndices = none)
    (hidle : ∀ e < b.batch,
      splitEntry nullBlockId c.specQueryLen b (c.commitLens e) (c.boundaryStateIndices e) e =
      (0, c.commitLens e, e)) :
    (foldBatch recover nullBlockId (c.withHostSkip true) b).map observed =
      (foldBatch recover nullBlockId (c.withHostSkip false) b).map observed := by
  have hsome : b.align.isSome := by rw [halign]; rfl
  have hnone : b.requestIndices.isNone := by rw [hind]; rfl
  have hf : ∀ flag, (c.withHostSkip flag).fused = true := fun _ => hfused
  unfold foldBatch
  rw [if_pos (hf true), if_pos (hf false)]
  by_cases hmode : b.align.isSome ∧ ¬ c.alignMode
  · have hm : ∀ flag, b.align.isSome ∧ ¬ (c.withHostSkip flag).alignMode := fun _ => hmode
    rw [if_pos (hm true), if_pos (hm false)]
  · have hm : ∀ flag, ¬ (b.align.isSome ∧ ¬ (c.withHostSkip flag).alignMode) := fun _ => hmode
    have hskip : (c.withHostSkip true).rule1HostSkip ∧ b.align.isSome ∧ b.requestIndices.isNone :=
      ⟨rfl, hsome, hnone⟩
    have hlaunch : ¬ ((c.withHostSkip false).rule1HostSkip ∧ b.align.isSome ∧
      b.requestIndices.isNone) :=
      fun hc => Bool.false_ne_true hc.1
    rw [if_neg (hm true), if_neg (hm false), if_pos hskip, if_neg hlaunch]
    exact congrArg Except.ok (defer_observed hidle)

/-- The split kernel takes nothing from the plan of a batch whose rows stay a window away. -/
theorem planBatch_idle (hidle : ∀ e < b.batch,
      splitEntry nullBlockId c.specQueryLen b (planRow nullBlockId c.specQueryLen b e).commitLen
          (planRow nullBlockId c.specQueryLen b e).boundaryStateIdx e =
        (0, (planRow nullBlockId c.specQueryLen b e).commitLen, e)) :
    ∀ e < b.batch, splitEntry nullBlockId (planBatch nullBlockId c b).specQueryLen b
      ((planBatch nullBlockId c b).commitLens e)
        ((planBatch nullBlockId c b).boundaryStateIndices e) e =
        (0, (planBatch nullBlockId c b).commitLens e, e) := by
  intro e he
  have hlen : (planBatch nullBlockId c b).commitLens e =
    (planRow nullBlockId c.specQueryLen b e).commitLen := if_pos he
  have hbound : (planBatch nullBlockId c b).boundaryStateIndices e =
      (planRow nullBlockId c.specQueryLen b e).boundaryStateIdx := if_pos he
  rw [hlen, hbound]
  exact hidle e he

/-- Where the host skips the split kernel, the commit looks the same. -/
theorem commit_skipped (hskip : rule1HostSkip h c.fused c.specQueryLen b = true)
    (halign : b.align = some a)
    (hp : h.Precise a b) :
    (commit recover nullBlockId (c.withHostSkip true) b).map observed =
      (commit recover nullBlockId (c.withHostSkip false) b).map observed := by
  obtain ⟨hind, hrows⟩ := rule1HostSkip_rows hskip halign hp
  have hplanned := @planBatch_idle _ _ _ nullBlockId c b fun e he =>
    splitEntry_idle halign hind (hrows e he)
  have hfused : (planBatch nullBlockId c b).fused = true := rule1HostSkip_fused hskip
  have hfold := @foldBatch_observed _ _ _ recover _ _ _ _ hfused halign hind hplanned
  unfold commit
  by_cases hempty : b.batch = 0
  · rw [if_pos hempty, if_pos hempty]
    rfl
  rw [if_neg hempty, if_neg hempty, checkBatch_withHostSkip, checkBatch_withHostSkip,
    planBatch_withHostSkip, planBatch_withHostSkip]
  cases checkBatch c b with
  | error e => rfl
  | ok => exact hfold

/-- **A skipped launch of the split kernel leaves what launching it would**: it would take nothing,
and its row map is the identity. -/
theorem host_skip_sound (hskip : rule1HostSkip h c.fused c.specQueryLen b = true)
    (halign : b.align = some a)
    (hp : h.Precise a b) :
    (∀ e < b.batch,
      splitEntry nullBlockId c.specQueryLen b (planRow nullBlockId c.specQueryLen b e).commitLen
          (planRow nullBlockId c.specQueryLen b e).boundaryStateIdx e =
        (0, (planRow nullBlockId c.specQueryLen b e).commitLen, e)) ∧
      (commit recover nullBlockId (c.withHostSkip true) b).map observed =
        (commit recover nullBlockId (c.withHostSkip false) b).map observed := by
  obtain ⟨hind, hrows⟩ := rule1HostSkip_rows hskip halign hp
  exact ⟨fun e he => splitEntry_idle halign hind (hrows e he), commit_skipped hskip halign hp⟩

/-- One request with 5 tokens computed in block 3: its window of four ends before token 12 of the
block. -/
theorem one_row_skip :
    let c : Context Nat Nat Nat :=
      ⟨8, 4, 1, 3, true, true, fun _ => 0, fun _ _ h => h, fun _ _ => 0, fun _ => 0, fun _ =>
        0, fun _ => 0, fun _ => 0,
        fun _ => 0, fun _ => -1, fun _ => 0, none, fun _ => 0, 0, false, false, false⟩
    let recover : Nat → Nat → Nat → Nat := fun records len state => records + len + state
    (commit recover 0 (c.withHostSkip true) (oneRow 2)).map observed =
      (commit recover 0 (c.withHostSkip false) (oneRow 2)).map observed :=
  (host_skip_sound (h := ⟨some false, false, some fun _ => 9, fun i => 4 * i, 1⟩) (by decide) rfl
    { rows := rfl
      starts := fun i _ => by simp [oneRow]
      increasing := fun i _ => Nat.mul_le_mul_left 4 (Nat.le_succ i)
      upper := fun upper hu i hi => by
        cases hu
        rw [Nat.lt_one_iff.mp hi]
        rfl }).2

/-! ### The calls after a commit

Contexts that look the same go on to look the same, through every call that follows a commit. So a
skip shows neither now nor later.
-/

theorem rowOf_observed {e : Nat} (he : e < c.nPrev) : (observed c).rowOf e = c.rowOf e := if_pos he

/-- A commit reads the lengths of its own entries only. -/
theorem commitState_state {c' : Context σ β ρ} {batch : Nat} {stateIndices : Nat → Int}
    {alignMode : Bool} {lens lens' : Nat → Nat} {buf : Bool} (hlens : ∀ e < batch, lens e = lens' e)
    (hstate : c.state = c'.state) (hrecords : c.records = c'.records)
    (hfinal : c.finalStateIndices = c'.finalStateIndices)
    (hboundary : c.boundaryStateIndices = c'.boundaryStateIndices)
    (hrecovery : c.boundaryRecoveryLens = c'.boundaryRecoveryLens) :
    (commitState recover nullBlockId c batch stateIndices alignMode lens buf).state =
      (commitState recover nullBlockId c' batch stateIndices alignMode lens' buf).state := by
  unfold commitState
  dsimp only
  rw [hstate]
  refine List.foldl_ext _ _ _ fun state e he => ?_
  unfold commitEntry
  rw [hlens e (List.mem_range.mp he), hrecords, hfinal, hboundary, hrecovery]

theorem observed_observed : observed (observed c) = observed c := by
  have hrows : launch c.nPrev (observed c).rowOf (fun _ => 0) = launch c.nPrev c.rowOf fun _ => 0 :=
    launch_congr fun e he => rowOf_observed he
  show { observed c with pendRow := launch c.nPrev (observed c).rowOf fun _ => 0 } = observed c
  rw [hrows]
  rfl

/-- Contexts that look the same do after the same flush. -/
theorem flushPending_observed {x y : Context σ β ρ} (hobs : observed x = observed y)
    (hflush : ∀ e < x.nPrev, x.flushLens e = y.flushLens e) :
    observed (flushPending recover nullBlockId x) =
      observed (flushPending recover nullBlockId y) := by
  have hstate : (flushPending recover nullBlockId x).state =
    (flushPending recover nullBlockId y).state := by
    have hprev : x.nPrev = y.nPrev := (congrArg Context.nPrev hobs :)
    rw [hprev] at hflush
    unfold flushPending
    rw [hprev, show x.pendSrc = y.pendSrc from (congrArg Context.pendSrc hobs :),
      show x.alignMode = y.alignMode from (congrArg Context.alignMode hobs :),
      show x.writeBuf = y.writeBuf from (congrArg Context.writeBuf hobs :)]
    exact commitState_state hflush (congrArg Context.state hobs :)
      (congrArg Context.records hobs :) (congrArg Context.finalStateIndices hobs :)
      (congrArg Context.boundaryStateIndices hobs :) (congrArg Context.boundaryRecoveryLens hobs :)
  show { observed x with state := (flushPending recover nullBlockId x).state } =
    { observed y with state := (flushPending recover nullBlockId y).state }
  rw [hobs, hstate]

/-- **A flush of absent requests sees no difference** between contexts that look the same. -/
theorem flushAbsent_observed {keepRows : Nat → Nat} :
    observed (flushAbsent recover nullBlockId (observed c) keepRows) =
      observed (flushAbsent recover nullBlockId c keepRows) := by
  unfold flushAbsent
  by_cases hactive : c.pendingActive
  · have hactive' : (observed c).pendingActive := hactive
    rw [if_pos hactive, if_pos hactive']
    refine flushPending_observed ?_ fun e he => ?_
    · have hlens : (absentBatch (observed c) keepRows).commitLens =
        (absentBatch c keepRows).commitLens :=
        launch_congr fun e he => by
          dsimp only
          rw [rowOf_observed (c := c) he]
          rfl
      show { observed (observed c) with
        commitLens := (absentBatch (observed c) keepRows).commitLens } =
        { observed c with commitLens := (absentBatch c keepRows).commitLens }
      rw [observed_observed, hlens]
    · have he' : e < c.nPrev := he
      have he'' : e < (observed c).nPrev := he
      unfold absentBatch launch
      dsimp only
      rw [if_pos he', if_pos he'', rowOf_observed he']
      rfl
  · have hactive' : ¬ (observed c).pendingActive := hactive
    rw [if_neg hactive, if_neg hactive']
    exact observed_observed

/-- **Neither does the preparation of the next step.** -/
theorem prepareFused_observed {stateIndices : Option (Nat → Int)} {numRows : Nat} :
    observed (prepareFused recover nullBlockId (observed c) stateIndices numRows) =
      observed (prepareFused recover nullBlockId c stateIndices numRows) := by
  have hprepare : ∀ (d : Context σ β ρ) (rows : Nat → Int) (n : Nat),
      observed { flushPending recover nullBlockId
      (prepareBatch nullBlockId (observed d) rows n) with
        pendingActive := false } =
      observed { flushPending recover nullBlockId (prepareBatch nullBlockId d rows n) with
        pendingActive := false } := by
    intro d rows n
    have hobs : observed (prepareBatch nullBlockId (observed d) rows n) =
      observed (prepareBatch nullBlockId d rows n) := by
      show { observed (observed d) with
        pendEntry := (prepareBatch nullBlockId d rows n).pendEntry } = _
      rw [observed_observed]
      rfl
    have hflush := @flushPending_observed _ _ _ recover nullBlockId _ _ hobs fun e he => by
      have he' : e < d.nPrev := he
      have he'' : e < (observed d).nPrev := he
      unfold prepareBatch launch
      dsimp only
      rw [if_pos he', if_pos he'']
      rfl
    show { observed (flushPending recover nullBlockId
      (prepareBatch nullBlockId (observed d) rows n)) with
        pendingActive := false } =
      { observed (flushPending recover nullBlockId (prepareBatch nullBlockId d rows n)) with
        pendingActive := false }
    rw [hflush]
  unfold prepareFused
  dsimp only
  by_cases hactive : c.pendingActive
  · have hactive' : (observed c).pendingActive := hactive
    rw [if_pos hactive, if_pos hactive']
    exact hprepare { c with pendEntry := fun _ => -1 } _ _
  · have hactive' : ¬ (observed c).pendingActive := hactive
    rw [if_neg hactive, if_neg hactive']
    exact observed_observed (c := { c with pendEntry := fun _ => -1 })

end Skip

end Ringside.RecoverSsm

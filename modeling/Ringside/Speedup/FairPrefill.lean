import Ringside.Run
import Ringside.Queue
import Ringside.Speedup.Request

/-!
# Fair prefill (`FairPrefill`, `glm53_speedup/fair_prefill.py`)

`plan` grants the prefill tokens of one scheduling pass: bypassed long requests first, then the
terminal tails, then the rest of the queue. The scheduler schedules at most the grants, and
`observe` rotates every offered request to the back of the queue and marks the long requests that
were eligible and got nothing. `deferForDecode` withdraws a pass for a decode-only turn. This file
says whom the rotation serves, and for whom it fails.

* A pass carries the checks the class makes on its cap, and request ids are unique in it.
* What the rest of the scheduler would schedule is an input `asked`; the counts are what `limit`
  lets through of it, so an offer can also fail.
* `openLedger`, `grantStep` and `Ledger` are the loop of the grants with its dictionary and its two
  budgets. `allowanceFor` cuts an internal chunk to a block boundary.
* Which requests run, wait and finish between passes is arbitrary: a run is any list of turns, and
  the theorems ask only of the one request that it stays planned (`StaysLong`, `StaysTail`).
* The queue's order, and what stands ahead of and behind a request in it, is the library's
  (`Queue`).

Results:
* `granted_head`, `protected_granted`, `tail_granted`: who is certain of a grant in a pass.
* `long_prefill_offered`: a long request that stays planned gets an offer within as many passes as
  its position in the queue of the first one plus two.
* `spared_tail_offered`: a terminal tail gets one within `n * n` passes of at most `n` requests,
  where no pass passes over an unmarked long request behind it for a marked one there (`Spares`).
* `tail_starves`: where passes do, no bound holds: two long requests hand the priority to each
  other.

Out of scope: decode grants and encoder inputs; the budgets of a pass are in `Grants`.
-/

namespace Ringside.Speedup.Fair

open Ringside.Run Ringside.Queue

variable {Rid : Type} [DecidableEq Rid]

inductive Reason where
  | off
  | soloPrefillOriginalBudget
  | contendedRoundRobin
  | contendedAgedPrefill
  | contendedShortTailFirst
  | splitDecodeRepay
  deriving DecidableEq, Repr

/-- The fields of `FairPrefill`. `grants` is `None` when nothing is limited. -/
structure FairPrefill (Rid : Type) where
  queue : List Rid
  deferredLong : Finset Rid
  eligibleLong : Finset Rid
  grants : Option (Rid → Option Int)
  decodeReserved : Nat
  reason : Reason

/-- `__init__`. -/
def FairPrefill.init : FairPrefill Rid := ⟨[], ∅, ∅, none, 0, .off⟩

/-- `validate_cap` accepts the cap. -/
def validCap (blockSize cap : Nat) : Bool :=
  cap == 0 || (!(cap < blockSize) && cap % blockSize == 0)

/-! ## The requests of a pass and their budget -/

/-- The running requests that decode. -/
def decoders (sch : Scheduler Rid) : List (Request Rid) :=
  sch.running.filter fun r => !isPrefilling r

/-- The prefills `plan` considers: the running ones, then as many waiting requests, the skipped
ones first, as there are free slots. -/
def prefills (sch : Scheduler Rid) : List (Request Rid) :=
  let slots := sch.maxNumRunningReqs - sch.running.length - sch.numWaitingForStreamingInput
  let ready := (sch.skippedWaiting ++ sch.waiting).filter fun r =>
    r.status = .waiting || r.status = .preempted
  sch.running.filter isPrefilling ++ ready.take slots

/-- Their ids. -/
def plannedIds (sch : Scheduler Rid) : List Rid := (prefills sch).map (·.requestId)

/-- Nothing to share: no decoder and at most one prefill. -/
def solo (sch : Scheduler Rid) : Bool := (decoders sch).isEmpty && (prefills sch).length ≤ 1

/-- `decode_reserved`. -/
def reservedFor (sch : Scheduler Rid) : Nat := (decoders sch).length * (sch.numSpecTokens + 1)

/-- The token budget of a contended pass. -/
def stepBudget (sch : Scheduler Rid) (cap : Nat) : Int :=
  min cap (sch.maxNumScheduledTokens - reservedFor sch)

/-- Its input slots. -/
def stepInputs (sch : Scheduler Rid) : Int :=
  sch.maxNumBatchedTokens - (reservedFor sch + (decoders sch).length * sch.draftSlots)

/-- `allowance_for`: an internal chunk ends on a block boundary. -/
def allowanceFor (blockSize draftSlots : Nat) (r : Request Rid) (tokens scratch : Int) : Int :=
  let start : Int := r.numComputedTokens
  let stop : Int := r.prefillEnd
  let allowance := min (min tokens (scratch - draftSlots)) (max 0 (stop - start))
  let allowance :=
    if start + allowance < stop then (start + allowance) / blockSize * blockSize - start
    else allowance
  max 0 allowance

/-- What the full budget of the pass would allow `rid`. -/
def possible (blockSize : Nat) (sch : Scheduler Rid) (cap : Nat) (rid : Rid) : Int :=
  match byId (prefills sch) rid with
  | some r => allowanceFor blockSize sch.draftSlots r (stepBudget sch cap) (stepInputs sch)
  | none => 0

/-- `rid` is a terminal tail: less than a block is left, and the full budget covers it. -/
def isTail (blockSize : Nat) (sch : Scheduler Rid) (cap : Nat) (rid : Rid) : Bool :=
  match byId (prefills sch) rid with
  | some r =>
    let remaining : Int := r.prefillEnd - r.numComputedTokens
    0 < remaining && remaining < blockSize && possible blockSize sch cap rid == remaining
  | none => false

/-- `rid` joins `eligible_long`. -/
def isLong (blockSize : Nat) (sch : Scheduler Rid) (cap : Nat) (rid : Rid) : Bool :=
  !isTail blockSize sch cap rid && 0 < possible blockSize sch cap rid

/-! ## The planner

`plan` first tidies the queue: it drops who left, sets newcomers at the back and keeps the marks of
requests that are still there. Where the cap is on and there is something to share, it offers in
the order `offerOrder`. Each offer is `allowance_for` of what the offers before it left, so the
grants of a pass depend on the order only through the two budgets of the ledger.
-/

/-- The order in which a pass makes its offers. -/
def offerOrder (blockSize : Nat) (sch : Scheduler Rid) (cap : Nat) (queue : List Rid)
    (deferredLong : Finset Rid) : List Rid :=
  let tails := queue.filter fun rid => isTail blockSize sch cap rid
  let protectedLong := queue.filter fun rid => rid ∈ deferredLong && isLong blockSize sch cap rid
  let priority := protectedLong ++ tails
  priority ++ queue.filter fun rid => rid ∉ priority

/-- The loop state of the grants: the dictionary, the budget and the input slots left. -/
structure Ledger (Rid : Type) where
  grants : Rid → Option Int
  budget : Int
  inputs : Int

/-- One iteration of the grant loop. -/
def grantStep (blockSize : Nat) (sch : Scheduler Rid) (g : Ledger Rid) (rid : Rid) : Ledger Rid :=
  match byId (prefills sch) rid with
  | some r =>
    let allowance := allowanceFor blockSize sch.draftSlots r g.budget g.inputs
    if allowance ≤ 0 then g
    else
      ⟨Function.update g.grants rid (some allowance), g.budget - allowance,
        g.inputs - (allowance + sch.draftSlots)⟩
  | none => g

/-- The ledger before the first offer. -/
def openLedger (sch : Scheduler Rid) (cap : Nat) : Ledger Rid :=
  ⟨fun rid => if rid ∈ plannedIds sch then some 0 else none, stepBudget sch cap, stepInputs sch⟩

/-- `plan`, for a cap `validate_cap` accepts. -/
def plan (blockSize : Nat) (s : FairPrefill Rid) (sch : Scheduler Rid) (cap : Nat) :
    FairPrefill Rid :=
  if cap = 0 then ⟨[], ∅, ∅, none, 0, .off⟩
  else
    let queue := refill (plannedIds sch) s.queue
    let deferredLong := s.deferredLong.filter fun rid => rid ∈ plannedIds sch
    if solo sch then ⟨queue, deferredLong, ∅, none, 0, .soloPrefillOriginalBudget⟩
    else
      let order := offerOrder blockSize sch cap queue deferredLong
      let tails := queue.filter fun rid => isTail blockSize sch cap rid
      let eligibleLong := (queue.filter fun rid => isLong blockSize sch cap rid).toFinset
      { queue := queue
        deferredLong := deferredLong
        eligibleLong := eligibleLong
        grants := some (order.foldl (grantStep blockSize sch) (openLedger sch cap)).grants
        decodeReserved := reservedFor sch
        reason :=
          if tails = [] then .contendedRoundRobin
          else if (queue.filter fun rid => rid ∈ deferredLong && rid ∈ eligibleLong) = [] then
            .contendedShortTailFirst
          else .contendedAgedPrefill }

/-- `defer_for_decode`. -/
def deferForDecode (s : FairPrefill Rid) (decodeReserved : Nat) : FairPrefill Rid :=
  { s with
    grants := some fun _ => none
    decodeReserved := decodeReserved
    reason := .splitDecodeRepay
    eligibleLong := ∅ }

/-- `(self.grants or {}).get(rid, 0)`. -/
def granted (s : FairPrefill Rid) (rid : Rid) : Int :=
  match s.grants with
  | some g => (g rid).getD 0
  | none => 0

/-- `limit`. -/
def limit (s : FairPrefill Rid) (rid : Rid) (count : Int) : Int :=
  match s.grants with
  | some g => min count ((g rid).getD 0)
  | none => count

/-- The requests `observe` counts as offered. -/
def wasOffered (s : FairPrefill Rid) (counts : Rid → Int) (rid : Rid) : Bool :=
  0 < counts rid || 0 < granted s rid

/-- `observe`. -/
def observe (s : FairPrefill Rid) (counts : Rid → Int) : FairPrefill Rid :=
  let offered := (s.queue.filter (wasOffered s counts)).toFinset
  { s with
    deferredLong := (s.deferredLong ∪ (s.eligibleLong \ offered)) \ offered
    queue := rotate (wasOffered s counts) s.queue }

/-! ## Runs -/

/-- One scheduling pass. -/
structure Pass (Rid : Type) (blockSize : Nat) where
  scheduler : Scheduler Rid
  cap : Nat
  asked : Rid → Int
  cap_valid : validCap blockSize cap = true
  ids_nodup : (plannedIds scheduler).Nodup

/-- A turn: an ordinary pass, or one the split cadence keeps prefill-free. -/
inductive Turn (Rid : Type) (blockSize : Nat) where
  | pass (p : Pass Rid blockSize)
  | deferred (decodeReserved : Nat)

variable {blockSize : Nat}

/-- The state between `plan` and `observe` of a pass. -/
def planned (s : FairPrefill Rid) (p : Pass Rid blockSize) : FairPrefill Rid :=
  plan blockSize s p.scheduler p.cap

/-- The state after a turn. -/
def step (s : FairPrefill Rid) : Turn Rid blockSize → FairPrefill Rid
  | .pass p => observe (planned s p) fun rid => limit (planned s p) rid (p.asked rid)
  | .deferred decodeReserved => deferForDecode s decodeReserved

/-- The state after a history. -/
abbrev after (h : List (Turn Rid blockSize)) : FairPrefill Rid := run step FairPrefill.init h

/-- The turn is an ordinary pass. -/
def Turn.isPass : Turn Rid blockSize → Bool
  | .pass _ => true
  | .deferred _ => false

/-- In the planned state `s` the request `rid` receives a positive offer, or nothing is limited. -/
def Offered (s : FairPrefill Rid) (rid : Rid) : Prop := s.grants = none ∨ 0 < granted s rid

/-! ## What a pass does

The planner is read once here, each field of the planned state by a lemma of its own; nothing later
unfolds `plan`. What follows is then said of `grantStep` along the order, of `observe`, and of the
queue.
-/

section Pass

variable (s : FairPrefill Rid) (p : Pass Rid blockSize)

/-- The pass limits its prefills: the cap is on and there is something to share. -/
def Pass.Contended (p : Pass Rid blockSize) : Prop := p.cap ≠ 0 ∧ solo p.scheduler = false

theorem planned_queue (hc : p.cap ≠ 0) :
    (planned s p).queue = refill (plannedIds p.scheduler) s.queue := by
  unfold planned plan
  rw [if_neg hc]
  simp only
  split <;> rfl

theorem planned_deferred (hc : p.cap ≠ 0) :
    (planned s p).deferredLong =
      s.deferredLong.filter fun rid => rid ∈ plannedIds p.scheduler := by
  unfold planned plan
  rw [if_neg hc]
  simp only
  split <;> rfl

theorem planned_solo (hc : p.cap ≠ 0) (h : solo p.scheduler = true) :
    (planned s p).grants = none := by
  unfold planned plan
  rw [if_neg hc]
  simp only
  rw [if_pos h]

theorem planned_eligible (h : p.Contended) {rid : Rid} :
    rid ∈ (planned s p).eligibleLong ↔
      rid ∈ (planned s p).queue ∧ isLong blockSize p.scheduler p.cap rid = true := by
  rw [planned_queue s p h.1]
  unfold planned plan
  rw [if_neg h.1]
  simp only
  rw [if_neg (by simp [h.2])]
  simp

theorem planned_grants (h : p.Contended) :
    (planned s p).grants = some
      ((offerOrder blockSize p.scheduler p.cap (planned s p).queue (planned s p).deferredLong).foldl
        (grantStep blockSize p.scheduler) (openLedger p.scheduler p.cap)).grants := by
  rw [planned_queue s p h.1, planned_deferred s p h.1]
  unfold planned plan
  rw [if_neg h.1]
  simp only
  rw [if_neg (by simp [h.2])]

end Pass

/-! ### Grants only grow along the order -/

theorem grantStep_pos {sch : Scheduler Rid} {g : Ledger Rid} {rid : Rid}
    (h : 0 < (g.grants rid).getD 0) (r : Rid) :
    0 < ((grantStep blockSize sch g r).grants rid).getD 0 := by
  unfold grantStep
  cases byId (prefills sch) r with
  | none => exact h
  | some req =>
    simp only
    split
    · exact h
    · rename_i ha
      by_cases hr : rid = r
      · subst hr; simp only [Function.update_self, Option.getD_some]; omega
      · simpa only [Function.update_of_ne hr] using h

theorem grants_pos {sch : Scheduler Rid} {rid : Rid} (order : List Rid) :
    ∀ {g : Ledger Rid}, 0 < (g.grants rid).getD 0 →
      0 < ((order.foldl (grantStep blockSize sch) g).grants rid).getD 0 := by
  induction order with
  | nil => exact fun h => h
  | cons r order ih => exact fun h => ih (grantStep_pos h r)

/-- A request that the budget left allows something is granted it. -/
theorem grantStep_served {sch : Scheduler Rid} {g : Ledger Rid} {rid : Rid} {r : Request Rid}
    (hr : byId (prefills sch) rid = some r)
    (ha : 0 < allowanceFor blockSize sch.draftSlots r g.budget g.inputs) :
    grantStep blockSize sch g rid =
      ⟨Function.update g.grants rid
        (some (allowanceFor blockSize sch.draftSlots r g.budget g.inputs)),
        g.budget - allowanceFor blockSize sch.draftSlots r g.budget g.inputs,
        g.inputs -
          (allowanceFor blockSize sch.draftSlots r g.budget g.inputs + sch.draftSlots)⟩ := by
  unfold grantStep
  rw [hr]
  exact if_neg (not_le.mpr ha)

/-- **The first request of the order gets what the full budget allows it.** -/
theorem granted_head {s : FairPrefill Rid} {p : Pass Rid blockSize} (h : p.Contended)
    {rid : Rid} {rest : List Rid}
    (ho : offerOrder blockSize p.scheduler p.cap (planned s p).queue (planned s p).deferredLong =
      rid :: rest)
    (hp : 0 < possible blockSize p.scheduler p.cap rid) : 0 < granted (planned s p) rid := by
  unfold granted
  rw [planned_grants s p h, ho, List.foldl_cons]
  refine grants_pos rest ?_
  unfold possible at hp
  cases hr : byId (prefills p.scheduler) rid with
  | none => rw [hr] at hp; exact absurd hp (lt_irrefl 0)
  | some r =>
    rw [hr] at hp
    have ha : 0 < allowanceFor blockSize p.scheduler.draftSlots r
      (openLedger p.scheduler p.cap).budget
        (openLedger p.scheduler p.cap).inputs := hp
    rw [grantStep_served hr ha]
    simp only [Function.update_self, Option.getD_some]
    exact ha

theorem possible_of_tail {sch : Scheduler Rid} {cap : Nat} {rid : Rid}
    (h : isTail blockSize sch cap rid = true) : 0 < possible blockSize sch cap rid := by
  unfold isTail at h
  split at h
  · simp only [Bool.and_eq_true, decide_eq_true_eq, beq_iff_eq] at h
    omega
  · exact absurd h (by simp)

theorem possible_of_long {sch : Scheduler Rid} {cap : Nat} {rid : Rid}
    (h : isLong blockSize sch cap rid = true) : 0 < possible blockSize sch cap rid := by
  simp only [isLong, Bool.and_eq_true, decide_eq_true_eq] at h
  exact h.2

/-! ### What a budget covers -/

section Covered

variable {sch : Scheduler Rid} {cap : Nat}

omit [DecidableEq Rid] in
/-- A smaller budget allows no more. -/
theorem allowanceFor_mono (bs draft : Nat) (r : Request Rid) {tokens tokens' scratch scratch' : Int}
    (ht : tokens ≤ tokens') (hs : scratch ≤ scratch') :
    allowanceFor bs draft r tokens scratch ≤ allowanceFor bs draft r tokens' scratch' := by
  have hbs : (0 : Int) ≤ bs := Int.natCast_nonneg bs
  unfold allowanceFor
  simp only
  refine max_le_max le_rfl ?_
  generalize hx : min (min tokens (scratch - draft))
    (max 0 ((r.prefillEnd : Int) - r.numComputedTokens)) = x
  generalize hy : min (min tokens' (scratch' - draft))
    (max 0 ((r.prefillEnd : Int) - r.numComputedTokens)) = y
  have hxy : x ≤ y := by omega
  rcases hbs.eq_or_lt with hzero | hpos
  · rw [← hzero]
    simp only [mul_zero]
    split_ifs <;> omega
  have hfloor := Int.ediv_mul_le (r.numComputedTokens + x) hpos.ne'
  have hmono : ((r.numComputedTokens : Int) + x) / bs * bs ≤
      ((r.numComputedTokens : Int) + y) / bs * bs :=
    Int.mul_le_mul_of_nonneg_right (Int.ediv_le_ediv hpos (by omega)) hbs
  split_ifs <;> omega

omit [DecidableEq Rid] in
/-- A budget that covers what is left allows all of it. -/
theorem allowanceFor_tail {draft : Nat} {r : Request Rid} {tokens scratch : Int}
    (hpos : 0 < (r.prefillEnd : Int) - r.numComputedTokens)
    (ht : (r.prefillEnd : Int) - r.numComputedTokens ≤ tokens)
    (hs : (r.prefillEnd : Int) - r.numComputedTokens + draft ≤ scratch) :
    allowanceFor blockSize draft r tokens scratch = r.prefillEnd - r.numComputedTokens := by
  unfold allowanceFor
  simp only
  split_ifs <;> omega

/-- What a request of the order takes of a budget. -/
def demand (blockSize : Nat) (sch : Scheduler Rid) (cap : Nat) (order : List Rid) : Int :=
  (order.map (possible blockSize sch cap)).sum

theorem possible_nonneg (blockSize : Nat) (sch : Scheduler Rid) (cap : Nat) (rid : Rid) :
    0 ≤ possible blockSize sch cap rid := by
  unfold possible
  split
  · exact le_max_left _ _
  · exact le_rfl

/-- Requests take no more of a ledger than the full budget would allow them. -/
theorem ledger_left (blockSize : Nat) (order : List Rid) : ∀ {g : Ledger Rid},
    g.budget ≤ stepBudget sch cap → g.inputs ≤ stepInputs sch →
    g.budget - demand blockSize sch cap order ≤ (order.foldl (grantStep blockSize sch) g).budget ∧
    g.inputs - (demand blockSize sch cap order + order.length * sch.draftSlots) ≤
      (order.foldl (grantStep blockSize sch) g).inputs := by
  induction order with
  | nil =>
    intro g _ _
    simp [demand]
  | cons r order ih =>
    intro g hb hi
    have hdraft : (0 : Int) ≤ sch.draftSlots := Int.natCast_nonneg _
    have hpos := possible_nonneg blockSize sch cap r
    obtain ⟨hstep, hle⟩ : (g.budget - possible blockSize sch cap r ≤
          (grantStep blockSize sch g r).budget ∧
        g.inputs - (possible blockSize sch cap r + sch.draftSlots) ≤
          (grantStep blockSize sch g r).inputs) ∧
        (grantStep blockSize sch g r).budget ≤ g.budget ∧
          (grantStep blockSize sch g r).inputs ≤ g.inputs := by
      unfold grantStep
      unfold possible at hpos ⊢
      cases hr : byId (prefills sch) r with
      | none => exact ⟨⟨by simp, by simp only; omega⟩, le_rfl, le_rfl⟩
      | some req =>
        rw [hr] at hpos
        have hmono := allowanceFor_mono blockSize sch.draftSlots req hb hi
        simp only at hpos ⊢
        split
        · exact ⟨⟨by omega, by omega⟩, le_rfl, le_rfl⟩
        · exact ⟨⟨by simp only; omega, by simp only; omega⟩, by simp only; omega,
            by simp only; omega⟩
    obtain ⟨h₁, h₂⟩ := ih (g := grantStep blockSize sch g r) (hle.1.trans hb) (hle.2.trans hi)
    rw [List.foldl_cons, List.length_cons]
    unfold demand at h₁ h₂ ⊢
    rw [List.map_cons, List.sum_cons]
    push_cast
    rw [add_mul, one_mul]
    exact ⟨by omega, by omega⟩

end Covered

/-- The marked long requests of a queue that the pass could serve. -/
def isProtected (s : FairPrefill Rid) (p : Pass Rid blockSize) (rid : Rid) : Bool :=
  rid ∈ (planned s p).deferredLong && isLong blockSize p.scheduler p.cap rid

/-- The first protected request of the queue heads the order. -/
theorem offerOrder_protected {s : FairPrefill Rid} {p : Pass Rid blockSize} {rid : Rid}
    {rest : List Rid} (hf : (planned s p).queue.filter (isProtected s p) = rid :: rest) :
    ∃ rest', offerOrder blockSize p.scheduler p.cap (planned s p).queue
      (planned s p).deferredLong = rid :: rest' := by
  unfold offerOrder
  simp only
  rw [show ((planned s p).queue.filter fun r => r ∈ (planned s p).deferredLong &&
    isLong blockSize p.scheduler p.cap r) = rid :: rest from hf]
  exact ⟨_, rfl⟩

/-- The first protected request of the queue receives an offer. -/
theorem protected_granted {s : FairPrefill Rid} {p : Pass Rid blockSize} (h : p.Contended)
    {rid : Rid} {rest : List Rid}
    (hf : (planned s p).queue.filter (isProtected s p) = rid :: rest) :
    0 < granted (planned s p) rid := by
  have hmem : rid ∈ (planned s p).queue.filter (isProtected s p) := by simp [hf]
  have hlong := (List.mem_filter.mp hmem).2
  simp only [isProtected, Bool.and_eq_true] at hlong
  obtain ⟨rest', ho⟩ := offerOrder_protected hf
  exact granted_head h ho (possible_of_long hlong.2)

/-- With nothing protected the first terminal tail of the queue receives an offer. -/
theorem tail_granted {s : FairPrefill Rid} {p : Pass Rid blockSize} (h : p.Contended)
    (hn : (planned s p).queue.filter (isProtected s p) = []) {rid : Rid} {rest : List Rid}
    (hf : ((planned s p).queue.filter fun r => isTail blockSize p.scheduler p.cap r) =
      rid :: rest) :
    0 < granted (planned s p) rid := by
  have hmem : rid ∈ (planned s p).queue.filter fun r => isTail blockSize p.scheduler p.cap r := by
    simp [hf]
  obtain ⟨rest', ho⟩ : ∃ rest', offerOrder blockSize p.scheduler p.cap (planned s p).queue
      (planned s p).deferredLong = rid :: rest' := by
    unfold offerOrder
    simp only
    rw [show ((planned s p).queue.filter fun r => r ∈ (planned s p).deferredLong &&
      isLong blockSize p.scheduler p.cap r) = [] from hn, List.nil_append, hf]
    exact ⟨_, rfl⟩
  exact granted_head h ho (possible_of_tail (List.mem_filter.mp hmem).2)

/-! ### Observing a pass -/

section Observe

variable {s : FairPrefill Rid} {p : Pass Rid blockSize}

/-- The requests the observation of a pass counts as offered. -/
def offeredIn (s : FairPrefill Rid) (p : Pass Rid blockSize) : Rid → Bool :=
  wasOffered (planned s p) fun rid => limit (planned s p) rid (p.asked rid)

theorem step_pass_queue :
    (step s (.pass p)).queue = rotate (offeredIn s p) (planned s p).queue := rfl

theorem mem_step_pass_deferred {rid : Rid} :
    rid ∈ (step s (.pass p)).deferredLong ↔
      (rid ∈ (planned s p).deferredLong ∨ rid ∈ (planned s p).eligibleLong) ∧
        ¬ (rid ∈ (planned s p).queue ∧ offeredIn s p rid = true) := by
  show rid ∈ ((planned s p).deferredLong ∪ ((planned s p).eligibleLong \
    ((planned s p).queue.filter (offeredIn s p)).toFinset)) \
    ((planned s p).queue.filter (offeredIn s p)).toFinset ↔ _
  simp only [Finset.mem_sdiff, Finset.mem_union, List.mem_toFinset, List.mem_filter]
  tauto

/-- In a contended pass a request counts as offered exactly when it was granted something: what it
was scheduled is limited by its grant. -/
theorem offeredIn_iff (h : p.Contended) {rid : Rid} :
    offeredIn s p rid = true ↔ 0 < granted (planned s p) rid := by
  have hg := planned_grants s p h
  unfold offeredIn wasOffered
  simp only [Bool.or_eq_true, decide_eq_true_eq]
  refine or_iff_right_of_imp fun hl => ?_
  unfold limit at hl
  unfold granted
  rw [hg] at hl ⊢
  exact lt_of_lt_of_le hl (min_le_right _ _)

/-- A request without an offer is one of a contended pass, and does not count as offered. -/
theorem contended_of_not_offered {rid : Rid} (hc : p.cap ≠ 0) (hn : ¬ Offered (planned s p) rid) :
    p.Contended ∧ offeredIn s p rid = false := by
  have hcon : p.Contended := by
    refine ⟨hc, ?_⟩
    by_contra hs
    exact hn (Or.inl (planned_solo s p hc (by simpa using hs)))
  refine ⟨hcon, ?_⟩
  rw [← Bool.not_eq_true, offeredIn_iff hcon]
  exact fun hg => hn (Or.inr hg)

end Observe

/-! ## Waiting for an offer

The measure of all waiting is how many requests stand ahead in the queue. Planning lets it only
fall, as newcomers stand at the back, and observing rotates whoever was offered something behind
everybody else. So a request without an offer moves up by the number of requests ahead of it that
were served.
-/

section Wait

variable {s : FairPrefill Rid} {p : Pass Rid blockSize} {rid : Rid}

/-- Planning never moves a queued request back. -/
theorem ahead_planned_le (hc : p.cap ≠ 0) (hq : rid ∈ s.queue)
    (hp : rid ∈ plannedIds p.scheduler) :
    (ahead (planned s p).queue rid).length ≤ (ahead s.queue rid).length := by
  rw [planned_queue s p hc, ahead_refill hq hp]
  exact List.length_filter_le _ _

theorem mem_planned_queue (hc : p.cap ≠ 0) :
    rid ∈ (planned s p).queue ↔ rid ∈ plannedIds p.scheduler := by
  rw [planned_queue s p hc, mem_refill]

/-- What was offered something leaves the front of a request without an offer. -/
theorem ahead_step (hq : rid ∈ (planned s p).queue) (hn : offeredIn s p rid = false) :
    ahead (step s (.pass p)).queue rid =
      (ahead (planned s p).queue rid).filter fun r => !offeredIn s p r := by
  rw [step_pass_queue, ahead_rotate hq hn]

theorem ahead_step_le (hq : rid ∈ (planned s p).queue) (hn : offeredIn s p rid = false) :
    (ahead (step s (.pass p)).queue rid).length ≤ (ahead (planned s p).queue rid).length := by
  rw [ahead_step hq hn]
  exact List.length_filter_le _ _

theorem ahead_step_lt (hq : rid ∈ (planned s p).queue) (hn : offeredIn s p rid = false) {f : Rid}
    (hf : f ∈ ahead (planned s p).queue rid) (ho : offeredIn s p f = true) :
    (ahead (step s (.pass p)).queue rid).length < (ahead (planned s p).queue rid).length := by
  rw [ahead_step hq hn, List.length_filter_lt_length_iff_exists]
  exact ⟨f, hf, by simp [ho]⟩

/-! ### Long requests

A long request that gets nothing is marked. From then on the first protected request of the queue
heads the order of each pass, and is served; it is the request itself or stands ahead of it. So
the position falls by one on every pass, after at most one pass for the mark.
-/

/-- A long request that a pass leaves without an offer is marked. -/
theorem marked_of_not_offered (hc : p.cap ≠ 0) (hp : rid ∈ plannedIds p.scheduler)
    (hl : p.Contended → isLong blockSize p.scheduler p.cap rid = true)
    (hn : ¬ Offered (planned s p) rid) : rid ∈ (step s (.pass p)).deferredLong := by
  obtain ⟨hcon, hoff⟩ := contended_of_not_offered hc hn
  rw [mem_step_pass_deferred]
  refine ⟨Or.inr ?_, fun h => by simp [hoff] at h⟩
  rw [planned_eligible s p hcon, mem_planned_queue hc]
  exact ⟨hp, hl hcon⟩

/-- **A marked long request moves up** on every pass that leaves it without an offer: the first
protected request stands ahead of it, and is served. -/
theorem marked_moves_up (hc : p.cap ≠ 0) (hp : rid ∈ plannedIds p.scheduler)
    (hl : p.Contended → isLong blockSize p.scheduler p.cap rid = true)
    (hm : rid ∈ s.deferredLong) (hn : ¬ Offered (planned s p) rid) :
    (ahead (step s (.pass p)).queue rid).length < (ahead (planned s p).queue rid).length := by
  obtain ⟨hcon, hoff⟩ := contended_of_not_offered hc hn
  have hq := (mem_planned_queue (s := s) hc).mpr hp
  have hprot : isProtected s p rid = true := by
    simp [isProtected, planned_deferred s p hc, hm, hp, hl hcon]
  obtain ⟨f, rest, hf, hfa⟩ := head_filter_ahead hq hprot
  have hfo := (offeredIn_iff hcon).mpr (protected_granted hcon hf)
  rcases hfa with hfa | rfl
  · exact ahead_step_lt hq hoff hfa hfo
  · simp [hoff] at hfo

end Wait

/-- The request stays in the planned set of a pass as a long one the full budget could serve. -/
def StaysLong (rid : Rid) (p : Pass Rid blockSize) : Prop :=
  p.cap ≠ 0 ∧ rid ∈ plannedIds p.scheduler ∧
    (p.Contended → isLong blockSize p.scheduler p.cap rid = true)

/-- The progress rule for the turns of the planner: what is waited for is the first pass with an
offer, and only passes count. -/
theorem offered_within (rid : Rid) (Inv : FairPrefill Rid → Prop)
    (Good : FairPrefill Rid → Pass Rid blockSize → Prop) (μ : FairPrefill Rid → Nat)
    (hidle : ∀ s n, Inv s → Inv (deferForDecode s n) ∧ μ (deferForDecode s n) ≤ μ s)
    (hstep : ∀ s p, Inv s → Good s p → ¬ Offered (planned s p) rid →
      Inv (step s (.pass p)) ∧ μ (step s (.pass p)) < μ s)
    (w : List (Turn Rid blockSize)) {s : FairPrefill Rid} (hi : Inv s)
    (hg : ∀ a p b, w = a ++ .pass p :: b → Good (run step s a) p)
    (hlen : μ s < w.countP Turn.isPass) :
    ∃ a p b, w = a ++ .pass p :: b ∧ a.countP Turn.isPass ≤ μ s ∧
      Offered (planned (run step s a) p) rid := by
  let Done (s : FairPrefill Rid) : Turn Rid blockSize → Prop
    | .pass p => Offered (planned s p) rid
    | .deferred _ => False
  let GoodTurn (s : FairPrefill Rid) : Turn Rid blockSize → Prop
    | .pass p => Good s p
    | .deferred _ => True
  have hidle' : ∀ (s : FairPrefill Rid) (e : Turn Rid blockSize), e.isPass = false → Inv s →
      Inv (step s e) ∧ μ (step s e) ≤ μ s
    | s, .deferred n, _, hi => hidle s n hi
  have hstep' : ∀ (s : FairPrefill Rid) (e : Turn Rid blockSize), e.isPass = true → Inv s →
      GoodTurn s e → ¬ Done s e → Inv (step s e) ∧ μ (step s e) < μ s
    | s, .pass p, _, hi, hg, hn => hstep s p hi hg hn
  have hg' : ∀ a e b, w = a ++ e :: b → e.isPass = true → GoodTurn (run step s a) e
    | a, .pass p, b, hw, _ => hg a p b hw
  obtain ⟨a, e, b, hw, hc, ha, hd⟩ :=
    done_within Turn.isPass Inv GoodTurn Done μ hidle' hstep' w hi hg' hlen
  cases e with
  | deferred n => simp [Turn.isPass] at hc
  | pass p => exact ⟨a, p, b, hw, ha, hd⟩

/-- A marked long request is offered something within as many passes as requests stand ahead. -/
theorem marked_offered {rid : Rid} (w : List (Turn Rid blockSize)) {s : FairPrefill Rid}
    (hq : rid ∈ s.queue) (hm : rid ∈ s.deferredLong)
    (hstay : ∀ p, .pass p ∈ w → StaysLong rid p)
    (hlen : (ahead s.queue rid).length < w.countP Turn.isPass) :
    ∃ a p b, w = a ++ .pass p :: b ∧ a.countP Turn.isPass ≤ (ahead s.queue rid).length ∧
      Offered (planned (run step s a) p) rid := by
  refine offered_within rid (fun s => rid ∈ s.queue ∧ rid ∈ s.deferredLong)
    (fun _ p => StaysLong rid p) (fun s => (ahead s.queue rid).length)
    (fun s n hi => ⟨hi, le_rfl⟩) (fun s p hi hg hn => ?_) w ⟨hq, hm⟩
    (fun a p b hw => hstay p (by rw [hw]; simp)) hlen
  obtain ⟨hc, hp, hl⟩ := hg
  refine ⟨⟨?_, marked_of_not_offered hc hp hl hn⟩,
    lt_of_lt_of_le (marked_moves_up hc hp hl hi.2 hn) (ahead_planned_le hc hi.1 hp)⟩
  rw [step_pass_queue, mem_rotate, mem_planned_queue hc]
  exact hp

/-- **Long prefills are not starved**: a long request that stays planned gets an offer within as
many passes as its position in the queue of the first one plus two, whatever else arrives. -/
theorem long_prefill_offered (h : List (Turn Rid blockSize)) (p₀ : Pass Rid blockSize)
    (w : List (Turn Rid blockSize)) (rid : Rid)
    (hstay : ∀ p, .pass p ∈ .pass p₀ :: w → StaysLong rid p)
    (hlen : (ahead (planned (after h) p₀).queue rid).length + 2 ≤
      (.pass p₀ :: w).countP Turn.isPass) :
    ∃ a p b, .pass p₀ :: w = a ++ .pass p :: b ∧
      a.countP Turn.isPass + 1 ≤ (ahead (planned (after h) p₀).queue rid).length + 2 ∧
      Offered (planned (after (h ++ a)) p) rid := by
  by_cases hn : Offered (planned (after h) p₀) rid
  · exact ⟨[], p₀, w, rfl, by simp, by simpa using hn⟩
  obtain ⟨hc, hp, hl⟩ := hstay p₀ List.mem_cons_self
  have hoff := (contended_of_not_offered hc hn).2
  have hq := (mem_planned_queue (s := after h) hc).mpr hp
  have hle := ahead_step_le hq hoff
  rw [List.countP_cons_of_pos (by rfl)] at hlen
  obtain ⟨a, p, b, hw, ha, hd⟩ := marked_offered w
    (s := step (after h) (.pass p₀))
    (by rw [step_pass_queue, mem_rotate]; exact hq)
    (marked_of_not_offered hc hp hl hn)
    (fun p hm => hstay p (List.mem_cons_of_mem _ hm)) (by omega)
  refine ⟨.pass p₀ :: a, p, b, by rw [hw, List.cons_append], ?_, ?_⟩
  · rw [List.countP_cons_of_pos (by rfl)]; omega
  · rw [after, run_append, run_cons]; exact hd

/-- A long prompt behind a decoder and another long one: served within three passes. -/
def crowdPass : Pass Nat 4 where
  scheduler := ⟨[⟨0, .running, 9, 8, 8, false, 0, 0, none, []⟩,
    ⟨1, .running, 40, 40, 0, false, 0, 0,
    none, []⟩, ⟨2, .running, 40, 40, 0, false, 0, 0, none, []⟩], [], [], 4, 0, 4, 4, 64, 64⟩
  cap := 4
  asked := fun _ => 4
  cap_valid := by decide
  ids_nodup := by decide

theorem crowded_prefill_offered :
    ∃ a p b, [.pass crowdPass, .pass crowdPass, .pass crowdPass] = a ++ .pass p :: b ∧
      a.countP Turn.isPass + 1 ≤ 3 ∧ Offered (planned (after ([] ++ a)) p) 2 := by
  refine long_prefill_offered [] crowdPass [.pass crowdPass, .pass crowdPass] 2 (fun p hp => ?_)
    (by decide)
  have hp : p = crowdPass := by simpa using hp
  rw [hp]
  exact ⟨by decide, by decide, fun _ => by decide⟩

/-! ## Terminal tails

A long request that a pass leaves without an offer is marked whoever used the budget. Two marked
long requests can therefore hand the priority to each other, and a tail behind them waits forever.
It does not when no pass sets a marked long request behind the tail before an unmarked one there.
-/

/-- The request stays in the planned set of a pass as a terminal tail. -/
def StaysTail (rid : Rid) (p : Pass Rid blockSize) : Prop :=
  p.cap ≠ 0 ∧ rid ∈ plannedIds p.scheduler ∧
    (p.Contended → isTail blockSize p.scheduler p.cap rid = true)

/-- The queue that a pass finds: who left is dropped, who is new stands behind. -/
def found (s : FairPrefill Rid) (p : Pass Rid blockSize) : List Rid :=
  refill (plannedIds p.scheduler) s.queue

/-- The marked long requests of that queue. -/
def aged (s : FairPrefill Rid) (p : Pass Rid blockSize) : List Rid :=
  (found s p).filter fun l => l ∈ s.deferredLong && isLong blockSize p.scheduler p.cap l

/-- The budget and the input slots of the pass cover its marked long requests and the first tail of
the queue. -/
def Roomy (s : FairPrefill Rid) (p : Pass Rid blockSize) : Prop :=
  ∃ t rest, ((found s p).filter fun r => isTail blockSize p.scheduler p.cap r) = t :: rest ∧
    demand blockSize p.scheduler p.cap (aged s p) + possible blockSize p.scheduler p.cap t ≤
      stepBudget p.scheduler p.cap ∧
    demand blockSize p.scheduler p.cap (aged s p) + possible blockSize p.scheduler p.cap t +
      ((aged s p).length + 1) * p.scheduler.draftSlots ≤ stepInputs p.scheduler

/-- The pass cannot pass over an unmarked long request behind `rid` for a marked one there: one of
the two kinds is missing, or a marked one ahead of `rid` comes first, or there is room for a tail
as well. -/
def Spares (s : FairPrefill Rid) (p : Pass Rid blockSize) (rid : Rid) : Prop :=
  (∀ l ∈ behind (found s p) rid, l ∉ aged s p) ∨
  (∀ l ∈ behind (found s p) rid, isLong blockSize p.scheduler p.cap l = true →
    l ∈ s.deferredLong) ∨
  (∃ l ∈ ahead (found s p) rid, l ∈ aged s p) ∨
  Roomy s p

/-- The marked requests queued behind `rid`. -/
def markedBehind (s : FairPrefill Rid) (rid : Rid) : List Rid :=
  (behind s.queue rid).filter fun l => l ∈ s.deferredLong

/-- What a tail still waits for when at most `n` requests are planned: whoever stands ahead of it
can be served, and let up to `n` marked ones pass. -/
def debt (n : Nat) (s : FairPrefill Rid) (rid : Rid) : Nat :=
  n * (ahead s.queue rid).length + (markedBehind s rid).length

/-- Only queued requests are marked, and none is queued twice. -/
structure Sound (s : FairPrefill Rid) : Prop where
  nodup : s.queue.Nodup
  marked : ∀ rid ∈ s.deferredLong, rid ∈ s.queue

omit [DecidableEq Rid] in
theorem Sound.init : Sound (FairPrefill.init : FairPrefill Rid) :=
  ⟨List.nodup_nil, fun _ h => absurd h (Finset.notMem_empty _)⟩

section Tail

variable {s : FairPrefill Rid} {p : Pass Rid blockSize} {rid : Rid} {n : Nat}

theorem Sound.planned (hs : Sound s) (hc : p.cap ≠ 0) : Sound (planned s p) := by
  refine ⟨?_, fun r hr => ?_⟩
  · rw [planned_queue s p hc]
    exact nodup_refill p.ids_nodup hs.nodup
  · rw [planned_deferred s p hc, Finset.mem_filter] at hr
    exact (mem_planned_queue hc).mpr hr.2

theorem Sound.step_pass (hs : Sound (Fair.planned s p)) : Sound (step s (.pass p)) := by
  refine ⟨?_, fun r hr => ?_⟩
  · rw [step_pass_queue]
    exact nodup_rotate hs.nodup
  · rw [step_pass_queue, mem_rotate]
    rw [mem_step_pass_deferred] at hr
    rcases hr.1 with hd | he
    · exact hs.marked r hd
    · by_cases hcon : p.Contended
      · exact ((planned_eligible s p hcon).mp he).1
      · have : (Fair.planned s p).eligibleLong = ∅ := by
          unfold Fair.planned plan
          split
          · rfl
          · rename_i hc
            have hsolo : solo p.scheduler = true := by
              by_contra hne
              exact hcon ⟨hc, by simpa using hne⟩
            simp only [hsolo, if_true]
        rw [this] at he
        exact absurd he (Finset.notMem_empty _)

/-- Every history leads to a sound state. -/
theorem sound (h : List (Turn Rid blockSize)) : Sound (after h) := by
  refine invariant Sound.init (fun s e hs => ?_) h
  cases e with
  | deferred n => exact ⟨hs.nodup, hs.marked⟩
  | pass p =>
    refine Sound.step_pass ?_
    by_cases hc : p.cap = 0
    · unfold planned plan
      rw [if_pos hc]
      exact ⟨List.nodup_nil, fun _ h => absurd h (Finset.notMem_empty _)⟩
    · exact hs.planned hc

/-- Newcomers are not marked, so planning makes the debt no larger. -/
theorem debt_planned_le (hs : Sound s) (hc : p.cap ≠ 0) (hq : rid ∈ s.queue)
    (hp : rid ∈ plannedIds p.scheduler) : debt n (planned s p) rid ≤ debt n s rid := by
  have hmark : (markedBehind (planned s p) rid).length ≤ (markedBehind s rid).length := by
    unfold markedBehind
    rw [planned_queue s p hc, planned_deferred s p hc, behind_refill hq hp, List.filter_append,
      List.length_append]
    have hnew : ((plannedIds p.scheduler).filter fun a => a ∉ s.queue.filter
        fun b => b ∈ plannedIds p.scheduler).filter (fun l => l ∈ s.deferredLong.filter
          fun r => r ∈ plannedIds p.scheduler) = [] := by
      rw [List.filter_eq_nil_iff]
      intro l hl hd
      simp only [List.mem_filter, Finset.mem_filter, decide_eq_true_eq, not_and] at hl hd
      exact hl.2 (hs.marked l hd.1) hl.1
    rw [hnew, List.length_nil, Nat.add_zero, List.filter_filter]
    refine List.Sublist.length_le (List.monotone_filter_right _ fun l hl => ?_)
    simp only [Bool.and_eq_true, decide_eq_true_eq, Finset.mem_filter] at hl ⊢
    exact hl.1.1
  have := Nat.mul_le_mul_left n (ahead_planned_le (s := s) hc hq hp)
  unfold debt
  omega

/-- What is marked behind `rid` after a pass was queued behind it and got nothing. -/
theorem markedBehind_step (hq : rid ∈ (planned s p).queue) (hn : offeredIn s p rid = false) :
    markedBehind (step s (.pass p)) rid =
      (behind (planned s p).queue rid).filter fun l => !offeredIn s p l &&
        (l ∈ (planned s p).deferredLong ∨ l ∈ (planned s p).eligibleLong : Bool) := by
  unfold markedBehind
  rw [step_pass_queue, behind_rotate hq hn, List.filter_append]
  have hserved : ((planned s p).queue.filter (offeredIn s p)).filter
      (fun l => l ∈ (step s (.pass p)).deferredLong) = [] := by
    rw [List.filter_eq_nil_iff]
    intro l hl hd
    rw [decide_eq_true_eq, mem_step_pass_deferred] at hd
    exact hd.2 (List.mem_filter.mp hl)
  rw [hserved, List.append_nil, List.filter_filter]
  refine List.filter_congr fun l hl => ?_
  have hlq : l ∈ (planned s p).queue := by
    rw [(split_at hq).1]
    exact List.mem_append_right _ (List.mem_cons_of_mem _ hl)
  simp only [mem_step_pass_deferred, hlq, true_and]
  cases offeredIn s p l <;> simp

theorem planned_of_long {sch : Scheduler Rid} {cap : Nat} {r : Rid}
    (hl : isLong blockSize sch cap r = true) : r ∈ plannedIds sch := by
  have hp := possible_of_long hl
  unfold possible byId at hp
  cases hf : (prefills sch).reverse.find? fun req => req.requestId = r with
  | none =>
    rw [hf] at hp
    exact absurd hp (lt_irrefl 0)
  | some req =>
    have hreq := List.find?_some hf
    have hm := List.mem_reverse.mp (List.mem_of_find?_eq_some hf)
    exact List.mem_map.mpr ⟨req, hm, by simpa using hreq⟩

/-- What goes first are the marked long requests of the queue that the pass finds. -/
theorem isProtected_eq (hc : p.cap ≠ 0) (r : Rid) : isProtected s p r =
    (r ∈ s.deferredLong && isLong blockSize p.scheduler p.cap r : Bool) := by
  unfold isProtected
  rw [planned_deferred s p hc]
  cases hl : isLong blockSize p.scheduler p.cap r with
  | false => simp
  | true => simp [planned_of_long hl]

theorem protected_eq_aged (hc : p.cap ≠ 0) :
    (planned s p).queue.filter (isProtected s p) = aged s p := by
  rw [planned_queue s p hc]
  exact List.filter_congr fun r _ => isProtected_eq hc r

/-- **In a roomy pass the first tail of the queue receives an offer.** -/
theorem roomy_granted (h : p.Contended) {t : Rid} {rest : List Rid}
    (hf : ((found s p).filter fun r => isTail blockSize p.scheduler p.cap r) = t :: rest)
    (hb : demand blockSize p.scheduler p.cap (aged s p) + possible blockSize p.scheduler p.cap t ≤
      stepBudget p.scheduler p.cap)
    (hi : demand blockSize p.scheduler p.cap (aged s p) + possible blockSize p.scheduler p.cap t +
      ((aged s p).length + 1) * p.scheduler.draftSlots ≤ stepInputs p.scheduler) :
    0 < granted (planned s p) t := by
  have htail : isTail blockSize p.scheduler p.cap t = true :=
    (List.mem_filter.mp (hf ▸ List.mem_cons_self)).2
  obtain ⟨rest', ho⟩ : ∃ rest', offerOrder blockSize p.scheduler p.cap (planned s p).queue
      (planned s p).deferredLong = aged s p ++ t :: rest' := by
    unfold offerOrder
    simp only
    rw [show ((planned s p).queue.filter fun r => r ∈ (planned s p).deferredLong &&
      isLong blockSize p.scheduler p.cap r) = aged s p from protected_eq_aged h.1,
      planned_queue s p h.1, show ((refill (plannedIds p.scheduler) s.queue).filter fun r =>
        isTail blockSize p.scheduler p.cap r) = t :: rest from hf, List.append_assoc,
      List.cons_append]
    exact ⟨_, rfl⟩
  obtain ⟨hbudget, hinputs⟩ := ledger_left blockSize (aged s p)
    (g := openLedger p.scheduler p.cap) (le_refl (stepBudget p.scheduler p.cap)) le_rfl
  rw [show (openLedger p.scheduler p.cap).budget = stepBudget p.scheduler p.cap from rfl]
    at hbudget
  rw [show (openLedger p.scheduler p.cap).inputs = stepInputs p.scheduler from rfl] at hinputs
  rw [add_mul, one_mul] at hi
  unfold granted
  rw [planned_grants s p h, ho, List.foldl_append, List.foldl_cons]
  refine grants_pos rest' ?_
  unfold isTail possible at htail
  unfold possible at hb hi
  cases hr : byId (prefills p.scheduler) t with
  | none =>
    rw [hr] at htail
    cases htail
  | some r =>
    rw [hr] at htail hb hi
    simp only [Bool.and_eq_true, decide_eq_true_eq, beq_iff_eq] at htail hb hi
    have hall : allowanceFor blockSize p.scheduler.draftSlots r
        ((aged s p).foldl (grantStep blockSize p.scheduler) (openLedger p.scheduler p.cap)).budget
        ((aged s p).foldl (grantStep blockSize p.scheduler) (openLedger p.scheduler p.cap)).inputs =
          r.prefillEnd - r.numComputedTokens :=
      allowanceFor_tail htail.1.1 (by omega) (by omega)
    rw [grantStep_served hr (by rw [hall]; exact htail.1.1)]
    simp only [Function.update_self, Option.getD_some]
    rw [hall]
    exact htail.1.1

/-- Serving someone ahead pays for every request the pass marks. -/
theorem debt_step_of_ahead (hlen : (planned s p).queue.length ≤ n)
    (hq : rid ∈ (planned s p).queue) (hn : offeredIn s p rid = false) {f : Rid}
    (hf : f ∈ ahead (planned s p).queue rid) (ho : offeredIn s p f = true) :
    debt n (step s (.pass p)) rid < debt n (planned s p) rid := by
  have hahead := ahead_step_lt hq hn hf ho
  have hsplit := length_split (q := (step s (.pass p)).queue) (t := rid)
    (by rw [step_pass_queue, mem_rotate]; exact hq)
  have hsame : (step s (.pass p)).queue.length = (planned s p).queue.length := by
    rw [step_pass_queue, length_rotate]
  have hmark : (markedBehind (step s (.pass p)) rid).length ≤
      (behind (step s (.pass p)).queue rid).length := List.length_filter_le _ _
  have hmul := Nat.mul_le_mul_left n hahead
  rw [Nat.mul_succ] at hmul
  unfold debt
  omega

/-- Serving a marked request behind pays when the pass marks nobody there. -/
theorem debt_step_of_behind (hcon : p.Contended) (hq : rid ∈ (planned s p).queue)
    (hn : offeredIn s p rid = false)
    (hsp : ∀ l ∈ behind (planned s p).queue rid, isLong blockSize p.scheduler p.cap l = true →
      l ∈ (planned s p).deferredLong) {f : Rid}
    (hf : f ∈ behind (planned s p).queue rid) (hm : f ∈ (planned s p).deferredLong)
    (ho : offeredIn s p f = true) :
    debt n (step s (.pass p)) rid < debt n (planned s p) rid := by
  have hmul := Nat.mul_le_mul_left n (ahead_step_le hq hn)
  have hmark : (markedBehind (step s (.pass p)) rid).length <
      (markedBehind (planned s p) rid).length := by
    rw [markedBehind_step hq hn]
    refine length_filter_lt (fun l hl hlm => ?_) hf (by simpa using hm) (by simp [ho])
    simp only [Bool.and_eq_true, Bool.not_eq_true', decide_eq_true_eq] at hlm ⊢
    rcases hlm.2 with hd | he
    · exact hd
    · rw [planned_eligible s p hcon] at he
      exact hsp l hl he.2
  unfold debt
  omega

/-- **A pass that spares a tail and offers it nothing pays off some of its debt.** -/
theorem debt_step_lt (hs : Sound s) (hstay : StaysTail rid p)
    (hlen : (plannedIds p.scheduler).length ≤ n) (hsp : Spares s p rid)
    (hn : ¬ Offered (planned s p) rid) :
    debt n (step s (.pass p)) rid < debt n (planned s p) rid := by
  obtain ⟨hc, hp, ht⟩ := hstay
  obtain ⟨hcon, hoff⟩ := contended_of_not_offered hc hn
  have hq := (mem_planned_queue (s := s) hc).mpr hp
  have hqlen : (planned s p).queue.length ≤ n := by
    rw [planned_queue s p hc]
    exact (length_refill_le p.ids_nodup hs.nodup).trans hlen
  have hfound : (planned s p).queue = found s p := planned_queue s p hc
  -- the first tail of the queue is not the one that got nothing
  have htails : ∀ {f : Rid} {rest : List Rid},
      ((planned s p).queue.filter fun r => isTail blockSize p.scheduler p.cap r) = f :: rest →
      0 < granted (planned s p) f → debt n (step s (.pass p)) rid < debt n (planned s p) rid := by
    intro f rest hf hg
    obtain ⟨f', rest', hf', hfa⟩ := head_filter_ahead
      (P := fun r => isTail blockSize p.scheduler p.cap r) hq (ht hcon)
    obtain rfl : f' = f := (List.cons.inj (hf'.symm.trans hf)).1
    have hfo := (offeredIn_iff hcon).mpr hg
    rcases hfa with hfa | rfl
    · exact debt_step_of_ahead hqlen hq hoff hfa hfo
    · simp [hoff] at hfo
  cases hprot : (planned s p).queue.filter (isProtected s p) with
  | nil =>
    obtain ⟨f, rest, hf, -⟩ := head_filter_ahead
      (P := fun r => isTail blockSize p.scheduler p.cap r) hq (ht hcon)
    exact htails hf (tail_granted hcon hprot hf)
  | cons f rest =>
    have hfo := (offeredIn_iff hcon).mpr (protected_granted hcon hprot)
    have haged : f ∈ aged s p := protected_eq_aged (s := s) hc ▸ hprot ▸ List.mem_cons_self
    rcases head_filter_mem hq hprot with hfa | rfl | hfb
    · exact debt_step_of_ahead hqlen hq hoff hfa hfo
    · simp [hoff] at hfo
    rcases hsp with hnone | hall | ⟨g, hga, hg⟩ | ⟨t, rest', hf, hb, hi⟩
    · exact absurd haged (hnone f (hfound ▸ hfb))
    · have hmarked : ∀ l ∈ behind (planned s p).queue rid,
          isLong blockSize p.scheduler p.cap l = true → l ∈ (planned s p).deferredLong := by
        intro l hl hlong
        rw [planned_deferred s p hc, Finset.mem_filter]
        exact ⟨hall l (hfound ▸ hl) hlong, planned_of_long hlong⟩
      have hlong := (List.mem_filter.mp haged).2
      simp only [Bool.and_eq_true, decide_eq_true_eq] at hlong
      exact debt_step_of_behind hcon hq hoff hmarked hfb (hmarked f hfb hlong.2) hfo
    · refine debt_step_of_ahead hqlen hq hoff (head_filter_of_ahead hq hprot (hfound ▸ hga) ?_) hfo
      rw [isProtected_eq hc]
      exact (List.mem_filter.mp hg).2
    · exact htails (hfound ▸ hf) (roomy_granted hcon hf hb hi)

end Tail

/-- **A spared terminal tail is not starved**: while no pass can pass over an unmarked long request
behind it for a marked one there, it gets an offer within `n * n` passes of at most `n` requests. -/
theorem spared_tail_offered (h : List (Turn Rid blockSize)) (p₀ : Pass Rid blockSize)
    (w : List (Turn Rid blockSize)) (rid : Rid) (n : Nat)
    (hstay : ∀ p, .pass p ∈ .pass p₀ :: w → StaysTail rid p)
    (hplan : ∀ p, .pass p ∈ .pass p₀ :: w → (plannedIds p.scheduler).length ≤ n)
    (hspare : ∀ a p b, .pass p₀ :: w = a ++ .pass p :: b → Spares (after (h ++ a)) p rid)
    (hlen : n * n ≤ (.pass p₀ :: w).countP Turn.isPass) :
    ∃ a p b, .pass p₀ :: w = a ++ .pass p :: b ∧ a.countP Turn.isPass + 1 ≤ n * n ∧
      Offered (planned (after (h ++ a)) p) rid := by
  have hin₀ : (.pass p₀ : Turn Rid blockSize) ∈ .pass p₀ :: w := List.mem_cons_self
  obtain ⟨hc, hp, ht⟩ := hstay p₀ hin₀
  have hq := (mem_planned_queue (s := after h) hc).mpr hp
  have hqlen : (planned (after h) p₀).queue.length ≤ n := by
    rw [planned_queue _ p₀ hc]
    exact (length_refill_le p₀.ids_nodup (sound h).nodup).trans (hplan p₀ hin₀)
  have hpos := length_split hq
  have hmark : (markedBehind (planned (after h) p₀) rid).length ≤
      (behind (planned (after h) p₀).queue rid).length := List.length_filter_le _ _
  have hdebt : debt n (planned (after h) p₀) rid + 1 ≤ n * n := by
    have hmul : n * ((ahead (planned (after h) p₀).queue rid).length + 1) ≤ n * n :=
      Nat.mul_le_mul_left n (by omega)
    rw [Nat.mul_succ] at hmul
    unfold debt
    omega
  by_cases hn : Offered (planned (after h) p₀) rid
  · exact ⟨[], p₀, w, rfl, by simp; omega, by simpa using hn⟩
  have hlt := debt_step_lt (sound h) ⟨hc, hp, ht⟩ (hplan p₀ hin₀)
    (by simpa using hspare [] p₀ w rfl) hn
  rw [List.countP_cons_of_pos (by rfl)] at hlen
  obtain ⟨a, p, b, hw, ha, hd⟩ := offered_within rid
    (fun s => Sound s ∧ rid ∈ s.queue)
    (fun s p => StaysTail rid p ∧ (plannedIds p.scheduler).length ≤ n ∧ Spares s p rid)
    (fun s => debt n s rid) (s := step (after h) (.pass p₀))
    (fun s k hi => ⟨⟨⟨hi.1.nodup, hi.1.marked⟩, hi.2⟩, le_rfl⟩)
    (fun s p hi hg hn => by
      obtain ⟨hc, hp, -⟩ := hg.1
      refine ⟨⟨Sound.step_pass (hi.1.planned hc), ?_⟩,
        lt_of_lt_of_le (debt_step_lt hi.1 hg.1 hg.2.1 hg.2.2 hn) (debt_planned_le hi.1 hc hi.2 hp)⟩
      rw [step_pass_queue, mem_rotate, mem_planned_queue hc]
      exact hp)
    w ⟨Sound.step_pass ((sound h).planned hc), by rw [step_pass_queue, mem_rotate]; exact hq⟩
    (fun a p b hw => ⟨hstay p (by rw [hw]; simp), hplan p (by rw [hw]; simp), by
      have := hspare (.pass p₀ :: a) p b (by rw [hw, List.cons_append])
      rwa [after, run_append, run_cons] at this⟩)
    (by omega)
  refine ⟨.pass p₀ :: a, p, b, by rw [hw, List.cons_append], ?_, ?_⟩
  · rw [List.countP_cons_of_pos (by rfl)]; omega
  · rw [after, run_append, run_cons]; exact hd

/-- A pass of a long prefill and a short prompt that waits. Nothing can be admitted. -/
def joinPass : Pass Nat 2304 where
  scheduler := ⟨[⟨0, .running, 4608, 4608, 0, false, 0, 0, none, []⟩],
    [⟨1, .waiting, 100, 100, 0, false, 0, 0, none, []⟩], [], 4, 0, 4, 4, 8192, 8192⟩
  cap := 2304
  asked := fun _ => 0
  cap_valid := by decide
  ids_nodup := by decide

theorem joinPass_long {r : Nat} (h : isLong 2304 joinPass.scheduler joinPass.cap r = true) :
    r = 0 := by
  have hids : plannedIds joinPass.scheduler = [0, 1] := by decide
  have hr := planned_of_long h
  rw [hids] at hr
  rcases List.mem_pair.mp hr with rfl | rfl
  · rfl
  · exact absurd h (by decide)

/-- With one long request nobody is passed over for another. -/
theorem joinPass_spares (s : FairPrefill Nat) : Spares s joinPass 1 := by
  by_cases h : ∃ l ∈ behind (found s joinPass) 1, l ∈ aged s joinPass
  · obtain ⟨l, -, hl⟩ := h
    have hmarked := (List.mem_filter.mp hl).2
    simp only [Bool.and_eq_true, decide_eq_true_eq] at hmarked
    refine Or.inr (Or.inl fun l' _ hl' => ?_)
    rw [joinPass_long hl', ← joinPass_long hmarked.2]
    exact hmarked.1
  · exact Or.inl fun l hb hl => h ⟨l, hb, hl⟩

/-- The short prompt is offered its tokens within four passes of the two. -/
theorem joining_tail_offered :
    ∃ a p b, [.pass joinPass, .pass joinPass, .pass joinPass, .pass joinPass] = a ++ .pass p :: b ∧
      a.countP Turn.isPass + 1 ≤ 2 * 2 ∧ Offered (planned (after ([] ++ a)) p) 1 := by
  have hone : ∀ p, Turn.pass p ∈ [Turn.pass joinPass, .pass joinPass, .pass joinPass,
      .pass joinPass] → p = joinPass := fun p hp => by
    simpa only [List.mem_cons, List.not_mem_nil, or_false, or_self, Turn.pass.injEq] using hp
  refine spared_tail_offered [] joinPass [.pass joinPass, .pass joinPass, .pass joinPass] 1 2
    (fun p hp => ?_) (fun p hp => ?_) (fun a p b hw => ?_) (by decide)
  · rw [hone p hp]
    exact ⟨by decide, by decide, fun _ => by decide⟩
  · rw [hone p hp]
    decide
  · rw [hone p (hw ▸ List.mem_append_right _ List.mem_cons_self)]
    exact joinPass_spares _

/-! ### The starved tail

The counterexample is a run, for a number of turns that is given. `duel` is the state in closed form
at turn `j`, and `duel_step` shows that one pass leads from each to the next. The two prefills are
as long as the run needs.
-/

omit [DecidableEq Rid] in
/-- A budget that is used up grants nothing. -/
theorem allowanceFor_exhausted {bs draft : Nat} {r : Request Rid} {tokens scratch : Int}
    (h : tokens ≤ 0) : allowanceFor bs draft r tokens scratch ≤ 0 := by
  have hm : min (min tokens (scratch - draft)) (max 0 ((r.prefillEnd : Int) - r.numComputedTokens))
      ≤ 0 := (min_le_left _ _).trans ((min_le_left _ _).trans h)
  unfold allowanceFor
  simp only
  split
  · have := Int.ediv_mul_le (r.numComputedTokens + min (min tokens (scratch - draft))
      (max 0 ((r.prefillEnd : Int) - r.numComputedTokens))) (b := bs)
    by_cases hb : (bs : Int) = 0
    · simp only [hb, Int.ediv_zero, zero_mul]; omega
    · have := this hb
      omega
  · omega

theorem grants_exhausted {sch : Scheduler Rid} (order : List Rid) :
    ∀ {g : Ledger Rid}, g.budget ≤ 0 →
      (order.foldl (grantStep blockSize sch) g).grants = g.grants := by
  induction order with
  | nil => exact fun _ => rfl
  | cons r order ih =>
    intro g hg
    have hstep : grantStep blockSize sch g r = g := by
      unfold grantStep
      cases byId (prefills sch) r with
      | none => rfl
      | some req => exact if_pos (allowanceFor_exhausted hg)
    rw [List.foldl_cons, hstep, ih hg]

/-- **A head that takes the whole budget leaves nothing** for any other request. -/
theorem granted_of_exhausted {s : FairPrefill Rid} {p : Pass Rid blockSize} (h : p.Contended)
    {f : Rid} {rest : List Rid}
    (ho : offerOrder blockSize p.scheduler p.cap (planned s p).queue (planned s p).deferredLong =
      f :: rest)
    (hf : possible blockSize p.scheduler p.cap f = stepBudget p.scheduler p.cap)
    (hb : 0 < stepBudget p.scheduler p.cap) {rid : Rid} (hr : rid ≠ f) :
    granted (planned s p) rid ≤ 0 := by
  unfold granted
  rw [planned_grants s p h, ho, List.foldl_cons]
  unfold possible at hf
  cases hby : byId (prefills p.scheduler) f with
  | none => rw [hby] at hf; simp only at hf; omega
  | some req =>
    rw [hby] at hf
    have hall : allowanceFor blockSize p.scheduler.draftSlots req
      (openLedger p.scheduler p.cap).budget (openLedger p.scheduler p.cap).inputs =
        (openLedger p.scheduler p.cap).budget := hf
    rw [grantStep_served hby (by rw [hall]; exact hb), hall, grants_exhausted rest (by simp)]
    simp only [Function.update_of_ne hr]
    unfold openLedger
    simp only
    split <;> simp

section Duel

/-- A prefill of `m` blocks that has computed `b` of them. -/
def blockPrefill (rid m b : Nat) : Request Nat :=
  ⟨rid, .running, 2304 * m, 2304 * m, 2304 * b, false, 0, 0, none, []⟩

/-- A short prompt that waits. -/
def shortPrompt : Request Nat := ⟨2, .waiting, 100, 100, 0, false, 0, 0, none, []⟩

/-- Turn `j` of two long prefills that were served alternately, with `waiting` behind them. -/
def duel (m j : Nat) (waiting : List (Request Nat)) : Scheduler Nat :=
  ⟨[blockPrefill 0 m ((j + 1) / 2), blockPrefill 1 m (j / 2)], waiting, [], 4, 0, 4, 4, 8192, 8192⟩

variable {m j : Nat}

theorem isPrefilling_block {rid b : Nat} (h : b < m) :
    isPrefilling (blockPrefill rid m b) = true :=
  decide_eq_true (by simp only [Request.prefillEnd, blockPrefill]; omega)

theorem duel_running (h : j + 1 < m) (waiting : List (Request Nat)) :
    (duel m j waiting).running.filter isPrefilling = (duel m j waiting).running := by
  simp only [duel]
  rw [List.filter_cons_of_pos (isPrefilling_block (by omega)),
    List.filter_cons_of_pos (isPrefilling_block (by omega)), List.filter_nil]

theorem duel_decoders (h : j + 1 < m) (waiting : List (Request Nat)) :
    decoders (duel m j waiting) = [] := by
  unfold decoders
  simp only [duel]
  rw [List.filter_cons_of_neg (by simp [isPrefilling_block (show (j + 1) / 2 < m by omega)]),
    List.filter_cons_of_neg (by simp [isPrefilling_block (show j / 2 < m by omega)]),
    List.filter_nil]

theorem duel_prefills (h : j + 1 < m) :
    prefills (duel m j [shortPrompt]) =
      [blockPrefill 0 m ((j + 1) / 2), blockPrefill 1 m (j / 2), shortPrompt] := by
  unfold prefills
  rw [duel_running h]
  rfl

theorem duel_prefills_nil (h : j + 1 < m) :
    prefills (duel m j []) = [blockPrefill 0 m ((j + 1) / 2), blockPrefill 1 m (j / 2)] := by
  unfold prefills
  rw [duel_running h]
  rfl

theorem duel_budget (h : j + 1 < m) (waiting : List (Request Nat)) :
    stepBudget (duel m j waiting) 2304 = 2304 ∧ stepInputs (duel m j waiting) = 8192 := by
  unfold stepBudget stepInputs reservedFor
  rw [duel_decoders h]
  exact ⟨rfl, rfl⟩

theorem allowanceFor_block {x b : Nat} (h : b < m) :
    allowanceFor 2304 4 (blockPrefill x m b) 2304 8192 = 2304 := by
  simp only [allowanceFor, Request.prefillEnd, blockPrefill, Nat.cast_max, Nat.cast_mul]
  split <;> omega

/-- Turn `j` of the duel; the short prompt arrives after turn 0. -/
def duelPass (m j : Nat) : Pass Nat 2304 where
  scheduler := duel m j (if j = 0 then [] else [shortPrompt])
  cap := 2304
  asked := fun _ => 2304
  cap_valid := by decide
  ids_nodup := by
    have hsub :
        (plannedIds (duel m j (if j = 0 then [] else [shortPrompt]))).Sublist [0, 1, 2] := by
      have hw : (if j = 0 then [] else [shortPrompt]).Sublist [shortPrompt] := by
        split
        · exact List.nil_sublist _
        · exact List.Sublist.refl _
      exact ((List.filter_sublist (l := [blockPrefill 0 m ((j + 1) / 2),
        blockPrefill 1 m (j / 2)])).append ((List.take_sublist _ _).trans
          (List.filter_sublist.trans hw))).map _
    exact hsub.nodup (by decide)

theorem duelPass_prefills (h : j + 1 < m) :
    prefills (duelPass m j).scheduler =
      [blockPrefill 0 m ((j + 1) / 2), blockPrefill 1 m (j / 2)] ++
        if j = 0 then [] else [shortPrompt] := by
  unfold duelPass
  by_cases hj : j = 0
  · simp only [if_pos hj]
    exact duel_prefills_nil h
  · simp only [if_neg hj]
    exact duel_prefills h

theorem duelPass_ids (h : j + 1 < m) :
    plannedIds (duelPass m j).scheduler = if j = 0 then [0, 1] else [0, 1, 2] := by
  unfold plannedIds
  rw [duelPass_prefills h]
  split <;> rfl

theorem duelPass_contended (h : j + 1 < m) : (duelPass m j).Contended := by
  refine ⟨show (2304 : Nat) ≠ 0 by decide, ?_⟩
  unfold solo
  rw [duelPass_prefills h]
  simp

theorem duelPass_budget (h : j + 1 < m) :
    stepBudget (duelPass m j).scheduler 2304 = 2304 ∧
      stepInputs (duelPass m j).scheduler = 8192 :=
  duel_budget h _

/-- Either long prefill could take the whole budget. -/
theorem possible_duel (h : j + 1 < m) {x : Nat} (hx : x = 0 ∨ x = 1) :
    possible 2304 (duelPass m j).scheduler 2304 x = 2304 := by
  have hid : byId (prefills (duelPass m j).scheduler) x =
      some (blockPrefill x m (if x = 0 then (j + 1) / 2 else j / 2)) := by
    rw [duelPass_prefills h]
    rcases hx with rfl | rfl <;> split <;> rfl
  unfold possible
  rw [hid, (duelPass_budget h).1, (duelPass_budget h).2]
  exact allowanceFor_block (by split <;> omega)

theorem isTail_duel (hj : j ≠ 0) (h : j + 1 < m) :
    isTail 2304 (duelPass m j).scheduler 2304 2 = true := by
  have hid : byId (prefills (duelPass m j).scheduler) 2 = some shortPrompt := by
    rw [duelPass_prefills h, if_neg hj]
    rfl
  unfold isTail possible
  rw [hid, (duelPass_budget h).1, (duelPass_budget h).2]
  rfl

theorem not_isTail_duel (h : j + 1 < m) {x : Nat} (hx : x = 0 ∨ x = 1) :
    isTail 2304 (duelPass m j).scheduler 2304 x = false := by
  rw [← Bool.not_eq_true]
  intro ht
  have hposs := possible_duel h hx
  unfold isTail at ht
  split at ht
  · simp only [Bool.and_eq_true, decide_eq_true_eq, beq_iff_eq] at ht
    omega
  · exact absurd ht (by simp)

theorem isLong_duel (h : j + 1 < m) {x : Nat} :
    isLong 2304 (duelPass m j).scheduler 2304 x = true ↔ x = 0 ∨ x = 1 := by
  constructor
  · intro hl
    have hx := planned_of_long hl
    rw [duelPass_ids h] at hx
    by_cases hj : j = 0
    · simpa [hj] using hx
    · simp only [hj, if_false, List.mem_cons, List.not_mem_nil, or_false] at hx
      rcases hx with rfl | rfl | rfl
      · exact Or.inl rfl
      · exact Or.inr rfl
      · simp [isLong, isTail_duel hj h] at hl
  · intro hx
    simp [isLong, not_isTail_duel h hx, possible_duel h hx]

/-- A duelist at the head of the order is all that a turn of the duel serves. -/
theorem duel_offered {s : FairPrefill Nat} (h : j + 1 < m) {f : Nat} {rest : List Nat}
    (hf : f = 0 ∨ f = 1)
    (ho : offerOrder 2304 (duelPass m j).scheduler (duelPass m j).cap
      (planned s (duelPass m j)).queue (planned s (duelPass m j)).deferredLong = f :: rest)
    (r : Nat) : offeredIn s (duelPass m j) r = true ↔ r = f := by
  have hcon := duelPass_contended h
  have hbudget : stepBudget (duelPass m j).scheduler (duelPass m j).cap = 2304 :=
    (duelPass_budget h).1
  have hposs : possible 2304 (duelPass m j).scheduler (duelPass m j).cap f = 2304 :=
    possible_duel h hf
  rw [offeredIn_iff hcon]
  constructor
  · intro hg
    by_contra hr
    have := granted_of_exhausted hcon ho (by rw [hbudget, hposs]) (by rw [hbudget]; decide) hr
    omega
  · rintro rfl
    exact granted_head hcon ho (by rw [hposs]; decide)

/-- The opening turn serves the first prefill and marks the second. -/
theorem duel_opening (h : 1 < m) :
    (step FairPrefill.init (.pass (duelPass m 0))).deferredLong = {1} := by
  have hcon := duelPass_contended (j := 0) h
  have hq : (planned FairPrefill.init (duelPass m 0)).queue = [0, 1] := by
    rw [planned_queue _ _ hcon.1, duelPass_ids h]
    rfl
  have hd : (planned FairPrefill.init (duelPass m 0)).deferredLong = ∅ := by
    rw [planned_deferred _ _ hcon.1]
    rfl
  have ho : offerOrder 2304 (duelPass m 0).scheduler (duelPass m 0).cap
      (planned FairPrefill.init (duelPass m 0)).queue
      (planned FairPrefill.init (duelPass m 0)).deferredLong = [0, 1] := by
    have ht : ([0, 1].filter fun rid => isTail 2304 (duelPass m 0).scheduler 2304 rid) = [] := by
      simp [not_isTail_duel (j := 0) h]
    rw [hq, hd]
    unfold offerOrder
    rw [show (duelPass m 0).cap = 2304 from rfl, ht]
    rfl
  ext r
  rw [mem_step_pass_deferred, duel_offered h (Or.inl rfl) ho, planned_eligible _ _ hcon, hd, hq,
    show (duelPass m 0).cap = 2304 from rfl, isLong_duel h]
  simp only [Finset.notMem_empty, Finset.mem_singleton, List.mem_cons, List.not_mem_nil, or_false,
    false_or]
  omega

/-- **One turn of the duel**: the marked prefill takes the budget, the other one gets the mark, and
the short prompt gets nothing. -/
theorem duel_step {s : FairPrefill Nat} (hj : j ≠ 0) (h : j + 1 < m) {x y : Nat}
    (hxy : x = 0 ∧ y = 1 ∨ x = 1 ∧ y = 0) (hd : s.deferredLong = {x}) :
    ¬ Offered (planned s (duelPass m j)) 2 ∧
      (step s (.pass (duelPass m j))).deferredLong = {y} := by
  have hcon := duelPass_contended h
  have hids : ∀ r, r ∈ plannedIds (duelPass m j).scheduler ↔ r = 0 ∨ r = 1 ∨ r = 2 := by
    intro r
    rw [duelPass_ids h, if_neg hj]
    simp
  have hdp : ∀ r, r ∈ (planned s (duelPass m j)).deferredLong ↔ r = x := by
    intro r
    rw [planned_deferred s _ hcon.1, hd, Finset.mem_filter, Finset.mem_singleton, hids]
    omega
  have hqx : x ∈ (planned s (duelPass m j)).queue := by
    rw [mem_planned_queue hcon.1, hids]
    omega
  have hprot : isProtected s (duelPass m j) x = true := by
    simp only [isProtected, hdp, Bool.and_eq_true, decide_true, true_and]
    exact (isLong_duel h).mpr (by omega)
  obtain ⟨f, rest, hf, -⟩ := head_filter_ahead hqx hprot
  have hfx : f = x := by
    have := (List.mem_filter.mp (hf ▸ List.mem_cons_self :
      f ∈ (planned s (duelPass m j)).queue.filter (isProtected s (duelPass m j)))).2
    simp only [isProtected, hdp, Bool.and_eq_true, decide_eq_true_eq] at this
    exact this.1
  subst hfx
  obtain ⟨rest', ho⟩ := offerOrder_protected hf
  have hoff := duel_offered h (by omega) ho
  refine ⟨?_, ?_⟩
  · rintro (hg | hg)
    · rw [planned_grants s _ hcon] at hg
      exact absurd hg (by simp)
    · have := (hoff 2).mp ((offeredIn_iff hcon).mpr hg)
      omega
  · ext r
    rw [mem_step_pass_deferred, Finset.mem_singleton, hoff, hdp, planned_eligible s _ hcon,
      mem_planned_queue hcon.1, hids, show (duelPass m j).cap = 2304 from rfl, isLong_duel h]
    omega

/-- The first `i` turns of the duel. -/
def duelRun (m i : Nat) : List (Turn Nat 2304) :=
  (List.range i).map fun j => .pass (duelPass m j)

/-- The mark alternates. -/
theorem duelRun_marked : ∀ {i : Nat}, i + 1 < m → (after (duelRun m (i + 1))).deferredLong =
    {(i + 1) % 2}
  | 0, h => duel_opening h
  | i + 1, h => by
    have hrun : duelRun m (i + 1 + 1) = duelRun m (i + 1) ++ [.pass (duelPass m (i + 1))] := by
      unfold duelRun
      rw [List.range_succ, List.map_append, List.map_singleton]
    rw [hrun, after, run_snoc]
    exact (duel_step (by omega) h (by omega) (duelRun_marked (by omega))).2

/-- What a turn of the duel comes after. -/
theorem duelRun_split {i : Nat} {a b : List (Turn Nat 2304)} {p : Pass Nat 2304}
    (h : duelRun m i = a ++ .pass p :: b) :
    a = duelRun m a.length ∧ p = duelPass m a.length ∧ a.length < i := by
  have hlen : i = a.length + (1 + b.length) := by
    have := congrArg List.length h
    simp only [duelRun, List.length_map, List.length_range, List.length_append,
      List.length_cons] at this
    omega
  have hcut : duelRun m i = duelRun m a.length ++
      ((List.range (1 + b.length)).map fun j => .pass (duelPass m (a.length + j))) := by
    unfold duelRun
    rw [hlen, List.range_add, List.map_append, List.map_map]
    rfl
  rw [hcut] at h
  obtain ⟨ha, hp⟩ := List.append_inj h (by simp [duelRun])
  rw [Nat.add_comm, List.range_succ_eq_map, List.map_cons] at hp
  exact ⟨ha.symm, (Turn.pass.inj (List.cons.inj hp).1).symm, by omega⟩

/-- Throughout the duel the short prompt gets nothing. -/
theorem duelRun_starves {i : Nat} (hi : i ≠ 0) (h : i + 1 < m) :
    ¬ Offered (planned (after (duelRun m i)) (duelPass m i)) 2 := by
  obtain ⟨i, rfl⟩ := Nat.exists_eq_succ_of_ne_zero hi
  exact (duel_step (by omega) h (y := (i + 2) % 2) (by omega)
    (duelRun_marked (by omega))).1

end Duel

/-- **Two marked long requests starve a tail**: no bound in the number of planned requests holds on
every run. Three requests are planned, two long prefills take turns, and the short prompt waits. -/
theorem tail_starves :
    ¬ ∃ bound : Nat → Nat, ∀ (h : List (Turn Nat 2304)) (p₀ : Pass Nat 2304)
      (w : List (Turn Nat 2304)) (rid n : Nat),
      (∀ p, .pass p ∈ .pass p₀ :: w → StaysTail rid p) →
      (∀ p, .pass p ∈ .pass p₀ :: w → (plannedIds p.scheduler).length ≤ n) →
      bound n ≤ (.pass p₀ :: w).countP Turn.isPass →
      ∃ a p b, .pass p₀ :: w = a ++ .pass p :: b ∧ Offered (planned (after (h ++ a)) p) rid := by
  rintro ⟨bound, hbound⟩
  let k := bound 3
  let m := k + 4
  let w : List (Turn Nat 2304) := (List.range k).map fun j => .pass (duelPass m (j + 2))
  have hall : duelRun m 1 ++ .pass (duelPass m 1) :: w = duelRun m (k + 2) := by
    simp only [duelRun, w, List.range_succ_eq_map, List.map_cons, List.map_map]
    rfl
  have hin : ∀ p, .pass p ∈ .pass (duelPass m 1) :: w → ∃ j, j ≠ 0 ∧ j + 1 < m ∧
      p = duelPass m j := by
    intro p hp
    rcases List.mem_cons.mp hp with hp | hp
    · exact ⟨1, by omega, by omega, Turn.pass.inj hp⟩
    · obtain ⟨j, hj, hpj⟩ := List.mem_map.mp hp
      rw [List.mem_range] at hj
      exact ⟨j + 2, by omega, by omega, (Turn.pass.inj hpj).symm⟩
  obtain ⟨a, p, b, hw, ho⟩ := hbound (duelRun m 1) (duelPass m 1) w 2 3
    (fun p hp => by
      obtain ⟨j, hj, hjm, rfl⟩ := hin p hp
      refine ⟨(duelPass_contended hjm).1, ?_, fun _ => isTail_duel hj hjm⟩
      rw [duelPass_ids hjm, if_neg hj]
      decide)
    (fun p hp => by
      obtain ⟨j, hj, hjm, rfl⟩ := hin p hp
      rw [duelPass_ids hjm, if_neg hj]
      decide)
    (by
      have : w.countP Turn.isPass = k := by
        rw [List.countP_eq_length.mpr, List.length_map, List.length_range]
        intro t ht
        obtain ⟨j, -, rfl⟩ := List.mem_map.mp ht
        rfl
      rw [List.countP_cons_of_pos (by rfl), this]
      omega)
  obtain ⟨hpre, hp, hlen⟩ := duelRun_split (m := m) (i := k + 2) (a := duelRun m 1 ++ a) (p := p)
    (b := b) (by rw [← hall, hw, List.append_assoc])
  rw [hpre, hp] at ho
  refine duelRun_starves ?_ (by omega) ho
  simp [duelRun]

end Ringside.Speedup.Fair

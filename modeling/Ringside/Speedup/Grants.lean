import Mathlib.Algebra.BigOperators.Group.Finset.Basic
import Mathlib.Algebra.Order.BigOperators.Group.Finset
import Ringside.Speedup.FairPrefill

/-!
# The budgets of fair prefill grants (`FairPrefill.plan`, `glm53_speedup/fair_prefill.py`)

The grant loop cuts every offer by the token budget and the input slots that the offers before it
left. What was spent and what is left never exceed what the pass started with, whatever the order of
the offers.

* `planCall` is a call of `plan` with the scheduler it was given, to say that the scheduler is as it
  was.
* `Account`: the invariant of the ledger along the order. What is left may be negative only while
  nothing was granted: the decoders alone can overdraw a pass.
* `GrantsSafe`: what the grants of a pass keep to: tokens, input slots with the draft slots, and
  chunks that end a prefill or end on a block boundary.
* Nothing is assumed of the planner's memory, the cap or the scheduler.

Results:
* `allowanceFor_pos`: what a positive allowance keeps to.
* `account_step`, `account_order`: one offer and the whole order keep the account.
* `grants_progress`: some offer is granted when the full budget allows one.
* `plan_grants_safe`: whatever the planner remembers, its grants are safe and the scheduler is as it
  was.
-/

namespace Ringside.Speedup.Fair

variable {Rid : Type} [DecidableEq Rid] {blockSize : Nat}

/-- A call of `plan`: the planner and the scheduler after it. -/
def planCall (blockSize : Nat) (s : FairPrefill Rid) (sch : Scheduler Rid) (cap : Nat) :
    Except String (FairPrefill Rid × Scheduler Rid) :=
  if !validCap blockSize cap then throw "fair prefill cap must be a multiple of the KDA block size"
  else return (plan blockSize s sch cap, sch)

/-! ## What grants cost -/

/-- The cost of the grants of a pass. -/
def spent (cost : Int → Int) (sch : Scheduler Rid) (grants : Rid → Option Int) : Int :=
  ∑ rid ∈ (plannedIds sch).toFinset, cost ((grants rid).getD 0)

/-- The input slots of a grant: its tokens and its draft slots. -/
def slotCost (sch : Scheduler Rid) (n : Int) : Int := if 0 < n then n + sch.draftSlots else 0

omit [DecidableEq Rid] in
theorem slotCost_nonneg {sch : Scheduler Rid} (n : Int) : 0 ≤ slotCost sch n := by
  unfold slotCost
  split <;> omega

/-- A grant costs at most what it adds. -/
theorem spent_update {cost : Int → Int} {sch : Scheduler Rid}
    {grants : Rid → Option Int} {rid : Rid}
    (hmem : rid ∈ plannedIds sch) (hold : 0 ≤ cost ((grants rid).getD 0)) (n : Int) :
    spent cost sch (Function.update grants rid (some n)) ≤ spent cost sch grants + cost n := by
  have hmem' : rid ∈ (plannedIds sch).toFinset := List.mem_toFinset.mpr hmem
  unfold spent
  rw [← Finset.add_sum_erase _ _ hmem', ← Finset.add_sum_erase _ _ hmem', Function.update_self]
  have hrest : ∑ q ∈ (plannedIds sch).toFinset.erase rid,
    cost ((Function.update grants rid (some n) q).getD 0) =
      ∑ q ∈ (plannedIds sch).toFinset.erase rid, cost ((grants q).getD 0) := by
    refine Finset.sum_congr rfl fun q hq => ?_
    rw [Function.update_of_ne (Finset.ne_of_mem_erase hq)]
  rw [hrest, Option.getD_some]
  omega

theorem spent_open {cost : Int → Int} (hzero : cost 0 = 0) {sch : Scheduler Rid} {cap : Nat} :
    spent cost sch (openLedger sch cap).grants = 0 := by
  refine Finset.sum_eq_zero fun rid _ => ?_
  have : ((openLedger sch cap).grants rid).getD 0 = 0 := by
    unfold openLedger
    dsimp only
    split <;> rfl
  rw [this, hzero]

/-! ## One allowance -/

/-- The chunk of `n` tokens stays in the prefill, and ends it or ends on a block boundary. -/
def Fits (blockSize : Nat) (r : Request Rid) (n : Int) : Prop :=
  r.numComputedTokens + n ≤ r.prefillEnd ∧
    (r.numComputedTokens + n = r.prefillEnd ∨ (blockSize : Int) ∣ r.numComputedTokens + n)

section Allowance

omit [DecidableEq Rid]

variable {draftSlots : Nat} {r : Request Rid} {tokens scratch : Int}

/-- **What a positive allowance keeps to**: the tokens, the scratch with its draft slots, and the
chunk. -/
theorem allowanceFor_pos (h : 0 < allowanceFor blockSize draftSlots r tokens scratch) :
    allowanceFor blockSize draftSlots r tokens scratch ≤ tokens ∧
      allowanceFor blockSize draftSlots r tokens scratch + draftSlots ≤ scratch ∧
      Fits blockSize r (allowanceFor blockSize draftSlots r tokens scratch) := by
  unfold Fits
  unfold allowanceFor at h ⊢
  dsimp only at h ⊢
  have hcut : min (min tokens (scratch - draftSlots))
    (max 0 ((r.prefillEnd : Int) - r.numComputedTokens)) ≤ tokens ∧
      min (min tokens (scratch - draftSlots)) (max 0 ((r.prefillEnd : Int) - r.numComputedTokens)) ≤
        scratch - draftSlots :=
    ⟨(min_le_left _ _).trans (min_le_left _ _), (min_le_left _ _).trans (min_le_right _ _)⟩
  have hstop : min (min tokens (scratch - draftSlots))
    (max 0 ((r.prefillEnd : Int) - r.numComputedTokens)) ≤
      max 0 ((r.prefillEnd : Int) - r.numComputedTokens) := min_le_right _ _
  generalize min (min tokens (scratch - draftSlots))
    (max 0 ((r.prefillEnd : Int) - r.numComputedTokens)) = a at *
  split_ifs at h ⊢ with hin
  · -- an internal chunk is rounded down to the block boundary
    have hfloor : (r.numComputedTokens + a) / (blockSize : Int) * blockSize ≤
      r.numComputedTokens + a := by
      rcases Nat.eq_zero_or_pos blockSize with rfl | hpos
      · simp only [Nat.cast_zero, mul_zero] at h ⊢
        omega
      · exact Int.ediv_mul_le _ (by omega)
    have hdvd : (blockSize : Int) ∣ (r.numComputedTokens + a) / (blockSize : Int) * blockSize :=
      Int.dvd_mul_left _ _
    generalize (r.numComputedTokens + a) / (blockSize : Int) * blockSize = x at *
    rw [max_eq_right (by omega)] at h ⊢
    refine ⟨by omega, by omega, by omega, Or.inr ?_⟩
    rw [show (r.numComputedTokens : Int) + (x - r.numComputedTokens) = x by omega]
    exact hdvd
  · rw [max_eq_right (by omega)] at h ⊢
    exact ⟨by omega, by omega, by omega, Or.inl (by omega)⟩

end Allowance

/-! ## The account -/

theorem byId_mem {requests : List (Request Rid)} {rid : Rid} {r : Request Rid}
    (h : byId requests rid = some r) :
    r ∈ requests ∧ r.requestId = rid := by
  have hid := List.find?_some h
  exact ⟨List.mem_reverse.mp (List.mem_of_find?_eq_some h), of_decide_eq_true hid⟩

theorem mem_plannedIds {sch : Scheduler Rid} {rid : Rid} {r : Request Rid}
    (h : byId (prefills sch) rid = some r) :
    rid ∈ plannedIds sch := List.mem_map.mpr ⟨r, byId_mem h⟩

/-- A request that the budget left allows nothing is passed over. -/
theorem grantStep_passed {sch : Scheduler Rid} {g : Ledger Rid} {rid : Rid} {r : Request Rid}
    (hr : byId (prefills sch) rid = some r)
    (ha : allowanceFor blockSize sch.draftSlots r g.budget g.inputs ≤ 0) :
      grantStep blockSize sch g rid = g := by
  unfold grantStep
  rw [hr]
  exact if_pos ha

/-- **The account of a ledger**: what is spent and what is left do not exceed what the pass started
with, and what is left is negative only while nothing is spent. -/
structure Account (blockSize : Nat) (sch : Scheduler Rid) (cap : Nat) (g : Ledger Rid) : Prop where
  planned : ∀ rid, (g.grants rid).isSome ↔ rid ∈ plannedIds sch
  nonneg : ∀ rid, 0 ≤ (g.grants rid).getD 0
  budget : spent id sch g.grants + g.budget ≤ stepBudget sch cap
  budget_left : g.budget = stepBudget sch cap ∨ 0 ≤ g.budget
  inputs : spent (slotCost sch) sch g.grants + g.inputs ≤ stepInputs sch
  inputs_left : g.inputs = stepInputs sch ∨ 0 ≤ g.inputs
  fits : ∀ rid r, byId (prefills sch) rid = some r → 0 < (g.grants rid).getD 0 →
    Fits blockSize r ((g.grants rid).getD 0)

section Account

variable {sch : Scheduler Rid} {cap : Nat}

theorem account_open : Account blockSize sch cap (openLedger sch cap) where
  planned rid := by
    unfold openLedger
    dsimp only
    split <;> simp [*]
  nonneg rid := by
    unfold openLedger
    dsimp only
    split <;> rfl
  budget := by rw [spent_open rfl, zero_add]; rfl
  budget_left := Or.inl rfl
  inputs := by rw [spent_open rfl, zero_add]; rfl
  inputs_left := Or.inl rfl
  fits rid r _ h := by
    unfold openLedger at h
    dsimp only at h
    split at h <;> exact absurd h (lt_irrefl 0)

/-- **One offer keeps the account.** -/
theorem account_step {g : Ledger Rid} (hg : Account blockSize sch cap g) (rid : Rid) :
    Account blockSize sch cap (grantStep blockSize sch g rid) := by
  cases hr : byId (prefills sch) rid with
  | none =>
    unfold grantStep
    rw [hr]
    exact hg
  | some r =>
    by_cases ha : allowanceFor blockSize sch.draftSlots r g.budget g.inputs ≤ 0
    · rw [grantStep_passed hr ha]
      exact hg
    rw [grantStep_served hr (not_le.mp ha)]
    obtain ⟨htokens, hscratch, hfits⟩ := allowanceFor_pos (not_le.mp ha)
    generalize allowanceFor blockSize sch.draftSlots r g.budget g.inputs = n at *
    have hmem := mem_plannedIds hr
    have hslots : slotCost sch n = n + sch.draftSlots := if_pos (not_le.mp ha)
    constructor
    · intro q
      by_cases hq : q = rid
      · rw [hq]
        simpa only [Function.update_self, Option.isSome_some, true_iff] using hmem
      · simpa only [Function.update_of_ne hq] using hg.planned q
    · intro q
      by_cases hq : q = rid
      · rw [hq]
        simp only [Function.update_self, Option.getD_some]
        omega
      · simpa only [Function.update_of_ne hq] using hg.nonneg q
    · have h1 := @spent_update _ _ id _ _ _ hmem (hg.nonneg rid) n
      have h2 := hg.budget
      simp only [id_eq] at h1
      dsimp only
      omega
    · right
      dsimp only
      omega
    · have h1 := @spent_update _ _ (slotCost sch) _ g.grants _ hmem (slotCost_nonneg _) n
      have h2 := hg.inputs
      dsimp only
      omega
    · right
      dsimp only
      omega
    · intro q req hq hpos
      by_cases hqr : q = rid
      · rw [hqr, hr] at hq
        rw [← Option.some.inj hq, hqr]
        simpa only [Function.update_self, Option.getD_some] using hfits
      · simp only [Function.update_of_ne hqr] at hpos ⊢
        exact hg.fits q req hq hpos

/-- **So does the whole order**, whatever it is. -/
theorem account_order (order : List Rid) : ∀ {g : Ledger Rid}, Account blockSize sch cap g →
    Account blockSize sch cap (order.foldl (grantStep blockSize sch) g) := by
  induction order with
  | nil => exact fun hg => hg
  | cons rid order ih => exact fun hg => ih (account_step hg rid)

theorem possible_eq {rid : Rid} {r : Request Rid} (hr : byId (prefills sch) rid = some r) :
    possible blockSize sch cap rid =
      allowanceFor blockSize sch.draftSlots r (openLedger sch cap).budget
        (openLedger sch cap).inputs := by
  unfold possible
  rw [hr]
  rfl

/-- **Some offer is granted** when the full budget allows one of the order something: what comes
before it is granted, or leaves the budget whole. -/
theorem grants_progress (order : List Rid) {rid : Rid} (hmem : rid ∈ order)
    (hp : 0 < possible blockSize sch cap rid) :
    ∃ q, 0 < ((order.foldl (grantStep blockSize sch) (openLedger sch cap)).grants q).getD 0 := by
  induction order with
  | nil => exact absurd hmem List.not_mem_nil
  | cons f order ih =>
    rw [List.foldl_cons]
    by_cases hf : 0 < possible blockSize sch cap f
    · refine ⟨f, grants_pos order ?_⟩
      cases hr : byId (prefills sch) f with
      | none =>
        simp only [possible, hr] at hf
        exact absurd hf (lt_irrefl 0)
      | some r =>
        rw [possible_eq hr] at hf
        rw [grantStep_served hr hf]
        simpa only [Function.update_self, Option.getD_some] using hf
    · -- nothing for `f`: the ledger is as it was opened
      have hsame : grantStep blockSize sch (openLedger sch cap) f = openLedger sch cap := by
        cases hr : byId (prefills sch) f with
        | none =>
          unfold grantStep
          rw [hr]
        | some r =>
          rw [possible_eq hr] at hf
          exact grantStep_passed hr (not_lt.mp hf)
      rw [hsame]
      refine ih ((List.mem_cons.mp hmem).resolve_left fun he => ?_)
      exact hf (he ▸ hp)

end Account

/-! ## The pass -/

/-- The grants of a pass are safe. A budget that the decoders overdraw leaves nothing. -/
structure GrantsSafe (blockSize : Nat) (sch : Scheduler Rid) (cap : Nat)
    (grants : Rid → Option Int) : Prop where
  planned : ∀ rid, (grants rid).isSome ↔ rid ∈ plannedIds sch
  nonneg : ∀ rid, 0 ≤ (grants rid).getD 0
  within_cap : spent id sch grants ≤ cap
  within_budget : spent id sch grants ≤ max 0 (sch.maxNumScheduledTokens - reservedFor sch)
  within_inputs : spent (slotCost sch) sch grants ≤
    max 0 (sch.maxNumBatchedTokens - reservedFor sch - (decoders sch).length * sch.draftSlots)
  chunk : ∀ rid r, byId (prefills sch) rid = some r → 0 < (grants rid).getD 0 →
    Fits blockSize r ((grants rid).getD 0)
  progress : (∃ rid, 0 < possible blockSize sch cap rid) → ∃ rid, 0 < (grants rid).getD 0

theorem mem_planned_of_possible {sch : Scheduler Rid} {cap : Nat} {rid : Rid}
    (h : 0 < possible blockSize sch cap rid) :
    rid ∈ plannedIds sch := by
  unfold possible at h
  cases hr : byId (prefills sch) rid with
  | none =>
    rw [hr] at h
    exact absurd h (lt_irrefl 0)
  | some r => exact mem_plannedIds hr

/-- Every request of the queue gets its turn. -/
theorem mem_offerOrder {sch : Scheduler Rid} {cap : Nat} {queue : List Rid}
    {deferredLong : Finset Rid} {rid : Rid} (h : rid ∈ queue) :
    rid ∈ offerOrder blockSize sch cap queue deferredLong := by
  unfold offerOrder
  dsimp only
  rw [List.mem_append, List.mem_filter]
  by_cases hp : rid ∈ (queue.filter fun rid => rid ∈ deferredLong &&
    isLong blockSize sch cap rid) ++ queue.filter fun rid => isTail blockSize sch cap rid
  · exact Or.inl hp
  · exact Or.inr ⟨h, decide_eq_true hp⟩

/-- A ledger whose account holds grants safely. -/
theorem Account.safe {sch : Scheduler Rid} {cap : Nat} {g : Ledger Rid}
    (hg : Account blockSize sch cap g)
    (hprogress : (∃ rid, 0 < possible blockSize sch cap rid) → ∃ rid, 0 < (g.grants rid).getD 0) :
    GrantsSafe blockSize sch cap g.grants := by
  have hbudget : spent id sch g.grants ≤ max 0 (stepBudget sch cap) := by
    have := hg.budget
    rcases hg.budget_left with he | he <;> omega
  have hinputs : spent (slotCost sch) sch g.grants ≤ max 0 (stepInputs sch) := by
    have := hg.inputs
    rcases hg.inputs_left with he | he <;> omega
  have hcap : stepBudget sch cap ≤ cap := min_le_left _ _
  have hslots : stepInputs sch =
      sch.maxNumBatchedTokens - reservedFor sch - (decoders sch).length * sch.draftSlots := by
    unfold stepInputs
    omega
  exact
    { planned := hg.planned
      nonneg := hg.nonneg
      within_cap := hbudget.trans (max_le (Int.natCast_nonneg _) hcap)
      within_budget := hbudget.trans (max_le_max_left 0 (min_le_right _ _))
      within_inputs := hslots ▸ hinputs
      chunk := hg.fits
      progress := hprogress }

/-- **The grants of a pass are safe, and the scheduler is as it was**: for every scheduler, cap and
memory of the planner. -/
theorem plan_grants_safe {s s' : FairPrefill Rid} {sch sch' : Scheduler Rid} {cap : Nat}
    (h : planCall blockSize s sch cap = .ok (s', sch')) :
    sch'.running = sch.running ∧ sch' = sch ∧ ∀ grants, s'.grants = some grants →
      GrantsSafe blockSize sch cap grants := by
  unfold planCall at h
  split_ifs at h
  cases h
  refine ⟨rfl, rfl, fun grants hgrants => ?_⟩
  unfold plan at hgrants
  split_ifs at hgrants
  rw [← Option.some.inj hgrants]
  refine (account_order _ account_open).safe ?_
  rintro ⟨rid, hp⟩
  exact grants_progress _ (mem_offerOrder (Queue.mem_refill.mpr (mem_planned_of_possible hp))) hp

/-- A crowd of prefills shares a pass. -/
theorem crowd_grants_safe : ∃ grants,
    (plan 4 FairPrefill.init crowdPass.scheduler crowdPass.cap).grants = some grants ∧
    GrantsSafe 4 crowdPass.scheduler crowdPass.cap grants :=
  ⟨_, rfl, (@plan_grants_safe _ _ 4 FairPrefill.init _ crowdPass.scheduler _ crowdPass.cap
    rfl).2.2 _ rfl⟩

end Ringside.Speedup.Fair

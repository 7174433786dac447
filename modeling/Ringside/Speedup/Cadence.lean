import Ringside.Run
import Ringside.Speedup.Request

/-!
# The split cadence repays its decoders (`SplitCadence`, `glm53_speedup/cadence.py`)

A turn is one scheduling pass: `begin` chooses between a mixed turn, a prefill-only offer and a
decode-only turn, the scheduler schedules what the offer allows, and `observe` sees the counts. Two
selectors, off by default and exclusive, let newly started decoders take a turn that would otherwise
be a prefill-only offer.

* `begin` is its two parts, `refresh` (who is owed what) and `chooseOffer` (what the turn offers).
  `limit` and `deferred` are what the scheduler asks of an offer while it schedules.
* The selectors are module constants; they are a parameter `sel`, validated at boot.
* `burst_owed` is a dictionary: `burstOwed` is its key set and `burstCount` its values.
* The scheduler, the cap and the counts of a turn are arbitrary (`Turn`): that the counts keep to
  the offer is not assumed. Requests come and go between turns.
* `BaseCadence` is the cadence without the selectors, for the last part of the main theorem.

Results:
* `owed_persists`: a decoder owed a decode turn stays owed until it gets one or stops decoding.
* `debt_or_served`: with the first-token selector on, every running decoder is in debt or has been
  served since it appeared.
* `burst_inv`: the run counter dominates the converted turns since the last offer, and a decoder's
  own counter those since it appeared.
* `limit_eq`, `begin_deferred`: what an offer lets the scheduler schedule.
* `split_cadence_repays` assembles the first three.

Out of scope: how `SchedulerBridge` applies an offer to vLLM's loop, and the log.
-/

namespace Ringside.Speedup.Cadence

open Ringside.Run

variable {Rid : Type} [DecidableEq Rid]

/-! ## The controller -/

/-- `THINK_START`. -/
def THINK_START : Nat := 154841

/-- `THINK_END`. -/
def THINK_END : Nat := 154842

/-- `_MAX_BURST`. -/
def MAX_BURST : Nat := 16

/-- The two selectors, with the checks the module makes when it is imported. -/
structure Selectors where
  firstTokenRepay : Bool
  firstContentBurst : Nat
  burst_le : firstContentBurst ≤ MAX_BURST
  exclusive : ¬ (firstContentBurst ≠ 0 ∧ firstTokenRepay = true)

/-- `_thinking`. -/
def thinking (r : Request Rid) : Bool :=
  match r.promptTokenIds with
  | some ids => ids.getLast? == some THINK_START
  | none => false

/-- `_has_content`: a token after the first `</think>`. -/
def hasContent (r : Request Rid) : Bool :=
  match r.outputTokenIds.findIdx? (· == THINK_END) with
  | some i => i < r.outputTokenIds.length - 1
  | none => false

inductive Phase where
  | mixedFallback
  | decode
  | prefill
  deriving DecidableEq, Repr

inductive Reason where
  | initial
  | noEligibleRunningPair
  | repayPrefillOffer
  | firstTokenRepay
  | firstContentBurst
  | oneKnownNonfinalRunningPrefill
  deriving DecidableEq, Repr

/-- What a turn offers: `phase`, `reason`, `allowed` and the prefill it names. -/
structure Offer (Rid : Type) where
  phase : Phase
  reason : Reason
  allowed : Option (Finset Rid)
  prefillId : Option Rid
  prefillStart : Option Nat
  prefillEnd : Option Nat

/-- The fields of `SplitCadence`. -/
structure SplitCadence (Rid : Type) where
  owedDecode : Finset Rid
  offer : Offer Rid
  decoderIds : Finset Rid
  knownDecoders : Finset Rid
  firstDebt : Finset Rid
  burstOwed : Finset Rid
  burstCount : Rid → Nat
  burstRun : Nat

/-- `__init__`. -/
def SplitCadence.init : SplitCadence Rid where
  owedDecode := ∅
  offer := ⟨.mixedFallback, .initial, none, none, none, none⟩
  decoderIds := ∅
  knownDecoders := ∅
  firstDebt := ∅
  burstOwed := ∅
  burstCount := fun _ => 0
  burstRun := 0

/-- A turn that restricts nothing. -/
def Offer.mixed : Offer Rid := ⟨.mixedFallback, .noEligibleRunningPair, none, none, none, none⟩

/-- A decode-only turn. -/
def Offer.decode (reason : Reason) (decoders : Finset Rid) : Offer Rid :=
  ⟨.decode, reason, some decoders, none, none, none⟩

/-- `rid` keeps its place in `burst_owed`. -/
def keepsBurst (burst : Nat) (s : SplitCadence Rid) (running : List (Request Rid)) (rid : Rid) :
    Bool :=
  rid ∈ s.decoderIds && s.burstCount rid < burst && !((byId running rid).any hasContent)

/-- `rid`, newly a decoder, enters `burst_owed`. -/
def entersBurst (running : List (Request Rid)) (rid : Rid) : Bool :=
  (byId running rid).any fun r => thinking r && !hasContent r

/-- `_track_new_decoders`. -/
def trackNewDecoders (sel : Selectors) (s : SplitCadence Rid) (running : List (Request Rid)) :
    SplitCadence Rid :=
  let new := s.decoderIds \ s.knownDecoders
  let entering := new.filter fun rid => entersBurst running rid
  { s with
    knownDecoders := s.decoderIds
    firstDebt := if sel.firstTokenRepay then s.firstDebt ∩ s.decoderIds ∪ new else s.firstDebt
    burstOwed :=
      if sel.firstContentBurst ≠ 0 then
        s.burstOwed.filter (fun rid => keepsBurst sel.firstContentBurst s running rid) ∪ entering
      else s.burstOwed
    burstCount :=
      if sel.firstContentBurst ≠ 0 then fun rid => if rid ∈ entering then 0 else s.burstCount rid
      else s.burstCount
    burstRun :=
      if sel.firstContentBurst ≠ 0 ∧ ¬ running.any isPrefilling then 0 else s.burstRun }

/-- The only running prefill, when it may be offered a turn of its own: an admitted original
prompt that the cap cannot finish, and nothing in flight. -/
def eligiblePrefill (sch : Scheduler Rid) (cap : Nat) : Option (Request Rid) :=
  match sch.running.filter isPrefilling with
  | [request] =>
    if request.status ≠ .running
        ∨ request.numTokens ≠ request.numPromptTokens
        ∨ request.numComputedTokens = 0
        ∨ request.numPromptTokens ≤ request.numComputedTokens + cap
        ∨ sch.running.any (fun r => r.hasEncoderInputs || r.numOutputPlaceholders != 0
            || r.numStaleOutputTokens != 0) then none
    else some request
  | _ => none

/-- The first part of `begin`: forget decoders that are gone, track the new ones. -/
def refresh (sel : Selectors) (s : SplitCadence Rid) (running : List (Request Rid)) :
    SplitCadence Rid :=
  let decoders := Speedup.decoderIds running
  let s := { s with decoderIds := decoders, owedDecode := s.owedDecode ∩ decoders }
  if sel.firstTokenRepay || sel.firstContentBurst != 0 then trackNewDecoders sel s running else s

/-- The second part of `begin`: what the turn offers. -/
def chooseOffer (sel : Selectors) (s : SplitCadence Rid) (sch : Scheduler Rid) (cap : Nat) :
    Offer Rid :=
  if s.owedDecode.Nonempty then .decode .repayPrefillOffer s.decoderIds
  else if s.decoderIds = ∅ ∨ sch.waiting ≠ [] ∨ sch.skippedWaiting ≠ [] then .mixed
  else match eligiblePrefill sch cap with
    | none => .mixed
    | some request =>
      if s.firstDebt.Nonempty then .decode .firstTokenRepay s.decoderIds
      else if s.burstOwed.Nonempty ∧ s.burstRun < sel.firstContentBurst then
        .decode .firstContentBurst s.decoderIds
      else
        ⟨.prefill, .oneKnownNonfinalRunningPrefill, some {request.requestId},
          some request.requestId, some request.numComputedTokens, some request.numPromptTokens⟩

/-- `begin`. -/
def begin (sel : Selectors) (s : SplitCadence Rid) (sch : Scheduler Rid) (cap : Nat) :
    SplitCadence Rid :=
  let s := refresh sel s sch.running
  { s with offer := chooseOffer sel s sch cap }

/-- `limit`. -/
def limit (s : SplitCadence Rid) (request : Request Rid) (count : Nat) : Nat :=
  match s.offer.allowed with
  | none => count
  | some allowed => if request.requestId ∈ allowed then count else 0

/-- `deferred`. -/
def deferred (s : SplitCadence Rid) (request : Request Rid) : Bool :=
  match s.offer.allowed with
  | none => false
  | some allowed => request.requestId ∉ allowed

/-- `observe`. `counts` is the dictionary of scheduled tokens, 0 for a request not in it. -/
def observe (sel : Selectors) (s : SplitCadence Rid) (counts : Rid → Nat) : SplitCadence Rid :=
  { s with
    owedDecode := match s.offer.phase with
      | .prefill => s.decoderIds
      | .decode => s.owedDecode.filter fun rid => counts rid = 0
      | .mixedFallback => s.owedDecode
    firstDebt :=
      if sel.firstTokenRepay then
        if s.offer.reason = .firstTokenRepay then ∅
        else if s.offer.phase ≠ .prefill then
          s.firstDebt.filter fun rid => ¬ (0 < counts rid ∧ rid ∈ s.decoderIds)
        else s.firstDebt
      else s.firstDebt
    burstCount :=
      if sel.firstContentBurst ≠ 0 ∧ s.offer.reason = .firstContentBurst then
        fun rid => if rid ∈ s.burstOwed then s.burstCount rid + 1 else s.burstCount rid
      else s.burstCount
    burstRun :=
      if sel.firstContentBurst ≠ 0 then
        if s.offer.reason = .firstContentBurst then s.burstRun + 1
        else if s.offer.phase = .prefill then 0
        else s.burstRun
      else s.burstRun }

/-- A scheduling pass: the scheduler and the cap `begin` sees, the counts `observe` gets. -/
structure Turn (Rid : Type) where
  scheduler : Scheduler Rid
  cap : Nat
  counts : Rid → Nat

/-- The running decoders of a turn. -/
def Turn.decoders (t : Turn Rid) : Finset Rid := Speedup.decoderIds t.scheduler.running

/-- The controller after a turn. -/
def step (sel : Selectors) (s : SplitCadence Rid) (t : Turn Rid) : SplitCadence Rid :=
  observe sel (begin sel s t.scheduler t.cap) t.counts

/-- The controller after a history of turns. -/
abbrev after (sel : Selectors) (h : List (Turn Rid)) : SplitCadence Rid :=
  run (step sel) SplitCadence.init h

/-- What turn `t` offers after the history `h`. -/
def offerAt (sel : Selectors) (h : List (Turn Rid)) (t : Turn Rid) : Offer Rid :=
  (begin sel (after sel h) t.scheduler t.cap).offer

/-! ### The base cadence

The same class without the two selectors, as a definition of its own: beside the current offer it
has the set of owed decoders and nothing else. It says what the selectors must not change when they
are off.
-/

/-- The cadence without the selectors: one known nonfinal prefill-only offer is followed by
decode-only turns until its decoders are repaid. -/
structure BaseCadence (Rid : Type) where
  owedDecode : Finset Rid
  offer : Offer Rid
  decoderIds : Finset Rid

def BaseCadence.init : BaseCadence Rid :=
  ⟨∅, ⟨.mixedFallback, .initial, none, none, none, none⟩, ∅⟩

def BaseCadence.begin (s : BaseCadence Rid) (sch : Scheduler Rid) (cap : Nat) :
    BaseCadence Rid :=
  let decoders := Speedup.decoderIds sch.running
  let owed := s.owedDecode ∩ decoders
  ⟨owed,
    if owed.Nonempty then .decode .repayPrefillOffer decoders
    else if decoders = ∅ ∨ sch.waiting ≠ [] ∨ sch.skippedWaiting ≠ [] then .mixed
    else match eligiblePrefill sch cap with
      | none => .mixed
      | some request =>
        ⟨.prefill, .oneKnownNonfinalRunningPrefill, some {request.requestId},
          some request.requestId, some request.numComputedTokens, some request.numPromptTokens⟩,
    decoders⟩

def BaseCadence.observe (s : BaseCadence Rid) (counts : Rid → Nat) : BaseCadence Rid :=
  { s with
    owedDecode := match s.offer.phase with
      | .prefill => s.decoderIds
      | .decode => s.owedDecode.filter fun rid => counts rid = 0
      | .mixedFallback => s.owedDecode }

def BaseCadence.step (s : BaseCadence Rid) (t : Turn Rid) : BaseCadence Rid :=
  (s.begin t.scheduler t.cap).observe t.counts

/-- What turn `t` offers in the base cadence after the history `h`. -/
def baseOfferAt (h : List (Turn Rid)) (t : Turn Rid) : Offer Rid :=
  ((run BaseCadence.step BaseCadence.init h).begin t.scheduler t.cap).offer

/-! ## What `begin` and `observe` do

Each field after `refresh`, and each offer that `chooseOffer` can make with what it requires. The
later sections go by these and do not unfold the controller again.
-/

section Calls

variable (sel : Selectors) (s : SplitCadence Rid) (running : List (Request Rid))

@[simp] theorem refresh_decoderIds :
    (refresh sel s running).decoderIds = Speedup.decoderIds running := by
  unfold refresh
  split_ifs <;> rfl

@[simp] theorem refresh_owedDecode :
    (refresh sel s running).owedDecode = s.owedDecode ∩ Speedup.decoderIds running := by
  unfold refresh
  split_ifs <;> rfl

theorem refresh_off (h : sel.firstTokenRepay = false) (h' : sel.firstContentBurst = 0) :
    refresh sel s running =
      { s with
        decoderIds := Speedup.decoderIds running
        owedDecode := s.owedDecode ∩ Speedup.decoderIds running } := by
  simp [refresh, h, h']

theorem refresh_on (h : sel.firstTokenRepay = true ∨ sel.firstContentBurst ≠ 0) :
    refresh sel s running = trackNewDecoders sel
      { s with
        decoderIds := Speedup.decoderIds running
        owedDecode := s.owedDecode ∩ Speedup.decoderIds running } running := by
  unfold refresh
  exact if_pos (by simpa using h)

theorem refresh_known (h : sel.firstTokenRepay = true ∨ sel.firstContentBurst ≠ 0) :
    (refresh sel s running).knownDecoders = Speedup.decoderIds running := by
  rw [refresh_on sel s running h]
  rfl

/-- The first-token debt after `begin`: the old debt of decoders still running, and the new ones. -/
theorem refresh_debt (h : sel.firstTokenRepay = true) :
    (refresh sel s running).firstDebt =
      s.firstDebt ∩ Speedup.decoderIds running ∪
        (Speedup.decoderIds running \ s.knownDecoders) := by
  rw [refresh_on sel s running (Or.inl h)]
  exact if_pos h

/-- The burst set after `begin`: who keeps its place and who enters. -/
theorem mem_refresh_burstOwed (h : sel.firstContentBurst ≠ 0) {d : Rid}
    (hd : d ∈ (refresh sel s running).burstOwed) :
    (d ∈ s.burstOwed ∧ s.burstCount d < sel.firstContentBurst) ∨
      (d ∈ Speedup.decoderIds running ∧ d ∉ s.knownDecoders) := by
  rw [refresh_on sel s running (Or.inr h)] at hd
  unfold trackNewDecoders at hd
  simp only [if_pos h] at hd
  rcases Finset.mem_union.mp hd with hk | he
  · obtain ⟨hmem, hkeep⟩ := Finset.mem_filter.mp hk
    simp only [keepsBurst, Bool.and_eq_true, decide_eq_true_eq] at hkeep
    exact Or.inl ⟨hmem, hkeep.1.2⟩
  · exact Or.inr (Finset.mem_sdiff.mp (Finset.mem_filter.mp he).1)

/-- A counter is only touched by `begin` when its decoder enters, and then it starts from 0. -/
theorem refresh_burstCount (h : sel.firstContentBurst ≠ 0) (d : Rid) :
    (refresh sel s running).burstCount d = s.burstCount d ∨
      (refresh sel s running).burstCount d = 0 ∧
        d ∈ Speedup.decoderIds running ∧ d ∉ s.knownDecoders := by
  rw [refresh_on sel s running (Or.inr h)]
  unfold trackNewDecoders
  simp only [if_pos h]
  split
  · rename_i he
    exact Or.inr ⟨rfl, Finset.mem_sdiff.mp (Finset.mem_filter.mp he).1⟩
  · exact Or.inl rfl

/-- The run counter is cleared when no prefill is running. -/
theorem refresh_burstRun (h : sel.firstContentBurst ≠ 0) :
    (refresh sel s running).burstRun = if running.any isPrefilling then s.burstRun else 0 := by
  rw [refresh_on sel s running (Or.inr h)]
  unfold trackNewDecoders
  by_cases hp : running.any isPrefilling = true <;> simp [h, hp]

/-- Everything `begin` can offer, with what it requires. -/
theorem chooseOffer_cases (sch : Scheduler Rid) (cap : Nat) :
    (chooseOffer sel s sch cap = .mixed) ∨
    (chooseOffer sel s sch cap = .decode .repayPrefillOffer s.decoderIds) ∨
    (chooseOffer sel s sch cap = .decode .firstTokenRepay s.decoderIds ∧ s.firstDebt.Nonempty) ∨
    (chooseOffer sel s sch cap = .decode .firstContentBurst s.decoderIds ∧
      s.burstOwed.Nonempty ∧ s.burstRun < sel.firstContentBurst) ∨
    (∃ request : Request Rid, chooseOffer sel s sch cap =
        ⟨.prefill, .oneKnownNonfinalRunningPrefill, some {request.requestId},
          some request.requestId, some request.numComputedTokens, some request.numPromptTokens⟩ ∧
      s.owedDecode = ∅ ∧ s.firstDebt = ∅) := by
  unfold chooseOffer
  by_cases ho : s.owedDecode.Nonempty
  · exact Or.inr (Or.inl (if_pos ho))
  rw [if_neg ho]
  by_cases hw : s.decoderIds = ∅ ∨ sch.waiting ≠ [] ∨ sch.skippedWaiting ≠ []
  · exact Or.inl (if_pos hw)
  rw [if_neg hw]
  cases eligiblePrefill sch cap with
  | none => exact Or.inl rfl
  | some request =>
    simp only
    by_cases hd : s.firstDebt.Nonempty
    · exact Or.inr (Or.inr (Or.inl ⟨if_pos hd, hd⟩))
    rw [if_neg hd]
    by_cases hb : s.burstOwed.Nonempty ∧ s.burstRun < sel.firstContentBurst
    · exact Or.inr (Or.inr (Or.inr (Or.inl ⟨if_pos hb, hb⟩)))
    rw [if_neg hb]
    exact Or.inr (Or.inr (Or.inr (Or.inr ⟨request, rfl, Finset.not_nonempty_iff_eq_empty.mp ho,
      Finset.not_nonempty_iff_eq_empty.mp hd⟩)))

/-- A deferred request gets nothing, any other one what it asks for. -/
theorem limit_eq (r : Request Rid) (count : Nat) :
    limit s r count = if deferred s r then 0 else count := by
  unfold limit deferred
  cases s.offer.allowed with
  | none => rfl
  | some allowed => by_cases h : r.requestId ∈ allowed <;> simp [h]

/-- **Whom an offer defers**: nobody in a mixed turn, all but the decoders in a decode-only one, all
but the prefill it names in a prefill-only one. -/
theorem begin_deferred (sch : Scheduler Rid) (cap : Nat) (r : Request Rid) :
    deferred (begin sel s sch cap) r =
      match (begin sel s sch cap).offer.phase with
      | .mixedFallback => false
      | .decode => decide (r.requestId ∉ Speedup.decoderIds sch.running)
      | .prefill => decide ((begin sel s sch cap).offer.prefillId ≠ some r.requestId) := by
  have hdecode (reason : Reason) (h : (begin sel s sch cap).offer =
      .decode reason (refresh sel s sch.running).decoderIds) :
      deferred (begin sel s sch cap) r =
        decide (r.requestId ∉ Speedup.decoderIds sch.running) := by
    rw [deferred, h, refresh_decoderIds]
    simp [Offer.decode]
  rcases chooseOffer_cases sel (refresh sel s sch.running) sch cap with
    h | h | ⟨h, -⟩ | ⟨h, -⟩ | ⟨request, h, -⟩
  · rw [deferred, begin, h]
    rfl
  · rw [hdecode _ h, begin, h]
    rfl
  · rw [hdecode _ h, begin, h]
    rfl
  · rw [hdecode _ h, begin, h]
    rfl
  · rw [deferred, begin, h]
    simp [eq_comm]

end Calls

theorem after_snoc (sel : Selectors) (h : List (Turn Rid)) (t : Turn Rid) :
    after sel (h ++ [t]) = step sel (after sel h) t := run_snoc h t

/-- A prefill-only offer is made only when no decoder is owed a turn and no debt is open. -/
theorem offerAt_prefill {sel : Selectors} {h : List (Turn Rid)} {t : Turn Rid}
    (hp : (offerAt sel h t).phase = .prefill) :
    (after sel h).owedDecode ∩ t.decoders = ∅ ∧
      (refresh sel (after sel h) t.scheduler.running).firstDebt = ∅ := by
  rcases chooseOffer_cases sel (refresh sel (after sel h) t.scheduler.running)
    t.scheduler t.cap with
    hc | hc | ⟨hc, -⟩ | ⟨hc, -, -⟩ | ⟨request, -, ho, hd⟩
  · rw [offerAt, begin, hc] at hp; exact absurd hp (by simp [Offer.mixed])
  · rw [offerAt, begin, hc] at hp; exact absurd hp (by simp [Offer.decode])
  · rw [offerAt, begin, hc] at hp; exact absurd hp (by simp [Offer.decode])
  · rw [offerAt, begin, hc] at hp; exact absurd hp (by simp [Offer.decode])
  · exact ⟨by simpa [Turn.decoders] using ho, hd⟩

/-- A turn converted for first-token debt is a decode-only turn, and the debt was open. -/
theorem offerAt_firstTokenRepay {sel : Selectors} {h : List (Turn Rid)} {t : Turn Rid}
    (hr : (offerAt sel h t).reason = .firstTokenRepay) :
    (refresh sel (after sel h) t.scheduler.running).firstDebt.Nonempty := by
  rcases chooseOffer_cases sel (refresh sel (after sel h) t.scheduler.running)
    t.scheduler t.cap with
    hc | hc | ⟨-, hd⟩ | ⟨hc, -, -⟩ | ⟨request, hc, -, -⟩
  · rw [offerAt, begin, hc] at hr; exact absurd hr (by simp [Offer.mixed])
  · rw [offerAt, begin, hc] at hr; exact absurd hr (by simp [Offer.decode])
  · exact hd
  · rw [offerAt, begin, hc] at hr; exact absurd hr (by simp [Offer.decode])
  · rw [offerAt, begin, hc] at hr; exact absurd hr (by simp)

/-- A turn converted for first content found a decoder owed and the run counter below its cap. -/
theorem offerAt_firstContentBurst {sel : Selectors} {h : List (Turn Rid)} {t : Turn Rid}
    (hr : (offerAt sel h t).reason = .firstContentBurst) :
    (refresh sel (after sel h) t.scheduler.running).burstRun < sel.firstContentBurst ∧
      (offerAt sel h t).phase = .decode := by
  rcases chooseOffer_cases sel (refresh sel (after sel h) t.scheduler.running)
    t.scheduler t.cap with
    hc | hc | ⟨hc, -⟩ | ⟨hc, -, hb⟩ | ⟨request, hc, -, -⟩
  · rw [offerAt, begin, hc] at hr; exact absurd hr (by simp [Offer.mixed])
  · rw [offerAt, begin, hc] at hr; exact absurd hr (by simp [Offer.decode])
  · rw [offerAt, begin, hc] at hr; exact absurd hr (by simp [Offer.decode])
  · exact ⟨hb, by rw [offerAt, begin, hc]; rfl⟩
  · rw [offerAt, begin, hc] at hr; exact absurd hr (by simp)

/-! ## Repayment after a prefill-only offer

A decoder that is owed leaves the owed set in two ways: it received tokens in a decode-only turn, or
it is no running decoder any more. The next prefill-only offer needs the set to be empty, so in
between everyone who stayed was repaid.
-/

/-- In turn `t` the decoder `d` received tokens of a decode turn. -/
def Repaid (sel : Selectors) (h : List (Turn Rid)) (t : Turn Rid) (d : Rid) : Prop :=
  (offerAt sel h t).phase = .decode ∧ 0 < t.counts d

/-- A prefill-only offer owes every running decoder a turn. -/
theorem owed_after_prefill {sel : Selectors} {h : List (Turn Rid)} {t : Turn Rid}
    (hp : (offerAt sel h t).phase = .prefill) :
    (after sel (h ++ [t])).owedDecode = t.decoders := by
  rw [after_snoc]
  unfold step observe
  simp only
  rw [show (begin sel (after sel h) t.scheduler t.cap).offer.phase = .prefill from hp]
  simp [begin, Turn.decoders]

/-- **A decoder owed a turn stays owed** until it is repaid or stops being a running decoder. -/
theorem owed_persists {sel : Selectors} {h : List (Turn Rid)} {t : Turn Rid} {d : Rid}
    (hd : d ∈ (after sel h).owedDecode) (hrun : d ∈ t.decoders) (hno : ¬ Repaid sel h t d) :
    d ∈ (after sel (h ++ [t])).owedDecode := by
  have hin : d ∈ (begin sel (after sel h) t.scheduler t.cap).owedDecode := by
    simpa [begin, Turn.decoders] using ⟨hd, hrun⟩
  rw [after_snoc]
  unfold step observe
  simp only
  cases hph : (begin sel (after sel h) t.scheduler t.cap).offer.phase with
  | mixedFallback => exact hin
  | decode =>
    refine Finset.mem_filter.mpr ⟨hin, ?_⟩
    by_contra hc
    exact hno ⟨hph, Nat.pos_of_ne_zero hc⟩
  | prefill => simpa [begin, Turn.decoders] using hrun

/-- Between a prefill-only offer and the next one, every decoder it owed that kept running has
been repaid. -/
theorem repaid_between {sel : Selectors} {h : List (Turn Rid)} {t u : Turn Rid}
    {h' : List (Turn Rid)} (ht : (offerAt sel h t).phase = .prefill)
    (hu : (offerAt sel (h ++ t :: h') u).phase = .prefill) {d : Rid} (hd : d ∈ t.decoders)
    (hrun : ∀ v ∈ h' ++ [u], d ∈ v.decoders) :
    ∃ a v b, h' = a ++ v :: b ∧ Repaid sel (h ++ t :: a) v d := by
  have key : ∀ h' : List (Turn Rid), (∀ v ∈ h', d ∈ v.decoders) →
      (∃ a v b, h' = a ++ v :: b ∧ Repaid sel (h ++ t :: a) v d) ∨
        d ∈ (after sel (h ++ t :: h')).owedDecode := by
    intro h'
    induction h' using List.reverseRecOn with
    | nil => exact fun _ => Or.inr (by rw [owed_after_prefill ht]; exact hd)
    | append_singleton h' v ih =>
      intro hrun'
      rcases ih fun w hw => hrun' w (List.mem_append_left _ hw) with ⟨a, w, b, rfl, hw⟩ | howed
      · exact Or.inl ⟨a, w, b ++ [v], by simp, hw⟩
      · by_cases hr : Repaid sel (h ++ t :: h') v d
        · exact Or.inl ⟨h', v, [], rfl, hr⟩
        · right
          have := owed_persists howed (hrun' v (by simp)) hr
          rwa [List.append_assoc, List.cons_append] at this
  refine (key h' fun v hv => hrun v (List.mem_append_left _ hv)).resolve_right fun howed => ?_
  have hempty := (offerAt_prefill hu).1
  exact absurd (hempty ▸ Finset.mem_inter.mpr ⟨howed, hrun u (by simp)⟩) (Finset.notMem_empty d)

/-! ## The first-token debt

A turn is converted for the debt only where the debt is open, and closes it. It opens only with a
new decoder, so conversions and turns with new decoders can be counted against each other.
-/

/-- The running decoders of the last turn of a history. -/
def lastDecoders (h : List (Turn Rid)) : Finset Rid :=
  match h.getLast? with
  | some t => t.decoders
  | none => ∅

@[simp] theorem lastDecoders_snoc (h : List (Turn Rid)) (t : Turn Rid) :
    lastDecoders (h ++ [t]) = t.decoders := by simp [lastDecoders]

/-- Some decoder of `t` was not one in the turn before. -/
def NewDecoder (h : List (Turn Rid)) (t : Turn Rid) : Prop := (t.decoders \ lastDecoders h).Nonempty

instance (h : List (Turn Rid)) : DecidablePred (NewDecoder h) := fun _ => by
  unfold NewDecoder; infer_instance

/-- Since `d` last appeared it received tokens in a decode or mixed turn, or was present in a turn
converted for first-token debt. -/
def Served (sel : Selectors) (h : List (Turn Rid)) (d : Rid) : Prop :=
  ∃ a v b, h = a ++ v :: b ∧ (∀ w ∈ v :: b, d ∈ w.decoders) ∧
    ((offerAt sel a v).reason = .firstTokenRepay ∨
      ((offerAt sel a v).phase ≠ .prefill ∧ 0 < v.counts d))

theorem Served.snoc {sel : Selectors} {h : List (Turn Rid)} {d : Rid} (hs : Served sel h d)
    {t : Turn Rid} (ht : d ∈ t.decoders) : Served sel (h ++ [t]) d := by
  obtain ⟨a, v, b, rfl, hrun, hv⟩ := hs
  refine ⟨a, v, b ++ [t], by simp, fun w hw => ?_, hv⟩
  rcases List.mem_append.mp (List.cons_append ▸ hw) with hw | hw
  · exact hrun w hw
  · exact List.mem_singleton.mp hw ▸ ht

/-- `known_decoders` is the decoder set of the turn before. -/
theorem known_eq_last {sel : Selectors}
    (hsel : sel.firstTokenRepay = true ∨ sel.firstContentBurst ≠ 0) (h : List (Turn Rid)) :
    (after sel h).knownDecoders = lastDecoders h := by
  induction h using List.reverseRecOn with
  | nil => rfl
  | append_singleton h t _ =>
    rw [after_snoc, lastDecoders_snoc]
    exact refresh_known sel _ _ hsel

/-- The debt after a turn: cleared by a conversion, reduced by a decode or mixed turn. -/
theorem debt_after {sel : Selectors} (hsel : sel.firstTokenRepay = true) (h : List (Turn Rid))
    (t : Turn Rid) :
    (after sel (h ++ [t])).firstDebt =
      if (offerAt sel h t).reason = .firstTokenRepay then ∅
      else if (offerAt sel h t).phase ≠ .prefill then
        (refresh sel (after sel h) t.scheduler.running).firstDebt.filter fun rid =>
          ¬ (0 < t.counts rid ∧ rid ∈ t.decoders)
      else (refresh sel (after sel h) t.scheduler.running).firstDebt := by
  rw [after_snoc]
  unfold step observe
  simp only [if_pos hsel, offerAt]
  simp [begin, Turn.decoders]

/-- **Every running decoder is in debt or has been served since it appeared.** -/
theorem debt_or_served {sel : Selectors} (hsel : sel.firstTokenRepay = true) (h : List (Turn Rid)) :
    ∀ d ∈ lastDecoders h, d ∈ (after sel h).firstDebt ∨ Served sel h d := by
  induction h using List.reverseRecOn with
  | nil => exact fun d hd => absurd hd (Finset.notMem_empty d)
  | append_singleton h t ih =>
    intro d hd
    rw [lastDecoders_snoc] at hd
    -- the debt `begin` leaves, before the turn is observed
    have hopen : d ∈ (refresh sel (after sel h) t.scheduler.running).firstDebt ∨
      Served sel h d := by
      rw [refresh_debt sel _ _ hsel, known_eq_last (Or.inl hsel)]
      by_cases hk : d ∈ lastDecoders h
      · rcases ih d hk with hdebt | hserved
        · exact Or.inl (Finset.mem_union_left _ (Finset.mem_inter.mpr ⟨hdebt, hd⟩))
        · exact Or.inr hserved
      · exact Or.inl (Finset.mem_union_right _ (Finset.mem_sdiff.mpr ⟨hd, hk⟩))
    rcases hopen with hopen | hserved
    · have hself : ((offerAt sel h t).reason = .firstTokenRepay ∨
          ((offerAt sel h t).phase ≠ .prefill ∧ 0 < t.counts d)) → Served sel (h ++ [t]) d :=
        fun hs => ⟨h, t, [], rfl, by simpa using hd, hs⟩
      rw [debt_after hsel]
      by_cases hr : (offerAt sel h t).reason = .firstTokenRepay
      · exact Or.inr (hself (Or.inl hr))
      rw [if_neg hr]
      by_cases hp : (offerAt sel h t).phase ≠ .prefill
      · rw [if_pos hp]
        by_cases hc : 0 < t.counts d
        · exact Or.inr (hself (Or.inr ⟨hp, hc⟩))
        · exact Or.inl (Finset.mem_filter.mpr ⟨hopen, fun hx => hc hx.1⟩)
      · rw [if_neg hp]
        exact Or.inl hopen
    · exact Or.inr (hserved.snoc hd)

/-- At a prefill-only offer every running decoder has been served since it appeared. -/
theorem served_at_prefill {sel : Selectors} (hsel : sel.firstTokenRepay = true)
    {h : List (Turn Rid)} {t : Turn Rid} (hp : (offerAt sel h t).phase = .prefill) :
    ∀ d ∈ t.decoders, Served sel h d := by
  intro d hd
  have hempty := (offerAt_prefill hp).2
  rw [refresh_debt sel _ _ hsel, known_eq_last (Or.inl hsel), Finset.union_eq_empty] at hempty
  have hk : d ∈ lastDecoders h := by
    by_contra hk
    exact Finset.notMem_empty d (hempty.2 ▸ Finset.mem_sdiff.mpr ⟨hd, hk⟩)
  refine (debt_or_served hsel h d hk).resolve_left fun hdebt => ?_
  exact Finset.notMem_empty d (hempty.1 ▸ Finset.mem_inter.mpr ⟨hdebt, hd⟩)

/-- The turns converted for first-token debt, and the turns at which a new decoder appeared. -/
def repayTurns (sel : Selectors) (h : List (Turn Rid)) : Nat :=
  countFrom (fun past t => (offerAt sel past t).reason = .firstTokenRepay) [] h

def newDecoderTurns (h : List (Turn Rid)) : Nat := countFrom NewDecoder [] h

/-- An open debt is a conversion still to come. -/
theorem repay_le_new_aux {sel : Selectors} (hsel : sel.firstTokenRepay = true)
    (h : List (Turn Rid)) :
    repayTurns sel h + (if (after sel h).firstDebt.Nonempty then 1 else 0) ≤ newDecoderTurns h := by
  induction h using List.reverseRecOn with
  | nil => simp [repayTurns, newDecoderTurns, SplitCadence.init]
  | append_singleton h t ih =>
    unfold repayTurns newDecoderTurns at *
    rw [countFrom_snoc, countFrom_snoc, List.nil_append, debt_after hsel]
    -- a debt open at this turn was open before or is due to a new decoder
    have hopen : (refresh sel (after sel h) t.scheduler.running).firstDebt.Nonempty →
        (after sel h).firstDebt.Nonempty ∨ NewDecoder h t := by
      rw [refresh_debt sel _ _ hsel, known_eq_last (Or.inl hsel), Finset.union_nonempty]
      rintro (⟨x, hx⟩ | hnew)
      · exact Or.inl ⟨x, (Finset.mem_inter.mp hx).1⟩
      · exact Or.inr hnew
    have hle : ∀ D : Finset Rid, (D.Nonempty →
          (refresh sel (after sel h) t.scheduler.running).firstDebt.Nonempty) →
        (if D.Nonempty then 1 else 0) ≤
          (if (after sel h).firstDebt.Nonempty then 1 else 0) + if NewDecoder h t then
          1 else 0 := by
      intro D hD
      by_cases hn : D.Nonempty
      · rcases hopen (hD hn) with ho | ho <;> simp only [hn, ho, if_true] <;> omega
      · simp only [hn, if_false]; omega
    by_cases hr : (offerAt sel h t).reason = .firstTokenRepay
    · have := hle (refresh sel (after sel h) t.scheduler.running).firstDebt id
      rw [if_pos (offerAt_firstTokenRepay hr)] at this
      simp only [if_pos hr, Finset.not_nonempty_empty, if_false]
      omega
    · rw [if_neg hr, if_neg hr]
      split
      · have := hle (Finset.filter (fun rid => ¬ (0 < t.counts rid ∧ rid ∈ t.decoders))
          (refresh sel (after sel h) t.scheduler.running).firstDebt)
          fun hn => hn.mono (Finset.filter_subset _ _)
        omega
      · have := hle _ id
        omega

/-! ## The first-content burst

Two counters are bounded: the turns converted in a stretch without a prefill-only offer, and for
each decoder those it was owed in. Each counter is shown to be at least the number of such turns,
and never to pass the selector, which bounds the number.
-/

/-- Turn `t` was converted for first content. -/
def BurstTurn (sel : Selectors) (h : List (Turn Rid)) (t : Turn Rid) : Prop :=
  (offerAt sel h t).reason = .firstContentBurst

/-- Turn `t` was converted for first content while `d` was owed, so `d` counts it. -/
def BurstTurnOf (sel : Selectors) (d : Rid) (h : List (Turn Rid)) (t : Turn Rid) : Prop :=
  BurstTurn sel h t ∧ d ∈ (begin sel (after sel h) t.scheduler t.cap).burstOwed

instance (sel : Selectors) (h : List (Turn Rid)) : DecidablePred (BurstTurn sel h) := fun _ => by
  unfold BurstTurn; infer_instance

instance (sel : Selectors) (d : Rid) (h : List (Turn Rid)) : DecidablePred (BurstTurnOf sel d h) :=
  fun _ => by unfold BurstTurnOf; infer_instance

/-- The run counter after a turn. -/
theorem burstRun_after {sel : Selectors} (hsel : sel.firstContentBurst ≠ 0) (h : List (Turn Rid))
    (t : Turn Rid) :
    (after sel (h ++ [t])).burstRun =
      if BurstTurn sel h t then (refresh sel (after sel h) t.scheduler.running).burstRun + 1
      else if (offerAt sel h t).phase = .prefill then 0
      else (refresh sel (after sel h) t.scheduler.running).burstRun := by
  rw [after_snoc]
  unfold step observe
  simp only [if_pos hsel]
  rfl

/-- `observe` counts a converted turn for exactly the decoders owed in it. -/
theorem observe_burstCount {sel : Selectors} (hsel : sel.firstContentBurst ≠ 0)
    (s : SplitCadence Rid) (counts : Rid → Nat) (d : Rid) :
    (observe sel s counts).burstCount d =
      s.burstCount d +
        if s.offer.reason = .firstContentBurst ∧ d ∈ s.burstOwed then 1 else 0 := by
  unfold observe
  by_cases hr : s.offer.reason = .firstContentBurst
  · by_cases hd : d ∈ s.burstOwed <;> simp [hsel, hr, hd]
  · simp [hr]

/-- A decoder's own counter after a turn. -/
theorem burstCount_after {sel : Selectors} (hsel : sel.firstContentBurst ≠ 0)
    (h : List (Turn Rid)) (t : Turn Rid) (d : Rid) :
    (after sel (h ++ [t])).burstCount d =
      (refresh sel (after sel h) t.scheduler.running).burstCount d +
        if BurstTurnOf sel d h t then 1 else 0 := by
  rw [after_snoc]
  exact observe_burstCount hsel _ _ d

/-- **The run counter dominates the conversions of a stretch** without a prefill-only offer and
with a prefill always running, and never passes the selector. -/
theorem burst_inv {sel : Selectors} (hsel : sel.firstContentBurst ≠ 0) (h : List (Turn Rid)) :
    ∀ w : List (Turn Rid),
      (∀ a v b, w = a ++ v :: b → (offerAt sel (h ++ a) v).phase ≠ .prefill ∧
        v.scheduler.running.any isPrefilling = true) →
      countFrom (BurstTurn sel) h w ≤ (after sel (h ++ w)).burstRun ∧
        countFrom (BurstTurn sel) h w ≤ sel.firstContentBurst := by
  intro w
  induction w using List.reverseRecOn with
  | nil => exact fun _ => ⟨Nat.zero_le _, Nat.zero_le _⟩
  | append_singleton w t ih =>
    intro hw
    obtain ⟨ih₁, ih₂⟩ := ih fun a v b hab => hw a v (b ++ [t]) (by simp [hab])
    obtain ⟨hp, hrun⟩ := hw w t [] rfl
    have hrefresh : (refresh sel (after sel (h ++ w)) t.scheduler.running).burstRun =
        (after sel (h ++ w)).burstRun := by rw [refresh_burstRun sel _ _ hsel, if_pos hrun]
    rw [countFrom_snoc, ← List.append_assoc, burstRun_after hsel, if_neg hp, hrefresh]
    by_cases hb : BurstTurn sel (h ++ w) t
    · have hlt := (offerAt_firstContentBurst hb).1
      rw [hrefresh] at hlt
      simp only [if_pos hb]
      omega
    · simp only [if_neg hb]
      omega

/-- **A decoder's counter dominates the conversions it counts** since it last appeared. -/
theorem burstOf_inv {sel : Selectors} (hsel : sel.firstContentBurst ≠ 0) (h : List (Turn Rid))
    (d : Rid) :
    ∀ w : List (Turn Rid),
      (∀ a v b, w = a ++ v :: b → a ≠ [] → d ∈ v.decoders → d ∈ lastDecoders (h ++ a)) →
      countFrom (BurstTurnOf sel d) h w ≤ sel.firstContentBurst ∧
        (d ∈ (after sel (h ++ w)).burstOwed →
          countFrom (BurstTurnOf sel d) h w ≤ (after sel (h ++ w)).burstCount d) := by
  intro w
  induction w using List.reverseRecOn with
  | nil => exact fun _ => ⟨Nat.zero_le _, fun _ => Nat.zero_le _⟩
  | append_singleton w t ih =>
    intro hw
    obtain ⟨ih₁, ih₂⟩ := ih fun a v b hab => hw a v (b ++ [t]) (by simp [hab])
    have hnew : w ≠ [] → d ∈ Speedup.decoderIds t.scheduler.running →
        d ∈ (after sel (h ++ w)).knownDecoders := fun hne hd => by
      rw [known_eq_last (Or.inr hsel)]; exact hw w t [] rfl hne hd
    have hcount := burstCount_after hsel (h ++ w) t d
    have howed : (after sel (h ++ (w ++ [t]))).burstOwed =
        (refresh sel (after sel (h ++ w)) t.scheduler.running).burstOwed := by
      rw [← List.append_assoc, after_snoc]; rfl
    -- what `begin` leaves of an owed decoder: its counter covers the past and is below the cap
    have hbegin : d ∈ (refresh sel (after sel (h ++ w)) t.scheduler.running).burstOwed →
        countFrom (BurstTurnOf sel d) h w ≤
            (refresh sel (after sel (h ++ w)) t.scheduler.running).burstCount d ∧
          countFrom (BurstTurnOf sel d) h w < sel.firstContentBurst := by
      intro hd
      by_cases hne : w = []
      · subst hne
        exact ⟨Nat.zero_le _, Nat.pos_of_ne_zero hsel⟩
      rcases mem_refresh_burstOwed sel _ _ hsel hd with ⟨hmem, hlt⟩ | ⟨hdec, hk⟩
      · have hle := ih₂ hmem
        rcases refresh_burstCount sel (after sel (h ++ w)) t.scheduler.running hsel d with
          hc | ⟨-, hdec, hk⟩
        · rw [hc]; omega
        · exact absurd (hnew hne hdec) hk
      · exact absurd (hnew hne hdec) hk
    rw [countFrom_snoc, howed, ← List.append_assoc, hcount]
    by_cases hb : BurstTurnOf sel d (h ++ w) t
    · obtain ⟨hle, hlt⟩ := hbegin hb.2
      simp only [if_pos hb]
      exact ⟨hlt, fun _ => by omega⟩
    · simp only [if_neg hb, Nat.add_zero]
      exact ⟨ih₁, fun hd => (hbegin hd).1⟩

/-! ## The cadence without selectors -/

/-- With both selectors off the controller is the base cadence, and no debt is ever opened. -/
theorem base_simulates {sel : Selectors} (h₁ : sel.firstTokenRepay = false)
    (h₂ : sel.firstContentBurst = 0) (h : List (Turn Rid)) :
    run BaseCadence.step BaseCadence.init h =
        ⟨(after sel h).owedDecode, (after sel h).offer, (after sel h).decoderIds⟩ ∧
      (after sel h).firstDebt = ∅ ∧ (after sel h).burstOwed = ∅ ∧
      ∀ t, offerAt sel h t = baseOfferAt h t := by
  have hoffer : ∀ h : List (Turn Rid), (after sel h).firstDebt = ∅ → (after sel h).burstOwed = ∅ →
      run BaseCadence.step BaseCadence.init h =
        ⟨(after sel h).owedDecode, (after sel h).offer, (after sel h).decoderIds⟩ →
      ∀ t, offerAt sel h t = baseOfferAt h t := by
    intro h hd hb hrun t
    unfold offerAt baseOfferAt begin BaseCadence.begin chooseOffer
    simp only [hrun, refresh_off sel _ _ h₁ h₂, hd, hb, Finset.not_nonempty_empty, if_false,
      false_and]
  induction h using List.reverseRecOn with
  | nil => exact ⟨rfl, rfl, rfl, hoffer [] rfl rfl rfl⟩
  | append_singleton h t ih =>
    obtain ⟨hrun, hd, hb, ho⟩ := ih
    have hd' : (after sel (h ++ [t])).firstDebt = ∅ := by
      rw [after_snoc]
      simp [step, observe, begin, refresh_off sel _ _ h₁ h₂, h₁, hd]
    have hb' : (after sel (h ++ [t])).burstOwed = ∅ := by
      rw [after_snoc]
      simp [step, observe, begin, refresh_off sel _ _ h₁ h₂, hb]
    have hrun' : run BaseCadence.step BaseCadence.init (h ++ [t]) =
        ⟨(after sel (h ++ [t])).owedDecode, (after sel (h ++ [t])).offer,
          (after sel (h ++ [t])).decoderIds⟩ := by
      have hot := ho t
      unfold offerAt baseOfferAt at hot
      rw [run_snoc, after_snoc, hrun] at *
      unfold BaseCadence.step BaseCadence.observe step observe
      simp only [← hot]
      simp [begin, BaseCadence.begin]
    exact ⟨hrun', hd', hb', hoffer _ hd' hb' hrun'⟩

/-! ## Repayment over whole histories -/

/-- **Split-cadence repayment.** Over every history of turns: between two prefill-only offers every
decoder owed by the first that kept running is repaid in a decode turn; with the first-token
selector every running decoder at a prefill-only offer has been served since it appeared, and the
converted turns are at most the turns at which a decoder appeared; with the first-content selector
`N` at most `N` turns are converted in any stretch without a prefill-only offer and with a prefill
always running, and a decoder counts at most `N` of them from one appearance to the next; with
both selectors off the offers are those of the base cadence. -/
theorem split_cadence_repays (sel : Selectors) :
    (∀ (h h' : List (Turn Rid)) (t u : Turn Rid), (offerAt sel h t).phase = .prefill →
      (offerAt sel (h ++ t :: h') u).phase = .prefill →
      ∀ d ∈ t.decoders, (∀ v ∈ h' ++ [u], d ∈ v.decoders) →
        ∃ a v b, h' = a ++ v :: b ∧ (offerAt sel (h ++ t :: a) v).phase = .decode ∧
          0 < v.counts d) ∧
    (sel.firstTokenRepay = true →
      (∀ (h : List (Turn Rid)) (t : Turn Rid), (offerAt sel h t).phase = .prefill →
        ∀ d ∈ t.decoders, Served sel h d) ∧
      ∀ h : List (Turn Rid), repayTurns sel h ≤ newDecoderTurns h) ∧
    (sel.firstContentBurst ≠ 0 →
      (∀ h w : List (Turn Rid),
        (∀ a v b, w = a ++ v :: b → (offerAt sel (h ++ a) v).phase ≠ .prefill ∧
          v.scheduler.running.any isPrefilling = true) →
        countFrom (BurstTurn sel) h w ≤ sel.firstContentBurst) ∧
      ∀ (d : Rid) (h w : List (Turn Rid)),
        (∀ a v b, w = a ++ v :: b → a ≠ [] → d ∈ v.decoders → d ∈ lastDecoders (h ++ a)) →
        countFrom (BurstTurnOf sel d) h w ≤ sel.firstContentBurst) ∧
    (sel.firstTokenRepay = false → sel.firstContentBurst = 0 →
      ∀ (h : List (Turn Rid)) (t : Turn Rid), offerAt sel h t = baseOfferAt h t) := by
  refine ⟨fun h h' t u ht hu d hd hrun => repaid_between ht hu hd hrun,
    fun hsel => ⟨fun h t hp => served_at_prefill hsel hp, fun h => ?_⟩,
    fun hsel => ⟨fun h w hw => (burst_inv hsel h w hw).2,
      fun d h w hw => (burstOf_inv hsel h d w hw).1⟩,
    fun h₁ h₂ h => (base_simulates h₁ h₂ h).2.2.2⟩
  have := repay_le_new_aux hsel h
  omega

/-- One decoder next to one long prefill, each served when the turn allows it. -/
def duet : Turn Nat where
  scheduler := ⟨[⟨0, .running, 6, 5, 5, false, 0, 0, none, [7]⟩,
    ⟨1, .running, 1000, 1000, 64, false, 0, 0, none, []⟩], [], [], 4, 0, 4, 4, 8192, 8192⟩
  cap := 100
  counts := fun _ => 1

/-- Between the two prefill-only offers of three such turns the decoder gets its decode turn. -/
theorem duet_repaid :
    ∃ a v b, [duet] = a ++ v :: b ∧
      (offerAt ⟨false, 0, by decide, by decide⟩ ([] ++ duet :: a) v).phase = .decode ∧
      0 < v.counts 0 :=
  (split_cadence_repays ⟨false, 0, by decide, by decide⟩).1 [] [duet] duet duet (by decide)
    (by decide) 0 (by decide) (by decide)

end Ringside.Speedup.Cadence

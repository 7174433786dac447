import Mathlib.Data.Finset.Basic
import Mathlib.Tactic

/-!
# What the speedup hooks read of the scheduler (`glm53_speedup/scheduler.py`)

`Request` and `Scheduler` hold the fields that the cadence (`Cadence`) and the fair prefill planner
(`FairPrefill`, `Grants`) read; everything else of the vLLM objects is left out. `isPrefilling` is
the predicate the bridge passes to both.

* Token counts are natural numbers. The two budgets of a pass are integers: vLLM subtracts from them
  without a check.
* A request that was evicted replays its outputs, so its prefill ends at its last token
  (`prefillEnd`).
* Lists are in the scheduler's order. A lookup by id takes the last request of that id, as a
  dictionary built from the list does (`byId`).
-/

namespace Ringside.Speedup

/-- `RequestStatus`, as far as the hooks tell the members apart. -/
inductive Status where
  | running
  | waiting
  | preempted
  | other
  deriving DecidableEq, Repr

/-- A request. -/
structure Request (Rid : Type) where
  requestId : Rid
  status : Status
  numTokens : Nat
  numPromptTokens : Nat
  numComputedTokens : Nat
  hasEncoderInputs : Bool
  numOutputPlaceholders : Nat
  numStaleOutputTokens : Nat
  promptTokenIds : Option (List Nat)
  outputTokenIds : List Nat

/-- The scheduler at the start of a pass. -/
structure Scheduler (Rid : Type) where
  running : List (Request Rid)
  waiting : List (Request Rid)
  skippedWaiting : List (Request Rid)
  maxNumRunningReqs : Nat
  numWaitingForStreamingInput : Nat
  numSpecTokens : Nat
  /-- `speculative_config.max_num_new_slots_for_drafting`. -/
  draftSlots : Nat
  maxNumBatchedTokens : Int
  maxNumScheduledTokens : Int

variable {Rid : Type} [DecidableEq Rid]

/-- The end of a request's prefill: its prompt, or what it replays after an eviction. -/
def Request.prefillEnd (r : Request Rid) : Nat := max r.numPromptTokens (r.numTokens - 1)

/-- `is_prefilling`. -/
def isPrefilling (r : Request Rid) : Bool := r.numComputedTokens < r.prefillEnd

/-- The ids of the running requests that are not prefilling. -/
def decoderIds (running : List (Request Rid)) : Finset Rid :=
  ((running.filter fun r => !isPrefilling r).map (·.requestId)).toFinset

/-- `{r.request_id: r for r in requests}[rid]`: the last request of that id. -/
def byId (requests : List (Request Rid)) (rid : Rid) : Option (Request Rid) :=
  requests.reverse.find? fun r => r.requestId = rid

end Ringside.Speedup

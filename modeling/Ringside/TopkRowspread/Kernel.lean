import Ringside.Run
import Ringside.TopkRowspread.Schedule

/-!
# The persistent top-k kernel (`persistent_topk.cuh`)

The blocks of the grid run at once, each through its rows. A short row is one block's alone. On a
radix row the blocks of a group count the digits of their chunks into shared histograms, meet at a
counter after every round, and then claim places of the row's output.

## What a step is

A step is one access to what the blocks share: an addition to a bin, the clearing of a bin, the
reading of a bin, an arrival, a claim, a store.

* What the threads of a block do between two of its barriers they do in any order, so the accesses
  that are left are a list that any of them may be taken from.
* **Arrivals are not ordered behind accesses.** `if (tx == 0) red_release(..)` follows the additions
  and the clearing (and, later, the stores of the greater keys) with no `__syncthreads` before it:
  thread 0 arrives when its own accesses are made, and those of the other threads may be left.
  Thread 0 has the bins and the places whose number is a multiple of `kThreadsPerBlock`.
* **Going on is.** `wait_ge` ends in a `__syncthreads`, so a block that goes on has made all its
  accesses. Other blocks of its group may have some left: `Quiet` says when none has.
* Work inside a block (its own histogram, the scan) happens with the access that needs it.

Out of scope: the chunk in shared memory is read as it was loaded (the load for the next radix row
is not ordered behind the ties of the last one either), and the code of the short rows, of which
`short` says what it may leave in the output.
-/

namespace Ringside.TopkRowspread

/-- `RADIX`. -/
def RADIX : Nat := 256

/-- `kThreadsPerBlock`. -/
def kThreadsPerBlock : Nat := 1024

/-- `convert_to_uint32_v2`, of the bits of a float. -/
def convertToUint32V2 (bits : Nat) : Nat := if 2 ^ 31 ≤ bits then 2 ^ 32 - 1 - bits
    else bits + 2 ^ 31

/-- `x & (~0u << k)`. -/
def high (k x : Nat) : Nat := x / 2 ^ k * 2 ^ k

/-- `shift`, of a round. -/
def shift (round : Nat) : Nat := 24 - round * 8

/-- The suffix sums: every thread adds what lies `stride` further on, for strides 1, 2, ..., 128. -/
def suffixSum (hist : Nat → Nat) : Nat → Nat :=
  [1, 2, 4, 8, 16, 32, 64, 128].foldl
    (fun sum stride tx => sum tx + if tx + stride < RADIX then sum (tx + stride) else 0) hist

/-- The thread whose bin holds the `remaining_k`-th key, and what remains for that bin. -/
def pick (sum : Nat → Nat) (remainingK : Nat) : Nat × Nat :=
  let countGt := fun tx => if tx + 1 < RADIX then sum (tx + 1) else 0
  match (List.range RADIX).find? fun tx => remainingK ≤ sum tx ∧ countGt tx < remainingK with
  | none => (0, remainingK)
  | some tx => (tx, remainingK - countGt tx)

/-- The prefix and `remaining_k` after a round. -/
def select (hist : Nat → Nat) (round : Nat) (s : Nat × Nat) : Nat × Nat :=
  let (bin, remainingK) := pick (suffixSum hist) s.2
  (s.1 + bin * 2 ^ shift round, remainingK)

namespace Params

variable (p : Params)

def key (r i : Nat) : Nat := convertToUint32V2 (p.input r i)

/-- The positions of a block's chunk of a row. -/
def chunk (cta r : Nat) : List Nat :=
  let start := cta * p.chunkSize
  List.range' start (min (start + p.chunkSize) (p.seqLen r) - start)

/-- `local_histogram`, of a round with a prefix. -/
def localHist (cta r round pfx bin : Nat) : Nat :=
  (p.chunk cta r).countP fun i =>
    high (32 - round * 8) (p.key r i) = pfx ∧ p.key r i / 2 ^ shift round % RADIX = bin

end Params

/-! ## States -/

/-- Where a block is on a radix row. In a round and at the stores of the greater keys, `arrived`
says that thread 0 waits at the barrier behind them. -/
inductive Pc
  | idle
  | entered (r : Nat)
  | reset (r : Nat)
  | round (r round pfx rem : Nat) (adds clears : List Nat) (arrived : Bool)
  | scan (r round pfx rem : Nat) (seen : Nat → Nat) (unread : List Nat)
  | claim (r pivot : Nat)
  | gt (r pivot base pos : Nat) (left : List Nat) (arrived : Bool)
  | ties (r pivot : Nat) (left : List Nat)

/-- The accesses of a round that are left. -/
def Pc.left : Pc → List Nat
  | .round _ _ _ _ adds clears _ => adds ++ clears
  | _ => []

/-- A block: the rows before it, its place, `barrier_phase` and `radix_iter`. -/
@[ext]
structure Cta where
  todo : List Task
  pc : Pc
  phase : Nat
  iter : Nat

/-- `RadixRowState`. -/
structure Group where
  arrival : Nat
  hist : Nat → Nat → Nat
  output : Nat

namespace Group

/-- `red_release` on the arrival counter. -/
def arrive (g : Group) : Group := { g with arrival := g.arrival + 1 }

/-- An addition to a bin of a slot. -/
def add (g : Group) (slot bin n : Nat) : Group :=
  { g with
    hist := Function.update g.hist slot (Function.update (g.hist slot) bin (g.hist slot bin + n)) }

/-- The clearing of a bin of a slot. -/
def clear (g : Group) (slot bin : Nat) : Group :=
  { g with hist := Function.update g.hist slot (Function.update (g.hist slot) bin 0) }

@[simp] theorem arrive_arrival (g : Group) : g.arrive.arrival = g.arrival + 1 := rfl

@[simp] theorem arrive_hist (g : Group) : g.arrive.hist = g.hist := rfl

@[simp] theorem arrive_output (g : Group) : g.arrive.output = g.output := rfl

@[simp] theorem add_arrival (g : Group) (slot bin n : Nat) :
    (g.add slot bin n).arrival = g.arrival := rfl

@[simp] theorem add_output (g : Group) (slot bin n : Nat) :
    (g.add slot bin n).output = g.output := rfl

@[simp] theorem clear_output (g : Group) (slot bin : Nat) :
    (g.clear slot bin).output = g.output := rfl

theorem add_hist (g : Group) (slot bin n slot' bin' : Nat) :
    (g.add slot bin n).hist slot' bin' = g.hist slot' bin' + if slot' = slot ∧ bin' = bin then
    n else 0 := by
  unfold add
  by_cases hs : slot' = slot
  · subst hs
    by_cases hb : bin' = bin
    · subst hb
      simp
    · simp [hb]
  · simp [hs]

theorem clear_hist (g : Group) (slot bin slot' bin' : Nat) :
    (g.clear slot bin).hist slot' bin' = if slot' = slot ∧ bin' = bin then
    0 else g.hist slot' bin' := by
  unfold clear
  by_cases hs : slot' = slot
  · subst hs
    by_cases hb : bin' = bin
    · subst hb
      simp
    · simp [hb]
  · simp [hs]

end Group

/-- What a step of a block touches: itself, the state of its group, and the outputs. -/
structure Local where
  cta : Cta
  group : Group
  out : Nat → Nat → Int

/-- A store to the output of a row. -/
def store (out : Nat → Nat → Int) (r slot : Nat) (v : Int) : Nat → Nat → Int :=
  Function.update out r (Function.update (out r) slot v)

/-! ## Steps -/

section Steps

variable (p : Params)

/-- The start of a round: additions for the bins that are met, and in the group's first block the
clearing of the next slot. -/
def startRound (cta r round pfx rem : Nat) : Pc :=
  .round r round pfx rem ((List.range RADIX).filter fun bin => 0 < p.localHist cta r round pfx bin)
    (if cta = 0 then List.range RADIX else []) false

/-- The counter lets a block go on. -/
def Released (phase arrival : Nat) : Prop := (phase + 1) * p.ctasPerGroup ≤ arrival

/-- `global_round`. -/
def globalRound (iter round : Nat) : Nat := iter * 4 + round

variable (short : Nat → (Nat → Int) → Prop)

/-- A step of block `cta` of a group. -/
inductive CtaStep (cta : Nat) : Local → Local → Prop
  | short {r todo phase iter g out o} : short r o →
    CtaStep cta ⟨⟨.short r :: todo, .idle, phase, iter⟩, g, out⟩
      ⟨⟨todo, .idle, phase, iter⟩, g, Function.update out r o⟩
  | enter {r todo phase iter g out} :
    CtaStep cta ⟨⟨.radix r :: todo, .idle, phase, iter⟩, g, out⟩
      ⟨⟨todo, .entered r, phase, iter⟩, g.arrive, out⟩
  | passEntered {r todo phase iter g out} : Released p phase g.arrival →
    CtaStep cta ⟨⟨todo, .entered r, phase, iter⟩, g, out⟩
      ⟨⟨todo, if cta = 0 then .reset r else startRound p cta r 0 0 p.topK, phase + 1, iter⟩, g,
        out⟩
  | reset {r todo phase iter g out} :
    CtaStep cta ⟨⟨todo, .reset r, phase, iter⟩, g, out⟩
      ⟨⟨todo, startRound p cta r 0 0 p.topK, phase, iter⟩, { g with output := 0 }, out⟩
  | add {r round pfx rem adds clears arrived todo phase iter g out bin} : bin ∈ adds →
    CtaStep cta ⟨⟨todo, .round r round pfx rem adds clears arrived, phase, iter⟩, g, out⟩
      ⟨⟨todo, .round r round pfx rem (adds.erase bin) clears arrived, phase, iter⟩,
        g.add (globalRound iter round % 3) bin (p.localHist cta r round pfx bin), out⟩
  | clear {r round pfx rem adds clears arrived todo phase iter g out bin} : bin ∈ clears →
    CtaStep cta ⟨⟨todo, .round r round pfx rem adds clears arrived, phase, iter⟩, g, out⟩
      ⟨⟨todo, .round r round pfx rem adds (clears.erase bin) arrived, phase, iter⟩,
        g.clear ((globalRound iter round + 1) % 3) bin, out⟩
  -- thread 0 waits for its own accesses only
  | arriveRound {r round pfx rem adds clears todo phase iter g out} :
    (∀ bin ∈ adds ++ clears, bin % kThreadsPerBlock ≠ 0) →
    CtaStep cta ⟨⟨todo, .round r round pfx rem adds clears false, phase, iter⟩, g, out⟩
      ⟨⟨todo, .round r round pfx rem adds clears true, phase, iter⟩, g.arrive, out⟩
  -- the block waits for all of its threads
  | passRounded {r round pfx rem todo phase iter g out} : Released p phase g.arrival →
    CtaStep cta ⟨⟨todo, .round r round pfx rem [] [] true, phase, iter⟩, g, out⟩
      ⟨⟨todo, .scan r round pfx rem (fun _ => 0) (List.range RADIX), phase + 1, iter⟩, g, out⟩
  | read {r round pfx rem seen unread todo phase iter g out bin} : bin ∈ unread →
    CtaStep cta ⟨⟨todo, .scan r round pfx rem seen unread, phase, iter⟩, g, out⟩
      ⟨⟨todo, .scan r round pfx rem
          (Function.update seen bin (g.hist (globalRound iter round % 3) bin)) (unread.erase bin),
        phase, iter⟩, g, out⟩
  | select {r round pfx rem seen todo phase iter g out} : round < 3 →
    CtaStep cta ⟨⟨todo, .scan r round pfx rem seen [], phase, iter⟩, g, out⟩
      ⟨⟨todo, startRound p cta r (round + 1) (select seen round (pfx, rem)).1
        (select seen round (pfx, rem)).2, phase, iter⟩, g, out⟩
  | selectLast {r round pfx rem seen todo phase iter g out} : ¬round < 3 →
    CtaStep cta ⟨⟨todo, .scan r round pfx rem seen [], phase, iter⟩, g, out⟩
      ⟨⟨todo, .claim r (select seen round (pfx, rem)).1, phase, iter⟩, g, out⟩
  | claim {r pivot todo phase iter g out} :
    CtaStep cta ⟨⟨todo, .claim r pivot, phase, iter⟩, g, out⟩
      ⟨⟨todo, .gt r pivot g.output 0 ((p.chunk cta r).filter (pivot < p.key r ·)) false, phase,
          iter⟩,
        { g with output := g.output + (p.chunk cta r).countP (pivot < p.key r ·) }, out⟩
  | storeGt {r pivot base pos left arrived todo phase iter g out i} : i ∈ left →
    CtaStep cta ⟨⟨todo, .gt r pivot base pos left arrived, phase, iter⟩, g, out⟩
      ⟨⟨todo, .gt r pivot base (pos + 1) (left.erase i) arrived, phase, iter⟩, g,
        store out r (base + pos) i⟩
  | arriveGt {r pivot base pos left todo phase iter g out} :
    (∀ i ∈ left, (i - cta * p.chunkSize) % kThreadsPerBlock ≠ 0) →
    CtaStep cta ⟨⟨todo, .gt r pivot base pos left false, phase, iter⟩, g, out⟩
      ⟨⟨todo, .gt r pivot base pos left true, phase, iter⟩, g.arrive, out⟩
  | passCollected {r pivot base pos todo phase iter g out} : Released p phase g.arrival →
    CtaStep cta ⟨⟨todo, .gt r pivot base pos [] true, phase, iter⟩, g, out⟩
      ⟨⟨todo, .ties r pivot ((p.chunk cta r).filter (p.key r · = pivot)), phase + 1, iter⟩, g, out⟩
  | tie {r pivot left todo phase iter g out i} : i ∈ left →
    CtaStep cta ⟨⟨todo, .ties r pivot left, phase, iter⟩, g, out⟩
      ⟨⟨todo, .ties r pivot (left.erase i), phase, iter⟩, { g with output := g.output + 1 },
        if g.output < p.topK then store out r g.output i else out⟩
  | done {r pivot todo phase iter g out} :
    CtaStep cta ⟨⟨todo, .ties r pivot [], phase, iter⟩, g, out⟩
      ⟨⟨todo, .idle, phase, iter + 1⟩, g, out⟩

/-- The grid. -/
structure State where
  cta : Nat → Cta
  group : Nat → Group
  out : Nat → Nat → Int

/-- A step of block `c` of the grid. -/
inductive Step : State → State → Prop
  | block (c : Nat) {s : State} {l : Local} : c < p.totalCtas →
    CtaStep p short (c % p.ctasPerGroup) ⟨s.cta c, s.group (c / p.ctasPerGroup), s.out⟩ l →
    Step s ⟨Function.update s.cta c l.cta, Function.update s.group (c / p.ctasPerGroup)
    l.group, l.out⟩

/-- The launch: the host has zeroed the states of the groups. -/
def launch (S : p.Schedule) (out : Nat → Nat → Int) : State :=
  ⟨fun c => ⟨S.tasks c, .idle, 0, 0⟩, fun _ => ⟨0, fun _ _ => 0, 0⟩, out⟩

/-- In this step no block goes on from a barrier at which another block of its group has an access
of the round left. -/
def Quiet (s s' : State) : Prop :=
  ∀ c < p.totalCtas, ∀ d < p.totalCtas, d / p.ctasPerGroup = c / p.ctasPerGroup →
    (s'.cta c).phase ≠ (s.cta c).phase → (s.cta d).phase = (s.cta c).phase → (s.cta d).pc.left = []

/-- The states of a launch: of any run, or of the runs whose steps are `quiet`. -/
inductive Reachable (quiet : Prop) (S : p.Schedule) (out : Nat → Nat → Int) : State → Prop
  | launch : Reachable quiet S out (launch p S out)
  | step {s s' : State} : Reachable quiet S out s → Step p short s s' → (quiet → Quiet p s s') →
    Reachable quiet S out s'

/-- Every block has gone through its rows. -/
def Finished (s : State) : Prop := ∀ c < p.totalCtas, (s.cta c).todo = [] ∧ (s.cta c).pc = .idle

end Steps

end Ringside.TopkRowspread

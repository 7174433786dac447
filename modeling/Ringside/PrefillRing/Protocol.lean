import Ringside.Run
import Ringside.Segments
import Ringside.PrefillRing.Geometry

/-!
# The prefill ring's kernels, proxies and queue pairs (`_prb.cu`)

Four ranks issue the same calls. On each, `prb_launch` queues a call for the proxy and launches its
kernel; the kernel's thread blocks take the parts of the items in order from one counter; the proxy
posts the steps of both directions; each direction's queue pair writes a chunk and then its flag
into the neighbour's memory, in the order they were posted.

* A wait spins, so the machine has no timeout and no poison: an event is a step that changes memory.
* Memory holds tags, not values: a staging slot the index of the step staged in each part, a receive
  area the call, the step and the row of the chunk. `Collective` has the values.
* A thread block is one thing: the work of its threads on a unit lies between two `__syncthreads`,
  and thread 0 alone takes units, waits and counts.
* A part is counted and its chunk made ready in one event. `Counting` has the `atomicAdd` and the
  store as two, and says that nothing else can happen for it.
* `drain` takes one completion at a time and the proxy serves its directions in any order: more
  interleavings than the code has.
* `cnt`, the ring of posted steps and the flags are indexed as in the source, modulo their sizes;
  the byte offsets of `make_layout` are distinct for distinct indices (`Layout.region_sound`).
* A kernel starts when the one before it on its stream is over (`retire`).

The invariants are in `Staging` (kernels), `Posting` (proxies) and `Safety` (the four ranks), the
results in `Progress`.
-/

namespace Ringside.PrefillRing.Protocol

open Ringside.Run Ringside.Merge Ringside.Segments

/-- The calls the ranks issue, and what their layouts agree on. -/
structure Ring where
  calls : Nat → Geometry
  count : Nat
  parts : Nat
  grid : Nat
  nslot : Nat
  count_lt : count < 2 ^ 31
  parts_pos : 0 < parts
  grid_pos : 0 < grid
  nslot_le : 2 ≤ nslot

/-- Three reduce-scatters of four rows, two slots. -/
example : Ring where
  calls _ := (geometry .rs 4 1).get (by decide)
  count := 3
  parts := 2
  grid := 4
  nslot := 2
  count_lt := by decide
  parts_pos := by decide
  grid_pos := by decide
  nslot_le := le_rfl

/-- `PRB_QCAP`. -/
def qCap : Nat := 8192

/-- `PRB_ITEM_RING`. -/
def itemRing : Nat := 1024

/-- The sequence number of a call: `++c->seq`, a `uint32_t` that starts at 0. -/
def seq (c : Nat) : Nat := (c + 1) % 2 ^ 32

/-- `call.seq & 1u`. -/
def parity (c : Nat) : Nat := seq c % 2

section Layout

variable (R : Ring)

/-- `n_units`. -/
def Ring.units (c : Nat) : Nat := (R.calls c).items * R.parts

/-- `work_base` of a call. -/
def Ring.workBase (c : Nat) : Nat := start (fun c => R.units c + R.grid) c

/-- How many steps of direction `d` precede step `s` of call `c`. -/
def Ring.stepAt (d : Dir) (c s : Nat) : Nat := place (fun c => (R.calls c).steps d) c s

/-- `stage_base[d] + j`: the staged index of step `j` of call `c`. -/
def Ring.stageAt (d : Dir) (c j : Nat) : Nat := place (fun c => (R.calls c).staged d) c j

/-- The item a unit is a part of. -/
def Ring.item (c u : Nat) : Option (Item ItemKind) := itemAt (R.calls c) (u / R.parts)

/-- The incoming chunks a unit waits for, in the order it waits for them. -/
def Ring.deps (c u : Nat) : List (Dir × Nat) :=
  match R.item c u with
  | some it => itemDeps (R.calls c) it.kind it.index
  | none => []

/-- The direction and the step a unit stages for. -/
def Ring.stageOf (c u : Nat) : Option (Dir × Nat) :=
  match R.item c u with
  | some it => (stageDir it.kind).map fun d => (d, it.index)
  | none => none

end Layout

/-! ## The state -/

/-- What a thread block is at: waiting for chunk `k` of unit `u` (or, past the last, for its slot),
at work on it, or about to count it. -/
inductive Cta where
  | idle
  | wait (u k : Nat)
  | work (u : Nat)
  | publish (u : Nat)
  | exited
  deriving DecidableEq

/-- Kernels and device memory of one rank. -/
structure Gpu (grid : Nat) where
  launched : Nat
  /-- Kernels done; the next one runs once it is launched. -/
  kernel : Nat
  work : Nat
  cta : Fin grid → Cta
  cnt : Dir → Nat → Nat
  stage : Dir → Nat → Nat → Option Nat
  ready : Dir → Nat → Nat

/-- The proxy thread of one rank and its queue pairs. -/
structure Proxy where
  /-- `q_tail`. -/
  queued : Nat
  /-- The call in each place of the queue. -/
  queue : Nat → Nat
  head : Dir → Nat
  /-- `have`. -/
  busy : Dir → Bool
  cur : Dir → Nat
  step : Dir → Nat
  /-- In `post_step`. -/
  posting : Option Dir
  /-- The call and the step of each entry of the send queue. -/
  wqe : Dir → Nat → Nat × Nat
  ring : Dir → Nat → Option Nat
  posted : Dir → Nat
  done : Dir → Nat
  sendDone : Dir → Nat
  /-- Entries whose chunk has been written. -/
  data : Dir → Nat
  /-- Entries whose flag has been written. -/
  flagged : Dir → Nat

/-- What a rank's neighbours write. -/
structure Inbox where
  recv : Nat → Dir → Nat → Option (Nat × Nat × Nat)
  rflag : Nat → Dir → Nat → Nat

structure World (R : Ring) where
  gpu : Rank → Gpu R.grid
  proxy : Rank → Proxy
  inbox : Rank → Inbox

/-- Before the first call: all counters and flags are zero. -/
def World.init (R : Ring) : World R where
  gpu _ := ⟨0, 0, 0, fun _ => .idle, fun _ _ => 0, fun _ _ _ => none, fun _ _ => 0⟩
  proxy _ := ⟨0, fun _ => 0, fun _ => 0, fun _ => false, fun _ => 0, fun _ => 0, none,
    fun _ _ => (0, 0), fun _ _ => none, fun _ => 0, fun _ => 0, fun _ => 0, fun _ => 0, fun _ => 0⟩
  inbox _ := ⟨fun _ _ _ => none, fun _ _ _ => 0⟩

/-! ## The kernel -/

section Kernel

variable (R : Ring) (G : Gpu R.grid)

/-- `atomicAdd(a.work, 1) - a.work_base`. -/
def Gpu.unit : Nat := G.work - R.workBase G.kernel

/-- A thread block takes the next unit. -/
def Gpu.fetch (b : Fin R.grid) : Gpu R.grid :=
  { G with
    work := G.work + 1
    cta := Function.update G.cta b
      (if G.unit R < R.units G.kernel then .wait (G.unit R) 0 else .exited) }

/-- `wait_eq_u32` on the next chunk of the unit, then `wait_ge_u64` on its slot. -/
def passes (G : Gpu R.grid) (P : Proxy) (I : Inbox) (u k : Nat) : Bool :=
  match (R.deps G.kernel u)[k]? with
  | some (d, s) => decide (I.rflag (parity G.kernel) d s = seq G.kernel)
  | none =>
    match R.stageOf G.kernel u with
    | some (d, j) =>
      let gi := R.stageAt d G.kernel j
      decide (gi < R.nslot ∨ gi - R.nslot + 1 ≤ P.sendDone d)
    | none => true

/-- The wait is over. -/
def Gpu.pass (b : Fin R.grid) (u k : Nat) : Gpu R.grid :=
  { G with
    cta := Function.update G.cta b
      (if k < (R.deps G.kernel u).length then .wait u (k + 1) else .work u) }

/-- The work on a unit: a staged chunk's part goes to its slot, another's to the output. -/
def Gpu.copy (b : Fin R.grid) (u : Nat) : Gpu R.grid :=
  match R.stageOf G.kernel u with
  | some (d, j) =>
    let gi := R.stageAt d G.kernel j
    { G with
      cta := Function.update G.cta b (.publish u)
      stage := fun d' slot p =>
        if d' = d ∧ slot = gi % R.nslot ∧ p = u % R.parts then some gi else G.stage d' slot p }
  | none => { G with cta := Function.update G.cta b .idle }

/-- The part is counted; the one that completes the chunk makes it ready. -/
def Gpu.publish (b : Fin R.grid) (u : Nat) : Gpu R.grid :=
  match R.stageOf G.kernel u with
  | some (d, j) =>
    let gi := R.stageAt d G.kernel j
    let slot := gi % R.nslot
    { G with
      cta := Function.update G.cta b .idle
      cnt := fun d' sl => if d' = d ∧ sl = slot then G.cnt d slot + 1 else G.cnt d' sl
      ready := fun d' sl =>
        if d' = d ∧ sl = slot ∧ (G.cnt d slot + 1) % R.parts = 0 then gi + 1 else G.ready d' sl }
  | none => { G with cta := Function.update G.cta b .idle }

/-- The kernel is over. -/
def Gpu.retire : Gpu R.grid := { G with kernel := G.kernel + 1, cta := fun _ => .idle }

end Kernel

/-! ## The proxy -/

section Proxy

variable (R : Ring) (P : Proxy)

/-- `prb_launch` queues the next call. -/
def Proxy.enqueue : Proxy :=
  { P with
    queued := P.queued + 1
    queue := fun i => if i = P.queued % qCap then P.queued else P.queue i }

/-- The next call of the queue. -/
def Proxy.take (d : Dir) : Proxy :=
  { P with
    head := Function.update P.head d (P.head d + 1)
    busy := Function.update P.busy d true
    cur := Function.update P.cur d (P.queue (P.head d % qCap))
    step := Function.update P.step d 0 }

/-- Every step of the call is posted. -/
def Proxy.leave (d : Dir) : Proxy := { P with busy := Function.update P.busy d false }

/-- The next step has what it sends: its ready word is up, or its incoming flag. -/
def sendable (G : Gpu R.grid) (P : Proxy) (I : Inbox) (d : Dir) : Bool :=
  let c := P.cur d
  let s := P.step d
  if s < (R.calls c).staged d then
    decide (G.ready d (R.stageAt d c s % R.nslot) = R.stageAt d c s + 1)
  else
    match (sendStep (R.calls c) d s).dep with
    | some s' => decide (I.rflag (parity c) d s' = seq c)
    | none => false

/-- The call of `post_step`. -/
def Proxy.begin (d : Dir) : Proxy := { P with posting := some d }

/-- `ibv_post_send`. -/
def Proxy.post (d : Dir) : Proxy :=
  let c := P.cur d
  let s := P.step d
  { P with
    posting := none
    step := Function.update P.step d (s + 1)
    wqe := fun d' i => if d' = d ∧ i = P.posted d then (c, s) else P.wqe d' i
    ring := fun d' i =>
      if d' = d ∧ i = P.posted d % itemRing then
        if s < (R.calls c).staged d then some (R.stageAt d c s) else none
      else P.ring d' i
    posted := Function.update P.posted d (P.posted d + 1) }

/-- One completion of `drain`. -/
def Proxy.drain (d : Dir) : Proxy :=
  { P with
    done := Function.update P.done d (P.done d + 1)
    sendDone := Function.update P.sendDone d
      (match P.ring d (P.done d % itemRing) with
      | some gi => gi + 1
      | none => P.sendDone d) }

end Proxy

/-! ## The queue pairs -/

section Wire

variable (R : Ring) (I : Inbox)

/-- The chunk of step `s` of call `c` is written to its receive slot. -/
def Inbox.land (d : Dir) (c s : Nat) : Inbox :=
  let g := R.calls c
  { I with
    recv := fun π d' row =>
      if π = parity c ∧ d' = d ∧ s * g.cr ≤ row ∧ row < s * g.cr + g.chunkLen (sendStep g d s).chunk
      then some (c, s, row - s * g.cr) else I.recv π d' row }

/-- The flag of step `s` of call `c` is written. -/
def Inbox.raise (d : Dir) (c s : Nat) : Inbox :=
  { I with
    rflag := fun π d' s' => if π = parity c ∧ d' = d ∧ s' = s then seq c else I.rflag π d' s' }

end Wire

/-! ## Events -/

inductive Event (R : Ring) where
  | enqueue (r : Rank)
  | launch (r : Rank)
  | fetch (r : Rank) (b : Fin R.grid)
  | pass (r : Rank) (b : Fin R.grid) (u k : Nat)
  | copy (r : Rank) (b : Fin R.grid) (u : Nat)
  | publish (r : Rank) (b : Fin R.grid) (u : Nat)
  | retire (r : Rank)
  | take (r : Rank) (d : Dir)
  | leave (r : Rank) (d : Dir)
  | begin (r : Rank) (d : Dir)
  | post (r : Rank) (d : Dir)
  | drain (r : Rank) (d : Dir)
  | land (r : Rank) (d : Dir)
  | raise (r : Rank) (d : Dir)

section Step

variable {R : Ring} (w : World R)

/-- The event can happen. -/
def enabled : Event R → Prop
  | .enqueue r =>
    (w.proxy r).queued < R.count ∧ (w.proxy r).queued = (w.gpu r).launched ∧
      (w.proxy r).queued - min ((w.proxy r).head .fwd) ((w.proxy r).head .bwd) < qCap
  | .launch r => (w.gpu r).launched < (w.proxy r).queued
  | .fetch r b => (w.gpu r).kernel < (w.gpu r).launched ∧ (w.gpu r).cta b = .idle
  | .pass r b u k =>
    (w.gpu r).cta b = .wait u k ∧ passes R (w.gpu r) (w.proxy r) (w.inbox r) u k = true
  | .copy r b u => (w.gpu r).cta b = .work u
  | .publish r b u => (w.gpu r).cta b = .publish u
  | .retire r => (w.gpu r).kernel < (w.gpu r).launched ∧ ∀ b, (w.gpu r).cta b = .exited
  | .take r d =>
    (w.proxy r).posting = none ∧ (w.proxy r).busy d = false ∧
      (w.proxy r).head d < (w.proxy r).queued
  | .leave r d =>
    (w.proxy r).posting = none ∧ (w.proxy r).busy d = true ∧
      (R.calls ((w.proxy r).cur d)).steps d ≤ (w.proxy r).step d
  | .begin r d =>
    (w.proxy r).posting = none ∧ (w.proxy r).busy d = true ∧
      (w.proxy r).step d < (R.calls ((w.proxy r).cur d)).steps d ∧
      sendable R (w.gpu r) (w.proxy r) (w.inbox r) d = true
  | .post r d =>
    (w.proxy r).posting = some d ∧ (w.proxy r).posted d - (w.proxy r).done d < itemRing - 1
  | .drain r d => (w.proxy r).done d < (w.proxy r).flagged d
  | .land r d =>
    (w.proxy r).data d < (w.proxy r).posted d ∧ (w.proxy r).data d = (w.proxy r).flagged d
  | .raise r d => (w.proxy r).flagged d < (w.proxy r).data d

instance (e : Event R) : Decidable (enabled w e) := by
  cases e <;> unfold enabled <;> infer_instance

/-- Rank `r`'s kernels change. -/
def World.setGpu (r : Rank) (G : Gpu R.grid) : World R :=
  { w with gpu := Function.update w.gpu r G }

/-- Rank `r`'s proxy changes. -/
def World.setProxy (r : Rank) (P : Proxy) : World R :=
  { w with proxy := Function.update w.proxy r P }

/-- Rank `r`'s memory is written to. -/
def World.setInbox (r : Rank) (I : Inbox) : World R :=
  { w with inbox := Function.update w.inbox r I }

/-- What an event does. -/
def fire : Event R → World R
  | .enqueue r => w.setProxy r (w.proxy r).enqueue
  | .launch r => w.setGpu r { w.gpu r with launched := (w.gpu r).launched + 1 }
  | .fetch r b => w.setGpu r ((w.gpu r).fetch R b)
  | .pass r b u k => w.setGpu r ((w.gpu r).pass R b u k)
  | .copy r b u => w.setGpu r ((w.gpu r).copy R b u)
  | .publish r b u => w.setGpu r ((w.gpu r).publish R b u)
  | .retire r => w.setGpu r ((w.gpu r).retire R)
  | .take r d => w.setProxy r ((w.proxy r).take d)
  | .leave r d => w.setProxy r ((w.proxy r).leave d)
  | .begin r d => w.setProxy r ((w.proxy r).begin d)
  | .post r d => w.setProxy r ((w.proxy r).post R d)
  | .drain r d => w.setProxy r ((w.proxy r).drain d)
  | .land r d =>
    let P := w.proxy r
    let e := P.wqe d (P.data d)
    (w.setProxy r { P with data := Function.update P.data d (P.data d + 1) }).setInbox
      (receiver r d)
      ((w.inbox (receiver r d)).land R d e.1 e.2)
  | .raise r d =>
    let P := w.proxy r
    let e := P.wqe d (P.flagged d)
    (w.setProxy r { P with flagged := Function.update P.flagged d (P.flagged d + 1) }).setInbox
      (receiver r d) ((w.inbox (receiver r d)).raise d e.1 e.2)

/-- One event; one that cannot happen does nothing. -/
def step (e : Event R) : World R := if enabled w e then fire w e else w

end Step

/-- The state a history of events leads to. -/
def after (R : Ring) (h : List (Event R)) : World R := run step (World.init R) h

end Ringside.PrefillRing.Protocol

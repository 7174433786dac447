import Ringside.Run
import Ringside.PrefillRing.Geometry

/-!
# What a prefill ring call computes (`prb_kernel`)

One call on four ranks: each rank works off its items in order, an item when the chunks it consumes
have landed, and posts the steps of a direction in order. This file says what the items compute:
which value each output row gets, from which inputs and in which association, whatever the order in
which the four ranks go on.

* A row of the tensors is an abstract value and `add` the rounded addition of two rows, so nothing
  here may reassociate or commute.
* `doItem` is an item of the kernel with all its parts, `payload` what a send step carries,
  `deliver` and `post` the chunk and its flag landing.
* An output row keeps every value written to it, so that a second write would show.
* A staged chunk keeps its own memory here; the slots, the queues and the threads are in `Protocol`.
* `Carries` and `result` are the specification, by recursion on the steps. They are functions of the
  inputs and the geometry.

Results:
* `carries_*`: what a step carries, as an expression over the four inputs.
* `covers_unique`, `exists_covers`: every output row is written by one item.
* `invariant_run`: memory holds what was sent, and every item done has written its rows once.
* `finished_of_stuck`: a state where nothing can happen is the end of the call.
* `ring_collective`: every run ends after a fixed number of events, and with NCCL's association.

Out of scope: the tensors' element type, and the copies of a chunk by the threads of a block.
-/

namespace Ringside.PrefillRing.Collective

open Ringside.Run Ringside.Merge

variable {V : Type}

/-- What one rank holds during a call. -/
structure Node (V : Type) where
  /-- Items done. -/
  pc : Nat
  ready : Dir → Nat → Bool
  stage : Dir → Nat → Nat → V
  posted : Dir → Nat
  recv : Dir → Nat → V
  rflag : Dir → Nat → Bool
  /-- What was written to each output row, oldest first. -/
  out : Nat → List V

abbrev World (V : Type) := Rank → Node V

/-! ## The kernel

An item is done at once here, all its parts together; that they are done by several thread blocks is
the matter of `Protocol`. An output row is a list of what was written to it, so that writing a row
twice shows.
-/

/-- `(rank + 4 + blk_off) & 3`. -/
def blk (r : Rank) (off : Int) : Nat := ((r.val : Int) + 4 + off).toNat % 4

/-- Row `i` of the chunk a send step reads from the local input. -/
def srcRow (g : Geometry) (r : Rank) (st : Step) (i : Nat) : Nat :=
  (if g.kind = .rs then blk r st.blkOff * g.q else 0) + chunkStart g st.chunk + i

/-- Row `i` of receive slot `s`. -/
def recvRow (g : Geometry) (s i : Nat) : Nat := s * g.cr + i

section Kernel

variable (g : Geometry) (add : V → V → V) (x : Rank → Nat → V)

/-- Row `i` of what a staged send step puts into its slot. -/
def stageRow (r : Rank) (n : Node V) (d : Dir) (j i : Nat) : V :=
  let st := sendStep g d j
  match st.src, st.dep with
  | .red, some s => add (n.recv d (recvRow g s i)) (x r (srcRow g r st i))
  | _, _ => x r (srcRow g r st i)

/-- The block of the output an item writes to. -/
def outBlock (r : Rank) : ItemKind → Option Nat
  | .stageF => if g.kind = .ag then some r.val else none
  | .stageB => none
  | .outA | .outB => some 0
  | .outPrev => some ((r.val + 3) % 4)
  | .outNext => some ((r.val + 1) % 4)
  | .outFarF | .outFarB => some ((r.val + 2) % 4)

/-- Row `i` of what an item writes to the output. -/
def outRow (r : Rank) (n : Node V) (kind : ItemKind) (j i : Nat) : V :=
  let c0 := chunkStart g (itemChunk g kind j)
  match kind with
  | .stageF | .stageB => x r (c0 + i)
  | .outA => add (n.recv .fwd (recvRow g (2 * g.na + g.nb + j) i)) (x r (r.val * g.q + c0 + i))
  | .outB =>
    add (add (n.recv .bwd (recvRow g (g.nb + j) i)) (n.recv .fwd (recvRow g (fbStep g j) i)))
      (x r (r.val * g.q + c0 + i))
  | .outPrev => n.recv .fwd (recvRow g j i)
  | .outNext => n.recv .bwd (recvRow g j i)
  | .outFarF => n.recv .fwd (recvRow g (g.nc + j) i)
  | .outFarB => n.recv .bwd (recvRow g (g.nc + j) i)

/-- The output row is one of those the item writes. -/
def Covers (r : Rank) (it : Item ItemKind) (ρ : Nat) : Prop :=
  ∃ b, outBlock g r it.kind = some b ∧
    b * g.q + chunkStart g (itemChunk g it.kind it.index) ≤ ρ ∧
    ρ < b * g.q + chunkStart g (itemChunk g it.kind it.index + 1)

/-- One item, all its parts. -/
def doItem (r : Rank) (n : Node V) (it : Item ItemKind) : Node V :=
  let c := itemChunk g it.kind it.index
  { n with
    pc := n.pc + 1
    ready := fun d j => if stageDir it.kind = some d ∧ it.index = j then true else n.ready d j
    stage := fun d j i =>
      if stageDir it.kind = some d ∧ it.index = j ∧ i < g.chunkLen c then stageRow g add x r n d j i
      else n.stage d j i
    out := fun ρ =>
      match outBlock g r it.kind with
      | none => n.out ρ
      | some b =>
        let first := b * g.q + chunkStart g c
        if first ≤ ρ ∧ ρ < b * g.q + chunkStart g (c + 1) then
          n.out ρ ++ [outRow g add x r n it.kind it.index (ρ - first)]
        else n.out ρ }

/-! ## The four ranks

A rank does its items in the order of the ticket counter, and the proxy posts the steps of a
direction in order. Between the ranks and the two directions any order is possible.
-/

/-- Row `i` of what step `s` sends: the staged chunk, or for a relay what came in. -/
def payload (n : Node V) (d : Dir) (s i : Nat) : V :=
  if s < g.staged d then n.stage d s i
  else
    match (sendStep g d s).dep with
    | some s' => n.recv d (recvRow g s' i)
    | none => n.stage d s i

/-- The payload of step `s` and its flag land. -/
def deliver (n : Node V) (d : Dir) (s : Nat) (p : Nat → V) : Node V :=
  { n with
    recv := fun d' row =>
      if d' = d ∧ recvRow g s 0 ≤ row ∧ row < recvRow g s 0 + g.chunkLen (sendStep g d s).chunk then
        p (row - recvRow g s 0)
      else n.recv d' row
    rflag := fun d' s' => if d' = d ∧ s' = s then true else n.rflag d' s' }

/-- The next step of direction `d` is posted and lands. -/
def post (w : World V) (r : Rank) (d : Dir) : World V :=
  let n := w r
  let s := n.posted d
  let w' := Function.update w r { n with posted := Function.update n.posted d (s + 1) }
  Function.update w' (receiver r d) (deliver g (w' (receiver r d)) d s (payload g n d s))

inductive Event where
  | item (r : Rank)
  | post (r : Rank) (d : Dir)

/-- Step `s` has what it sends. -/
def sendable (n : Node V) (d : Dir) (s : Nat) : Bool :=
  if s < g.staged d then n.ready d s
  else
    match (sendStep g d s).dep with
    | some s' => n.rflag d s'
    | none => false

/-- The next item of the rank, when the chunks it consumes have landed. -/
def nextItem (n : Node V) : Option (Item ItemKind) :=
  if n.pc < g.items then
    match itemAt g n.pc with
    | some it =>
      if (itemDeps g it.kind it.index).all (fun p => n.rflag p.1 p.2) then some it else none
    | none => none
  else none

/-- The event can happen. -/
def enabled (w : World V) : Event → Bool
  | .item r => (nextItem g (w r)).isSome
  | .post r d => decide ((w r).posted d < g.steps d) && sendable g (w r) d ((w r).posted d)

/-- What an event does; one that cannot happen does nothing. -/
def step (w : World V) (e : Event) : World V :=
  match e with
  | .item r =>
    match nextItem g (w r) with
    | some it => Function.update w r (doItem g add x r (w r) it)
    | none => w
  | .post r d =>
    if (w r).posted d < g.steps d ∧ sendable g (w r) d ((w r).posted d) = true then post g w r d
    else w

/-- Before the call: no flag, nothing done; the memory holds anything. -/
structure Fresh (w : World V) : Prop where
  pc : ∀ r, (w r).pc = 0
  ready : ∀ r d j, (w r).ready d j = false
  posted : ∀ r d, (w r).posted d = 0
  rflag : ∀ r d s, (w r).rflag d s = false
  out : ∀ r ρ, (w r).out ρ = []

/-- The rank has done its items and posted its steps. -/
def finished (n : Node V) : Prop := n.pc = g.items ∧ ∀ d, n.posted d = g.steps d

end Kernel

/-! ## What a step carries

A step carries a row of the rank's own input, the sum of such a row and the one that came in, or
what came in as it is. The chains are resolved from the first kind to the last, by the equations of
the schedule, into sums over named ranks.
-/

section Carries

variable (g : Geometry) (add : V → V → V) (x : Rank → Nat → V)

/-- Row `i` of what rank `r` sends at step `s` has the value `v`. -/
inductive Carries : Rank → Dir → Nat → Nat → V → Prop
  | raw {r d s i} (h : (sendStep g d s).src = .raw) :
    Carries r d s i (x r (srcRow g r (sendStep g d s) i))
  | red {r d s s' i v} (h : (sendStep g d s).src = .red) (hd : (sendStep g d s).dep = some s')
    (hv : Carries (sender r d) d s' i v) :
    Carries r d s i (add v (x r (srcRow g r (sendStep g d s) i)))
  | relay {r d s s' i v} (h : (sendStep g d s).src = .relay)
    (hd : (sendStep g d s).dep = some s') (hv : Carries (sender r d) d s' i v) : Carries r d s i v

variable {g add x}

theorem carries_raw {r : Rank} {d : Dir} {s i c : Nat} {o : Int} {v : V}
    (h : Carries g add x r d s i v) (hp : Piece g d s ⟨c, .raw, o, none⟩) :
    v = x r (srcRow g r ⟨c, .raw, o, none⟩ i) := by
  have hs := sendStep_piece hp
  cases h with
  | raw _ => rw [hs]
  | red h | relay h => simp [hs] at h

theorem carries_red {r : Rank} {d : Dir} {s s' i c : Nat} {o : Int} {v : V}
    (h : Carries g add x r d s i v) (hp : Piece g d s ⟨c, .red, o, some s'⟩) :
    ∃ u, Carries g add x (sender r d) d s' i u ∧
      v = add u (x r (srcRow g r ⟨c, .red, o, some s'⟩ i)) := by
  have hs := sendStep_piece hp
  cases h with
  | red _ hd hv =>
    rw [hs] at hd
    obtain rfl := Option.some.inj hd
    exact ⟨_, hv, by rw [hs]⟩
  | raw h | relay h => simp [hs] at h

theorem carries_relay {r : Rank} {d : Dir} {s s' i c : Nat} {o : Int} {v : V}
    (h : Carries g add x r d s i v) (hp : Piece g d s ⟨c, .relay, o, some s'⟩) :
    Carries g add x (sender r d) d s' i v := by
  have hs := sendStep_piece hp
  cases h with
  | relay _ hd hv =>
    rw [hs] at hd
    obtain rfl := Option.some.inj hd
    exact hv
  | raw h | red h => simp [hs] at h

theorem prv_eq : ∀ j : Rank, prv j = j + 3 := by decide

theorem nxt_eq : ∀ j : Rank, nxt j = j + 1 := by decide

theorem sender_fwd : ∀ j : Rank, sender (j + 3) .fwd = j + 2 ∧ sender (j + 2) .fwd = j + 1 := by
  decide

theorem sender_bwd : ∀ j : Rank, sender (j + 1) .bwd = j + 2 := by decide

theorem ofNat_prev : ∀ r : Rank, Fin.ofNat 4 ((r.val + 3) % 4) = sender r .fwd := by decide

theorem ofNat_next : ∀ r : Rank, Fin.ofNat 4 ((r.val + 1) % 4) = sender r .bwd := by decide

theorem ofNat_far : ∀ (r : Rank),
    Fin.ofNat 4 ((r.val + 2) % 4) = sender (sender r .fwd) .fwd ∧
      Fin.ofNat 4 ((r.val + 2) % 4) = sender (sender r .bwd) .bwd := by decide

theorem blk_prev : ∀ j : Rank, blk (j + 3) 1 = j.val := by decide

theorem blk_opposite : ∀ j : Rank, blk (j + 2) (-2) = j.val := by decide

theorem blk_next : ∀ j : Rank, blk (j + 1) (-1) = j.val := by decide

/-- The row of the input a reduce-scatter step reads: row `ρ` of block `b`. -/
theorem srcRow_rs (hk : g.kind = .rs) {r : Rank} {st : Step} {b : Rank}
    (hb : blk r st.blkOff = b.val) (i : Nat) :
    srcRow g r st i = b.val * g.q + (chunkStart g st.chunk + i) := by
  simp only [srcRow, if_pos hk, hb, Nat.add_assoc]

theorem srcRow_ag (hk : g.kind = .ag) (r : Rank) (st : Step) (i : Nat) :
    srcRow g r st i = chunkStart g st.chunk + i := by
  simp [srcRow, hk]

/-- The first chain: `(x[j+1] + x[j+2]) + x[j+3]` reaches rank `j` with the last forward steps. -/
theorem carries_fa2 (hk : g.kind = .rs) {j : Rank} {c i : Nat} {v : V} (hc : c < g.na)
    (h : Carries g add x (prv j) .fwd (2 * g.na + g.nb + c) i v) :
    v = add (add (x (j + 1) (j.val * g.q + (chunkStart g c + i)))
      (x (j + 2) (j.val * g.q + (chunkStart g c + i))))
        (x (j + 3) (j.val * g.q + (chunkStart g c + i))) := by
  obtain ⟨u, hu, rfl⟩ := carries_red h (.fa2 hk hc)
  obtain ⟨w, hw, rfl⟩ := carries_red hu (.fa1 hk hc)
  obtain rfl := carries_raw hw (.fa0 hk hc)
  rw [prv_eq, (sender_fwd j).1, (sender_fwd j).2, srcRow_rs hk (blk_next j),
    srcRow_rs hk (blk_opposite j), srcRow_rs hk (blk_prev j)]

/-- The second chain: `x[j+2] + x[j+1]` reaches rank `j` backward. -/
theorem carries_bb2 (hk : g.kind = .rs) {j : Rank} {c i : Nat} {v : V} (hc : c < g.nb)
    (h : Carries g add x (nxt j) .bwd (g.nb + c) i v) :
    v = add (x (j + 2) (j.val * g.q + (chunkStart g (g.na + c) + i)))
      (x (j + 1) (j.val * g.q + (chunkStart g (g.na + c) + i))) := by
  obtain ⟨u, hu, rfl⟩ := carries_red h (.bb2 hk hc)
  obtain rfl := carries_raw hu (.bb1 hk hc)
  rw [nxt_eq, sender_bwd, srcRow_rs hk (blk_opposite j), srcRow_rs hk (blk_next j)]

/-- The second chain: `x[j+3]` reaches rank `j` forward. -/
theorem carries_fb (hk : g.kind = .rs) {j : Rank} {c i : Nat} {v : V} (hc : c < g.nb)
    (h : Carries g add x (prv j) .fwd (fbStep g c) i v) :
    v = x (j + 3) (j.val * g.q + (chunkStart g (g.na + c) + i)) := by
  rw [prv_eq] at h
  by_cases hc' : c < g.nb1
  · rw [fbStep, if_pos hc'] at h
    obtain rfl := carries_raw h (.fb1 hk hc')
    rw [srcRow_rs hk (blk_prev j)]
  · obtain ⟨k, rfl⟩ := Nat.exists_eq_add_of_le (not_lt.mp hc')
    rw [fbStep, if_neg hc'] at h
    obtain rfl := carries_raw h (.fb2 hk hc)
    rw [srcRow_rs hk (blk_prev j)]

end Carries

/-! ## What the memory holds

The invariant has a part for each rank's own work, and a part for what lies between two ranks: a
flag is up exactly for the steps that were posted, and the receive slot of such a step holds what it
carries.
-/

section Memory

variable (g : Geometry) (add : V → V → V) (x : Rank → Nat → V)

/-- What output row `ρ` of rank `r` is to hold. -/
def result (r : Rank) (ρ : Nat) : V :=
  match g.kind with
  | .rs =>
    let own := r.val * g.q + ρ
    add (add (add (x (r + 1) own) (x (r + 2) own)) (x (r + 3) own)) (x r own)
  | .ag => x (Fin.ofNat 4 (ρ / g.q)) (ρ % g.q)

/-- What the items a rank has done have left: staged chunks, and output rows written once. -/
structure Done (r : Rank) (n : Node V) : Prop where
  pc_le : n.pc ≤ g.items
  ready_iff : ∀ d j, n.ready d j = true ↔
    ∃ k < n.pc, ∃ it, itemAt g k = some it ∧ stageDir it.kind = some d ∧ it.index = j
  stage : ∀ d j i, n.ready d j = true → i < g.chunkLen (sendStep g d j).chunk →
    Carries g add x r d j i (n.stage d j i)
  out_nil : ∀ ρ, (∀ k < n.pc, ∀ it, itemAt g k = some it → ¬ Covers g r it ρ) → n.out ρ = []
  out_one : ∀ ρ, ∀ k < n.pc, ∀ it, itemAt g k = some it → Covers g r it ρ →
    n.out ρ = [result g add x r ρ]

/-- Every rank's work is done right, and memory holds what its neighbours sent. -/
structure Inv (w : World V) : Prop where
  done : ∀ r, Done g add x r (w r)
  posted_le : ∀ r d, (w r).posted d ≤ g.steps d
  rflag_iff : ∀ r d s, (w r).rflag d s = true ↔ s < (w (sender r d)).posted d
  recv : ∀ r d s i, s < (w (sender r d)).posted d → i < g.chunkLen (sendStep g d s).chunk →
    Carries g add x (sender r d) d s i ((w r).recv d (recvRow g s i))

variable {g add x}

theorem inv_fresh {w : World V} (h : Fresh w) : Inv g add x w where
  done r := {
    pc_le := by rw [h.pc]; omega
    ready_iff := fun d j => by simp [h.ready, h.pc]
    stage := fun d j i hr => by simp [h.ready] at hr
    out_nil := fun ρ _ => h.out r ρ
    out_one := fun ρ k hk => by simp [h.pc] at hk }
  posted_le r d := by rw [h.posted]; omega
  rflag_iff r d s := by simp [h.rflag, h.posted]
  recv r d s i hs := by simp [h.posted] at hs

/-- Receive slots do not overlap. -/
theorem recvRow_inj {s s' i i' : Nat} (hi : i < g.cr) (hi' : i' < g.cr)
    (h : recvRow g s i = recvRow g s' i') : s = s' ∧ i = i' := by
  unfold recvRow at h
  rcases Nat.lt_trichotomy s s' with hlt | rfl | hlt
  · have : (s + 1) * g.cr ≤ s' * g.cr := Nat.mul_le_mul_right _ hlt
    rw [Nat.succ_mul] at this
    omega
  · exact ⟨rfl, by omega⟩
  · have : (s' + 1) * g.cr ≤ s * g.cr := Nat.mul_le_mul_right _ hlt
    rw [Nat.succ_mul] at this
    omega

/-- A landed chunk is read as it was sent. -/
theorem recv_of_rflag {w : World V} (hw : Inv g add x w) {r : Rank} {d : Dir} {s i : Nat}
    (hf : (w r).rflag d s = true) (hi : i < g.chunkLen (sendStep g d s).chunk) :
    Carries g add x (sender r d) d s i ((w r).recv d (recvRow g s i)) :=
  hw.recv r d s i ((hw.rflag_iff r d s).mp hf) hi

/-! ## The output rows

A rank's items partition the rows that it writes: two items write to one block only if their chunks
differ, and every chunk of a block that the call writes has a writer. This needs no run, only the
schedule.
-/

/-- The item that writes chunk `c` of output block `b`. -/
def writer (g : Geometry) (r : Rank) (b c : Nat) : ItemKind × Nat :=
  match g.kind with
  | .rs => if c < g.na then (.outA, c) else (.outB, c - g.na)
  | .ag =>
    if b = r.val then (.stageF, c)
    else if b = (r.val + 3) % 4 then (.outPrev, c)
    else if b = (r.val + 1) % 4 then (.outNext, if c < g.nh then g.nc - g.nh + c else c - g.nh)
    else if c < g.nh then (.outFarF, c) else (.outFarB, c - g.nh)

/-- An item that writes to a block is the writer of its chunk there. -/
theorem writer_of_block {r : Rank} {k : Nat} {it : Item ItemKind} {b : Nat} (hk : k < g.items)
    (h : itemAt g k = some it) (hb : outBlock g r it.kind = some b) :
    itemChunk g it.kind it.index < g.nc ∧
      writer g r b (itemChunk g it.kind it.index) = (it.kind, it.index) := by
  have hc := item_cases hk h
  have h2 := nh_lt (g := g)
  have h3 : g.nb = g.nc - g.na := rfl
  have h4 := r.isLt
  obtain ⟨kind, j, t⟩ := it
  suffices key : ∃ c, itemChunk g kind j = c ∧ c < g.nc ∧ writer g r b c = (kind, j) by
    obtain ⟨c, rfl, hkey⟩ := key
    exact hkey
  cases hg : g.kind <;> cases kind <;> rw [hg] at hc <;>
    simp only [outBlock, hg, if_true, reduceCtorEq, if_false, Option.some.injEq] at hb hc <;>
    subst hb <;> simp only [writer, hg]
  · have := g.na_eq
    exact ⟨j, rfl, by omega, if_pos hc.1⟩
  · exact ⟨g.na + j, rfl, by omega, by rw [if_neg (by omega), Nat.add_sub_cancel_left]⟩
  · refine ⟨j, ?_, hc.1, if_pos trivial⟩
    simp only [itemChunk, sendStep_piece (.g0f hg hc.1)]
  · exact ⟨j, rfl, hc.1, by rw [if_neg (by omega), if_pos trivial]⟩
  · refine ⟨outNextChunk g j, rfl, ?_⟩
    rw [if_neg (by omega), if_neg (by omega), if_pos trivial]
    unfold outNextChunk
    split
    · rw [if_neg (by omega), Nat.add_sub_cancel_left]
      exact ⟨by omega, rfl⟩
    · rw [if_pos (by omega)]
      exact ⟨by omega, by congr 1; omega⟩
  · refine ⟨j, rfl, by omega, ?_⟩
    rw [if_neg (by omega), if_neg (by omega), if_neg (by omega), if_pos hc.1]
  · refine ⟨g.nh + j, rfl, by omega, ?_⟩
    rw [if_neg (by omega), if_neg (by omega), if_neg (by omega), if_neg (by omega),
      Nat.add_sub_cancel_left]

/-- Two items of the same kind and index are one item. -/
theorem item_eq {k k' : Nat} {it it' : Item ItemKind} (hk : k < g.items) (hk' : k' < g.items)
    (h : itemAt g k = some it) (h' : itemAt g k' = some it')
    (he : (it.kind, it.index) = (it'.kind, it'.index)) : k = k' := by
  have hc := item_cases hk h
  have hc' := item_cases hk' h'
  obtain ⟨kind, j, t⟩ := it
  obtain ⟨kind', j', t'⟩ := it'
  obtain ⟨rfl, rfl⟩ := Prod.mk.inj he
  have ht : t = t' := by
    cases hg : g.kind <;> cases kind <;> rw [hg] at hc hc' <;> simp only at hc hc' <;> omega
  subst ht
  exact item_unique hk hk' h h'

/-- The block and the chunk of a covered row. -/
theorem covers_block {r : Rank} {k : Nat} {it : Item ItemKind} {ρ : Nat} (hk : k < g.items)
    (h : itemAt g k = some it) (hc : Covers g r it ρ) :
    outBlock g r it.kind = some (ρ / g.q) ∧
      chunkStart g (itemChunk g it.kind it.index) ≤ ρ % g.q ∧
      ρ % g.q < chunkStart g (itemChunk g it.kind it.index + 1) := by
  obtain ⟨b, hb, hlo, hhi⟩ := hc
  obtain ⟨hcn, -⟩ := writer_of_block hk h hb
  have hle := chunkStart_le g hcn
  obtain ⟨m, rfl⟩ := Nat.exists_eq_add_of_le ((Nat.le_add_right _ _).trans hlo)
  have hm : m < g.q := by omega
  have hdiv : (b * g.q + m) / g.q = b := by
    rw [Nat.add_comm, Nat.add_mul_div_right _ _ (by omega), Nat.div_eq_of_lt hm, Nat.zero_add]
  have hmod : (b * g.q + m) % g.q = m := by
    rw [Nat.add_comm, Nat.add_mul_mod_self_right, Nat.mod_eq_of_lt hm]
  rw [hdiv, hmod]
  exact ⟨hb, by omega, by omega⟩

/-- **An output row is written by one item only.** -/
theorem covers_unique {r : Rank} {k k' : Nat} {it it' : Item ItemKind} {ρ : Nat}
    (hk : k < g.items) (hk' : k' < g.items) (h : itemAt g k = some it)
    (h' : itemAt g k' = some it') (hc : Covers g r it ρ) (hc' : Covers g r it' ρ) : k = k' := by
  obtain ⟨hb, hlo, hhi⟩ := covers_block hk h hc
  obtain ⟨hb', hlo', hhi'⟩ := covers_block hk' h' hc'
  have hchunk := chunk_unique g hlo hhi hlo' hhi'
  refine item_eq hk hk' h h' ?_
  rw [← (writer_of_block hk h hb).2, ← (writer_of_block hk' h' hb').2, hchunk]

/-- The rows a call writes: one block of a reduce-scatter, four of an all-gather. -/
def outRows (g : Geometry) : Nat :=
  match g.kind with
  | .rs => g.q
  | .ag => 4 * g.q

/-- **Every output row is written by an item.** -/
theorem exists_covers (r : Rank) {ρ : Nat} (hρ : ρ < outRows g) :
    ∃ k < g.items, ∃ it, itemAt g k = some it ∧ Covers g r it ρ := by
  have hq : 0 < g.q := g.nc_pos.trans_le g.nc_le
  have h2 := nh_lt (g := g)
  have h3 : g.nb = g.nc - g.na := rfl
  obtain ⟨c, hc, hlo, hhi⟩ := exists_chunk g (Nat.mod_lt ρ hq)
  have hdm : ρ / g.q * g.q + ρ % g.q = ρ := by rw [Nat.mul_comm]; exact Nat.div_add_mod ρ g.q
  have cover : ∀ st ∈ streams g, ∀ j < st.count, outBlock g r st.kind = some (ρ / g.q) →
      itemChunk g st.kind j = c → ∃ k < g.items, ∃ it, itemAt g k = some it ∧ Covers g r it ρ := by
    intro st hst j hj hb hch
    obtain ⟨k, hk, hit⟩ := exists_item hst hj
    refine ⟨k, hk, _, hit, ρ / g.q, hb, ?_, ?_⟩ <;> rw [hch] <;> omega
  cases hg : g.kind <;> simp only [outRows, hg] at hρ
  · have h0 : ρ / g.q = 0 := Nat.div_eq_of_lt hρ
    by_cases hca : c < g.na
    · exact cover ⟨.outA, 2 * g.na + g.nb + 1, g.na⟩ (by simp [streams, hg]) c hca
        (by simp [outBlock, h0]) rfl
    · exact cover ⟨.outB, g.nb + 1, g.nb⟩ (by simp [streams, hg]) (c - g.na)
        (by simp only; omega) (by simp [outBlock, h0]) (by simp only [itemChunk]; omega)
  · have h4 : ρ / g.q < 4 := (Nat.div_lt_iff_lt_mul hq).mpr hρ
    have hr := r.isLt
    by_cases hb0 : ρ / g.q = r.val
    · exact cover ⟨.stageF, 0, g.nc⟩ (by simp [streams, hg]) c hc (by simp [outBlock, hg, hb0])
        (by simp only [itemChunk]; rw [sendStep_piece (.g0f hg hc)])
    by_cases hb3 : ρ / g.q = (r.val + 3) % 4
    · exact cover ⟨.outPrev, 1, g.nc⟩ (by simp [streams, hg]) c hc (by simp [outBlock, hb3]) rfl
    by_cases hb1 : ρ / g.q = (r.val + 1) % 4
    · by_cases hch : c < g.nh
      · exact cover ⟨.outNext, 1, g.nc⟩ (by simp [streams, hg]) (g.nc - g.nh + c)
          (by simp only; omega) (by simp [outBlock, hb1])
          (by simp only [itemChunk, outNextChunk]; rw [if_neg (by omega)]; omega)
      · exact cover ⟨.outNext, 1, g.nc⟩ (by simp [streams, hg]) (c - g.nh)
          (by simp only; omega) (by simp [outBlock, hb1])
          (by simp only [itemChunk, outNextChunk]; rw [if_pos (by omega)]; omega)
    have hb2 : ρ / g.q = (r.val + 2) % 4 := by
      generalize ρ / g.q = b at h4 hb0 hb1 hb3 ⊢
      omega
    by_cases hch : c < g.nh
    · exact cover ⟨.outFarF, g.nc + 1, g.nh⟩ (by simp [streams, hg]) c hch
        (by simp [outBlock, hb2]) rfl
    · exact cover ⟨.outFarB, g.nc + 1, g.nc - g.nh⟩ (by simp [streams, hg]) (c - g.nh)
        (by simp only; omega) (by simp [outBlock, hb2]) (by simp only [itemChunk]; omega)

/-! ## One event -/

/-- The item that can be done next has all it consumes. -/
theorem nextItem_spec {n : Node V} {it : Item ItemKind} (h : nextItem g n = some it) :
    n.pc < g.items ∧ itemAt g n.pc = some it ∧
      ∀ d s, (d, s) ∈ itemDeps g it.kind it.index → n.rflag d s = true := by
  unfold nextItem at h
  split at h
  · rename_i hpc
    split at h
    · rename_i it' hit
      split at h
      · rename_i hall
        obtain rfl := Option.some.inj h
        exact ⟨hpc, hit, fun d s hd => List.all_eq_true.mp hall (d, s) hd⟩
      · simp at h
    · simp at h
  · simp at h

/-- **What an item writes to the output is the result.** -/
theorem outRow_result (hcomm : ∀ a b, add a b = add b a) {w : World V} (hw : Inv g add x w)
    {r : Rank} {it : Item ItemKind} (h : nextItem g (w r) = some it) {b : Nat}
    (hb : outBlock g r it.kind = some b) {i : Nat}
    (hi : i < g.chunkLen (itemChunk g it.kind it.index)) :
    outRow g add x r (w r) it.kind it.index i =
      result g add x r (b * g.q + (chunkStart g (itemChunk g it.kind it.index) + i)) := by
  obtain ⟨hpc, hit, hdeps⟩ := nextItem_spec h
  have hc := item_cases hpc hit
  have h2 := nh_lt (g := g)
  have hcn := (writer_of_block hpc hit hb).1
  -- what the item reads from a landed chunk
  have read : ∀ d s, (d, s) ∈ itemDeps g it.kind it.index →
      Carries g add x (sender r d) d s i ((w r).recv d (recvRow g s i)) := by
    intro d s hd
    exact recv_of_rflag hw (hdeps d s hd) (by rw [item_dep_chunk hpc hit hd]; exact hi)
  have hq : chunkStart g (itemChunk g it.kind it.index) + i < g.q := by
    have := chunkStart_le g hcn
    unfold Geometry.chunkLen at hi
    rw [chunkRows_eq] at hi
    simp only at hi
    omega
  obtain ⟨kind, j, t⟩ := it
  have block : ∀ m < g.q, (b * g.q + m) / g.q = b ∧ (b * g.q + m) % g.q = m := by
    intro m hm
    rw [Nat.add_comm, Nat.add_mul_div_right _ _ (by omega), Nat.add_mul_mod_self_right,
      Nat.div_eq_of_lt hm, Nat.mod_eq_of_lt hm]
    exact ⟨Nat.zero_add b, rfl⟩
  cases hg : g.kind <;> cases kind <;> rw [hg] at hc <;>
    simp only [outBlock, hg, if_true, reduceCtorEq, if_false, Option.some.injEq] at hb hc <;>
    subst hb <;> simp only [outRow, result, hg]
  · have hv := carries_fa2 hg hc.1 (read .fwd (2 * g.na + g.nb + j) (by simp [itemDeps]))
    rw [hv]
    simp only [itemChunk, Nat.zero_mul, Nat.zero_add, Nat.add_assoc]
  · have hbb := carries_bb2 hg hc.1 (read .bwd (g.nb + j) (by simp [itemDeps]))
    have hfb := carries_fb hg hc.1 (read .fwd (fbStep g j) (by simp [itemDeps]))
    rw [hbb, hfb, hcomm (x (r + 2) _)]
    simp only [itemChunk, Nat.zero_mul, Nat.zero_add, Nat.add_assoc]
  · rw [(block _ hq).1, (block _ hq).2, Fin.ofNat_val_eq_self]
  · have hv := carries_raw (read .fwd j (by simp [itemDeps])) (.g0f hg hc.1)
    rw [(block _ hq).1, (block _ hq).2, ofNat_prev, hv, srcRow_ag hg]
    rfl
  · rw [(block _ hq).1, (block _ hq).2, ofNat_next]
    by_cases hj : j < g.nc - g.nh
    · have hv := carries_raw (read .bwd j (by simp [itemDeps])) (.g0bhi hg (by omega))
      rw [hv, srcRow_ag hg]
      simp only [itemChunk, outNextChunk, if_pos hj]
    · obtain ⟨c, rfl⟩ := Nat.exists_eq_add_of_le (not_lt.mp hj)
      have hv := carries_raw (read .bwd (g.nc - g.nh + c) (by simp [itemDeps]))
        (.g0blo hg (by omega))
      rw [hv, srcRow_ag hg]
      simp only [itemChunk, outNextChunk, if_neg hj, Nat.add_sub_cancel_left]
  · have hv := carries_raw (carries_relay (read .fwd (g.nc + j) (by simp [itemDeps]))
      (.g1f hg hc.1)) (.g0f hg (by omega))
    rw [(block _ hq).1, (block _ hq).2, (ofNat_far r).1, hv, srcRow_ag hg]
    rfl
  · have hv := carries_raw (carries_relay (read .bwd (g.nc + j) (by simp [itemDeps]))
      (.g1b hg (by omega))) (.g0bhi hg (by omega))
    rw [(block _ hq).1, (block _ hq).2, (ofNat_far r).2, hv, srcRow_ag hg]
    rfl

/-- What a staged step puts into its slot is what it carries. -/
theorem stageRow_carries {w : World V} (hw : Inv g add x w) {r : Rank} {it : Item ItemKind}
    (h : nextItem g (w r) = some it) {d : Dir} (hd : stageDir it.kind = some d) {i : Nat}
    (hi : i < g.chunkLen (sendStep g d it.index).chunk) :
    Carries g add x r d it.index i (stageRow g add x r (w r) d it.index i) := by
  obtain ⟨hpc, hit, hdeps⟩ := nextItem_spec h
  obtain ⟨hj, -⟩ := stage_item hpc hit hd
  have hdep : itemDeps g it.kind it.index = stageDeps g d it.index := by
    cases hk : it.kind <;> rw [hk] at hd <;>
      simp only [stageDir, reduceCtorEq, Option.some.injEq] at hd <;> subst hd <;> rfl
  rcases staged_step hj with ⟨hs, hn⟩ | ⟨hs, s', hn⟩
  · simp only [stageRow, hs, hn]
    exact .raw hs
  · have hf := hdeps d s' (by rw [hdep]; exact (mem_stageDeps hj).mpr ⟨rfl, hn⟩)
    simp only [stageRow, hs, hn]
    refine .red hs hn (recv_of_rflag hw hf ?_)
    rw [dep_chunk (hj.trans_le (staged_le d)) hn]
    exact hi

/-- What a step sends is what it carries. -/
theorem payload_carries {w : World V} (hw : Inv g add x w) {r : Rank} {d : Dir} {s : Nat}
    (hs : s < g.steps d) (h : sendable g (w r) d s = true) {i : Nat}
    (hi : i < g.chunkLen (sendStep g d s).chunk) :
    Carries g add x r d s i (payload g (w r) d s i) := by
  unfold sendable at h
  unfold payload
  by_cases hst : s < g.staged d
  · rw [if_pos hst] at h ⊢
    exact (hw.done r).stage d s i h hi
  · rw [if_neg hst] at h ⊢
    obtain ⟨hsrc, s', hdep, -⟩ := relay_step (not_lt.mp hst) hs
    simp only [hdep] at h ⊢
    exact .relay hsrc hdep (recv_of_rflag hw h (by rw [dep_chunk hs hdep]; exact hi))

/-- An item leaves the rank's work done right. -/
theorem done_item (hcomm : ∀ a b, add a b = add b a) {w : World V} (hw : Inv g add x w) {r : Rank}
    {it : Item ItemKind} (h : nextItem g (w r) = some it) :
    Done g add x r (doItem g add x r (w r) it) := by
  obtain ⟨hpc, hit, -⟩ := nextItem_spec h
  have hn := hw.done r
  -- an item done is an earlier one or this one
  have split : ∀ k, k < (w r).pc + 1 → ∀ it', itemAt g k = some it' →
      k < (w r).pc ∨ (k = (w r).pc ∧ it' = it) := by
    intro k hk it' hit'
    rcases Nat.lt_succ_iff_lt_or_eq.mp hk with hlt | rfl
    · exact Or.inl hlt
    · exact Or.inr ⟨rfl, Option.some.inj (hit'.symm.trans hit)⟩
  -- the row this item writes, if it writes one
  have hout : ∀ ρ, (¬ Covers g r it ρ → (doItem g add x r (w r) it).out ρ = (w r).out ρ) ∧
      (Covers g r it ρ →
        (doItem g add x r (w r) it).out ρ = (w r).out ρ ++ [result g add x r ρ]) := by
    intro ρ
    simp only [doItem]
    cases hb : outBlock g r it.kind with
    | none => exact ⟨fun _ => rfl, fun ⟨b, hb', _⟩ => by simp [hb] at hb'⟩
    | some b =>
      simp only
      by_cases hc : b * g.q + chunkStart g (itemChunk g it.kind it.index) ≤ ρ ∧
          ρ < b * g.q + chunkStart g (itemChunk g it.kind it.index + 1)
      · rw [if_pos hc]
        refine ⟨fun hno => absurd ⟨b, hb, hc⟩ hno, fun _ => ?_⟩
        obtain ⟨i, rfl⟩ := Nat.exists_eq_add_of_le hc.1
        rw [Nat.add_sub_cancel_left, outRow_result hcomm hw h hb, Nat.add_assoc]
        unfold Geometry.chunkLen
        rw [chunkRows_eq]
        simp only
        omega
      · rw [if_neg hc]
        refine ⟨fun _ => rfl, fun ⟨b', hb', hc'⟩ => absurd ?_ hc⟩
        obtain rfl := Option.some.inj (hb.symm.trans hb')
        exact hc'
  refine ⟨hpc, fun d j => ?_, fun d j i hr hi => ?_, fun ρ hno => ?_, fun ρ k hk it' hit' hc => ?_⟩
  · simp only [doItem]
    constructor
    · intro hr
      split at hr
      · rename_i hd
        exact ⟨(w r).pc, by omega, it, hit, hd⟩
      · obtain ⟨k, hk, it', h'⟩ := (hn.ready_iff d j).mp hr
        exact ⟨k, by omega, it', h'⟩
    · rintro ⟨k, hk, it', hit', hd⟩
      split
      · rfl
      · rename_i hne
        rcases split k hk it' hit' with hlt | ⟨rfl, rfl⟩
        · exact (hn.ready_iff d j).mpr ⟨k, hlt, it', hit', hd⟩
        · exact absurd hd hne
  · simp only [doItem] at hr ⊢
    by_cases hd : stageDir it.kind = some d ∧ it.index = j
    · obtain ⟨hd, rfl⟩ := hd
      have hch : itemChunk g it.kind it.index = (sendStep g d it.index).chunk := by
        cases hk : it.kind <;> rw [hk] at hd <;>
          simp only [stageDir, reduceCtorEq, Option.some.injEq] at hd <;> subst hd <;> rfl
      rw [if_pos ⟨hd, rfl, by rw [hch]; exact hi⟩]
      exact stageRow_carries hw h hd hi
    · rw [if_neg hd] at hr
      rw [if_neg (fun h' => hd ⟨h'.1, h'.2.1⟩)]
      exact hn.stage d j i hr hi
  · rw [(hout ρ).1 (hno _ (Nat.lt_succ_self _) it hit)]
    exact hn.out_nil ρ fun k hk it' hit' => hno k (Nat.lt_succ_of_lt hk) it' hit'
  · rcases split k hk it' hit' with hlt | ⟨rfl, rfl⟩
    · rw [(hout ρ).1, hn.out_one ρ k hlt it' hit' hc]
      intro hc'
      exact absurd (covers_unique (hlt.trans hpc) hpc hit' hit hc hc') (by omega)
    · rw [(hout ρ).2 hc, hn.out_nil ρ, List.nil_append]
      intro k hlt it'' hit'' hc'
      exact absurd (covers_unique (hlt.trans hpc) hpc hit'' hit hc' hc) (by omega)

/-- An item keeps the invariant. -/
theorem inv_item (hcomm : ∀ a b, add a b = add b a) {w : World V} (hw : Inv g add x w) {r : Rank}
    {it : Item ItemKind} (h : nextItem g (w r) = some it) :
    Inv g add x (Function.update w r (doItem g add x r (w r) it)) := by
  -- an item changes neither what was posted nor what has landed
  have hother : ∀ r', (Function.update w r (doItem g add x r (w r) it) r').posted = (w r').posted ∧
      (Function.update w r (doItem g add x r (w r) it) r').rflag = (w r').rflag ∧
      (Function.update w r (doItem g add x r (w r) it) r').recv = (w r').recv := by
    intro r'
    rcases eq_or_ne r' r with rfl | hr
    · rw [Function.update_self]
      exact ⟨rfl, rfl, rfl⟩
    · rw [Function.update_of_ne hr]
      exact ⟨rfl, rfl, rfl⟩
  refine ⟨fun r' => ?_, fun r' d => ?_, fun r' d s => ?_, fun r' d s i => ?_⟩
  · rcases eq_or_ne r' r with rfl | hr
    · rw [Function.update_self]
      exact done_item hcomm hw h
    · rw [Function.update_of_ne hr]
      exact hw.done r'
  · rw [(hother r').1]
    exact hw.posted_le r' d
  · rw [(hother r').2.1, (hother _).1]
    exact hw.rflag_iff r' d s
  · rw [(hother _).1, (hother r').2.2]
    exact hw.recv r' d s i

/-! ## One step sent -/

theorem receiver_ne : ∀ (r : Rank) (d : Dir), receiver r d ≠ r := by
  intro r d
  cases d <;> revert r <;> decide

theorem post_posted (w : World V) (r : Rank) (d : Dir) (r' : Rank) (d' : Dir) :
    (post g w r d r').posted d' =
      if r' = r ∧ d' = d then (w r).posted d + 1 else (w r').posted d' := by
  simp only [post, Function.update_apply, receiver_ne, if_false]
  by_cases h1 : r' = receiver r d
  · subst h1
    simp [deliver, receiver_ne]
  · rw [if_neg h1]
    by_cases h2 : r' = r <;> by_cases h3 : d' = d <;> simp [h2, h3]

theorem post_rflag (w : World V) (r : Rank) (d : Dir) (r' : Rank) (d' : Dir) (s : Nat) :
    (post g w r d r').rflag d' s =
      if r' = receiver r d ∧ d' = d ∧ s = (w r).posted d then true else (w r').rflag d' s := by
  simp only [post, Function.update_apply, receiver_ne, if_false]
  by_cases h1 : r' = receiver r d
  · subst h1
    simp [deliver]
  · simp only [h1, false_and, if_false]
    split
    · subst_vars
      rfl
    · rfl

theorem post_recv (w : World V) (r : Rank) (d : Dir) (r' : Rank) (d' : Dir) (row : Nat) :
    (post g w r d r').recv d' row =
      if r' = receiver r d ∧ d' = d ∧ recvRow g ((w r).posted d) 0 ≤ row ∧
          row < recvRow g ((w r).posted d) 0 + g.chunkLen (sendStep g d ((w r).posted d)).chunk then
        payload g (w r) d ((w r).posted d) (row - recvRow g ((w r).posted d) 0)
      else (w r').recv d' row := by
  simp only [post, Function.update_apply, receiver_ne, if_false]
  by_cases h1 : r' = receiver r d
  · subst h1
    simp [deliver]
  · simp only [h1, false_and, if_false]
    split
    · subst_vars
      rfl
    · rfl

theorem post_same (w : World V) (r : Rank) (d : Dir) (r' : Rank) :
    (post g w r d r').pc = (w r').pc ∧ (post g w r d r').ready = (w r').ready ∧
      (post g w r d r').stage = (w r').stage ∧ (post g w r d r').out = (w r').out := by
  simp only [post, Function.update_apply, receiver_ne, if_false]
  split
  · subst_vars
    exact ⟨rfl, rfl, rfl, rfl⟩
  · split
    · subst_vars
      exact ⟨rfl, rfl, rfl, rfl⟩
    · exact ⟨rfl, rfl, rfl, rfl⟩

/-- Sending leaves every rank's own work as it is. -/
theorem done_post {w : World V} (hw : Inv g add x w) (r : Rank) (d : Dir) (r' : Rank) :
    Done g add x r' (post g w r d r') := by
  have h := hw.done r'
  obtain ⟨hpc, hready, hstage, hout⟩ := post_same (g := g) w r d r'
  refine ⟨?_, ?_, ?_, ?_, ?_⟩ <;> simp only [hpc, hready, hstage, hout]
  · exact h.pc_le
  · exact h.ready_iff
  · exact h.stage
  · exact h.out_nil
  · exact h.out_one

/-- A step sent keeps the invariant. -/
theorem inv_post {w : World V} (hw : Inv g add x w) {r : Rank} {d : Dir}
    (hs : (w r).posted d < g.steps d) (h : sendable g (w r) d ((w r).posted d) = true) :
    Inv g add x (post g w r d) := by
  refine ⟨done_post hw r d, fun r' d' => ?_, fun r' d' s => ?_, fun r' d' s i => ?_⟩
  · rw [post_posted]
    split
    · rename_i he
      rw [he.2]
      exact hs
    · exact hw.posted_le r' d'
  · rw [post_rflag, post_posted]
    have hold := hw.rflag_iff r' d' s
    by_cases hr : r' = receiver r d ∧ d' = d
    · obtain ⟨rfl, rfl⟩ := hr
      rw [sender_receiver] at hold ⊢
      simp only [true_and, and_self, if_true]
      split
      · simp_all
      · rw [hold]
        omega
    · have hr' : ¬ (sender r' d' = r ∧ d' = d) := by
        rintro ⟨rfl, rfl⟩
        exact hr ⟨(receiver_sender r' d').symm, rfl⟩
      rw [if_neg (fun he => hr ⟨he.1, he.2.1⟩), if_neg hr']
      exact hold
  · rw [post_recv, post_posted]
    intro hlt hi
    have hlen := chunkLen_le g (sendStep g d' s).chunk
    by_cases hr : r' = receiver r d ∧ d' = d
    · obtain ⟨rfl, rfl⟩ := hr
      have hold := hw.recv (receiver r d') d' s i
      rw [sender_receiver] at hlt hold ⊢
      simp only [true_and, and_self, if_true] at hlt ⊢
      by_cases hps : s = (w r).posted d'
      · subst hps
        have he : recvRow g ((w r).posted d') i = recvRow g ((w r).posted d') 0 + i := by
          simp [recvRow]
        rw [he, if_pos ⟨by omega, by omega⟩, Nat.add_sub_cancel_left]
        exact payload_carries hw hs h hi
      · rw [if_neg]
        · exact hold (by omega) hi
        rintro ⟨hlo, hhi⟩
        obtain ⟨k, hk⟩ := Nat.exists_eq_add_of_le hlo
        have hlen' := chunkLen_le g (sendStep g d' ((w r).posted d')).chunk
        have hkcr : k < g.cr := by omega
        refine hps (recvRow_inj (hi.trans_le hlen) hkcr ?_).1
        rw [hk]
        simp [recvRow]
    · have hr' : ¬ (sender r' d' = r ∧ d' = d) := by
        rintro ⟨rfl, rfl⟩
        exact hr ⟨(receiver_sender r' d').symm, rfl⟩
      rw [if_neg hr'] at hlt
      rw [if_neg (fun he => hr ⟨he.1, he.2.1⟩)]
      exact hw.recv r' d' s i hlt hi

/-! ## Whole runs -/

theorem inv_step (hcomm : ∀ a b, add a b = add b a) (w : World V) (e : Event)
    (hw : Inv g add x w) : Inv g add x (step g add x w e) := by
  cases e with
  | item r =>
    simp only [step]
    split
    · exact inv_item hcomm hw ‹_›
    · exact hw
  | post r d =>
    simp only [step]
    split
    · rename_i h
      exact inv_post hw h.1 h.2
    · exact hw

/-- **The invariant holds after every run.** -/
theorem invariant_run (hcomm : ∀ a b, add a b = add b a) {w : World V} (hw : Fresh w)
    (h : List Event) : Inv g add x (run (step g add x) w h) :=
  invariant (inv_fresh hw) (inv_step hcomm) h

/-- A rank whose items are done has written every output row once, and right. -/
theorem out_of_done {r : Rank} {n : Node V} (hn : Done g add x r n) (hpc : n.pc = g.items) {ρ : Nat}
    (hρ : ρ < outRows g) : n.out ρ = [result g add x r ρ] := by
  obtain ⟨k, hk, it, hit, hc⟩ := exists_covers r hρ
  exact hn.out_one ρ k (by omega) it hit hc

/-! ## Every run ends

Each event that can happen is one more item done or step posted, and there are finitely many of
both. So a run does not go on forever, and what is left is that it does not stop early: by induction
on the step, everything of an earlier step is done where nothing can happen.
-/

/-- By induction on the step: a state where nothing can happen has done it. -/
theorem done_of_stuck {w : World V} (hw : Inv g add x w) (hstuck : ∀ e, enabled g w e = false)
    (t : Nat) (r : Rank) :
    (∀ k < g.items, ∀ it, itemAt g k = some it → it.step < t → k < (w r).pc) ∧
      ∀ d, ∀ s < g.steps d, s < t → s < (w r).posted d := by
  induction t generalizing r with
  | zero => exact ⟨fun _ _ _ _ h => absurd h (by omega), fun _ _ _ h => absurd h (by omega)⟩
  | succ t ih =>
    have hflag : ∀ r d s, s < g.steps d → s < t → (w r).rflag d s = true := fun r d s hs hst =>
      (hw.rflag_iff r d s).mpr ((ih (sender r d)).2 d s hs hst)
    have hitems : ∀ k < g.items, ∀ it, itemAt g k = some it → it.step < t + 1 → k < (w r).pc := by
      intro k hk it hit hstep
      by_contra hlt
      have hpc : (w r).pc < g.items := by omega
      obtain ⟨it', -, hit', -⟩ := itemAt_spec hpc
      have hle := item_step_mono (not_lt.mp hlt) hk hit' hit
      have hdeps : (itemDeps g it'.kind it'.index).all (fun p => (w r).rflag p.1 p.2) = true := by
        rw [List.all_eq_true]
        rintro ⟨d, s⟩ hd
        obtain ⟨hlt', hs⟩ := item_dep_lt hpc hit' hd
        exact hflag r d s hs (by omega)
      have := hstuck (.item r)
      simp [enabled, nextItem, hpc, hit', hdeps] at this
    refine ⟨hitems, fun d s hs hst => ?_⟩
    by_contra hlt
    have hp : (w r).posted d < g.steps d := by omega
    have hsend : sendable g (w r) d ((w r).posted d) = true := by
      unfold sendable
      split
      · rename_i hstaged
        obtain ⟨k, hk, it, hit, hd, hidx⟩ := exists_stage_item hstaged
        have hstep := (stage_item hk hit hd).2
        exact ((hw.done r).ready_iff d _).mpr
          ⟨k, hitems k hk it hit (by omega), it, hit, hd, hidx⟩
      · rename_i hstaged
        obtain ⟨-, s', hdep, hlt', hst'⟩ := relay_step (not_lt.mp hstaged) hp
        simp only [hdep]
        exact hflag r d s' (hst'.trans_le (staged_le d)) (by omega)
    have := hstuck (.post r d)
    simp [enabled, hp, hsend] at this

/-- **A state where nothing can happen is the end of the call.** -/
theorem finished_of_stuck {w : World V} (hw : Inv g add x w)
    (hstuck : ∀ e, enabled g w e = false) (r : Rank) : finished g (w r) := by
  refine ⟨le_antisymm ((hw.done r).pc_le) ?_, fun d => le_antisymm (hw.posted_le r d) ?_⟩
  · by_contra hlt
    obtain ⟨it, -, hit, -⟩ := itemAt_spec (not_le.mp hlt)
    exact lt_irrefl _ ((done_of_stuck hw hstuck (it.step + 1) r).1 _ (not_le.mp hlt) it
      hit (by omega))
  · by_contra hlt
    exact lt_irrefl _ ((done_of_stuck hw hstuck (g.steps d) r).2 d _ (not_le.mp hlt)
      (not_le.mp hlt))

/-- Items done and steps posted by one rank. -/
def nodeWork (n : Node V) : Nat := n.pc + n.posted .fwd + n.posted .bwd

/-- Items done and steps posted. -/
def work (w : World V) : Nat := ∑ r, nodeWork (w r)

/-- One rank's piece of work is one piece of work. -/
theorem work_succ {w w' : World V} (r : Rank) (hr : nodeWork (w' r) = nodeWork (w r) + 1)
    (hne : ∀ r' ≠ r, nodeWork (w' r') = nodeWork (w r')) : work w' = work w + 1 := by
  have hrest : ∑ r' ∈ Finset.univ.erase r, nodeWork (w' r') =
      ∑ r' ∈ Finset.univ.erase r, nodeWork (w r') :=
    Finset.sum_congr rfl fun r' hr' => hne r' (Finset.ne_of_mem_erase hr')
  have h := Finset.add_sum_erase Finset.univ (fun r => nodeWork (w r)) (Finset.mem_univ r)
  have h' := Finset.add_sum_erase Finset.univ (fun r => nodeWork (w' r)) (Finset.mem_univ r)
  simp only [work] at *
  omega

/-- An event that can happen is one more piece of work done. -/
theorem work_step (w : World V) {e : Event} (h : enabled g w e = true) :
    work (step g add x w e) = work w + 1 := by
  cases e with
  | item r =>
    obtain ⟨it, hit⟩ := Option.isSome_iff_exists.mp h
    simp only [step, hit]
    refine work_succ r ?_ fun r' hr => by rw [Function.update_of_ne hr]
    rw [Function.update_self]
    simp only [nodeWork, doItem]
    omega
  | post r d =>
    simp only [enabled, Bool.and_eq_true, decide_eq_true_eq] at h
    simp only [step, if_pos h]
    refine work_succ r ?_ fun r' hr => ?_ <;>
      simp only [nodeWork, post_posted, (post_same w r d _).1]
    · cases d <;> simp <;> omega
    · simp [hr]

theorem work_le {w : World V} (hw : Inv g add x w) :
    work w ≤ 4 * (g.items + g.steps .fwd + g.steps .bwd) := by
  have : work w ≤ ∑ _r : Rank, (g.items + g.steps .fwd + g.steps .bwd) := by
    refine Finset.sum_le_sum fun r _ => ?_
    have h1 := (hw.done r).pc_le
    have h2 := hw.posted_le r .fwd
    have h3 := hw.posted_le r .bwd
    unfold nodeWork
    omega
  simpa using this

/-- Every run can be completed. -/
theorem exists_finished (hcomm : ∀ a b, add a b = add b a) {w : World V} (hw : Inv g add x w) :
    ∃ h, ∀ r, finished g (run (step g add x) w h r) := by
  generalize hn : 4 * (g.items + g.steps .fwd + g.steps .bwd) - work w = n
  induction n generalizing w with
  | zero =>
    refine ⟨[], finished_of_stuck hw fun e => ?_⟩
    by_contra he
    have hwork : work (step g add x w e) = work w + 1 := work_step w (eq_true_of_ne_false he)
    have := work_le (inv_step hcomm w e hw)
    omega
  | succ n ih =>
    by_cases hstuck : ∀ e, enabled g w e = false
    · exact ⟨[], finished_of_stuck hw hstuck⟩
    obtain ⟨e, he⟩ := not_forall.mp hstuck
    have hwork : work (step g add x w e) = work w + 1 := work_step w (eq_true_of_ne_false he)
    obtain ⟨h, hfin⟩ := ih (inv_step hcomm w e hw) (by omega)
    exact ⟨e :: h, hfin⟩

/-- How many events of a run did something. -/
def happened (g : Geometry) (add : V → V → V) (x : Rank → Nat → V) (w : World V)
    (h : List Event) : Nat :=
  countFrom (fun past e => enabled g (run (step g add x) w past) e = true) [] h

/-- What happened in a run is the work done. -/
theorem happened_eq_work {w : World V} (hw : Fresh w) (h : List Event) :
    happened g add x w h = work (run (step g add x) w h) := by
  unfold happened
  induction h using List.reverseRecOn with
  | nil => simp [work, nodeWork, hw.pc, hw.posted]
  | append_singleton h e ih =>
    rw [countFrom_snoc, ih, run_snoc, List.nil_append]
    by_cases he : enabled g (run (step g add x) w h) e = true
    · rw [if_pos he, work_step _ he]
    · rw [if_neg he, Nat.add_zero]
      congr 1
      cases e with
      | item r =>
        simp only [enabled, Option.isSome_iff_exists, not_exists] at he
        simp only [step]
        split
        · exact absurd ‹_› (he _)
        · rfl
      | post r d =>
        simp only [enabled, Bool.and_eq_true, decide_eq_true_eq] at he
        simp only [step, if_neg he]

end Memory

/-- `geometry` accepts every positive multiple of four rows and every chunk limit. -/
theorem geometry_of_rows (kind : Kind) {rows crMax : Nat} (hrows : 0 < rows) (h4 : rows % 4 = 0)
    (hcr : 1 ≤ crMax) : ∃ g, geometry kind rows crMax = some g ∧ g.kind = kind ∧ g.rows = rows := by
  unfold geometry
  rw [dif_neg (by omega)]
  exact ⟨_, rfl, rfl, rfl⟩

/-- **The prefill ring has NCCL's association.** For every geometry and every interleaving of the
four ranks, every run of a call ends after a fixed number of events, and at its end every output row
of a reduce-scatter was written once, with `((x[j+1] + x[j+2]) + x[j+3]) + x[j]`, and every output
row of an all-gather once, with the row of its block; a step and an item work on the chunk of the
step they consume. -/
theorem ring_collective (kind : Kind) {rows crMax : Nat} (hrows : 0 < rows) (h4 : rows % 4 = 0)
    (hcr : 1 ≤ crMax) :
    ∃ g, geometry kind rows crMax = some g ∧ g.kind = kind ∧ g.rows = rows ∧
      (∀ d, ∀ s < g.steps d, ∀ s', (sendStep g d s).dep = some s' →
        s' < s ∧ (sendStep g d s').chunk = (sendStep g d s).chunk) ∧
      (∀ k < g.items, ∃ it, itemAt g k = some it ∧
        ∀ d s, (d, s) ∈ itemDeps g it.kind it.index →
          s < g.steps d ∧ (sendStep g d s).chunk = itemChunk g it.kind it.index) ∧
      ∀ (V : Type) (add : V → V → V), (∀ a b, add a b = add b a) →
        ∀ (x : Rank → Nat → V) (w : World V), Fresh w → ∀ h : List Event,
          let w' := run (step g add x) w h
          happened g add x w h ≤ 4 * (g.items + g.steps .fwd + g.steps .bwd) ∧
          ((∀ e, enabled g w' e = false) → ∀ r, finished g (w' r)) ∧
          ∀ r, finished g (w' r) →
            match kind with
            | .rs => ∀ ρ < g.q,
              let own := r.val * g.q + ρ
              (w' r).out ρ =
                [add (add (add (x (r + 1) own) (x (r + 2) own)) (x (r + 3) own)) (x r own)]
            | .ag => ∀ (b : Rank), ∀ ρ < g.q, (w' r).out (b.val * g.q + ρ) = [x b ρ] := by
  obtain ⟨g, hg, hkind, hr⟩ := geometry_of_rows kind hrows h4 hcr
  refine ⟨g, hg, hkind, hr, fun d s hs s' hd => ⟨dep_lt hs hd, dep_chunk hs hd⟩, ?_, ?_⟩
  · intro k hk
    obtain ⟨it, -, hit, -⟩ := itemAt_spec hk
    exact ⟨it, hit, fun d s hd => ⟨(item_dep_lt hk hit hd).2, item_dep_chunk hk hit hd⟩⟩
  · intro V add hcomm x w hw h
    have hinv := invariant_run (g := g) (x := x) hcomm hw h
    refine ⟨?_, finished_of_stuck hinv, fun r hfin => ?_⟩
    · rw [happened_eq_work hw]
      exact work_le hinv
    have hout := fun ρ => out_of_done (ρ := ρ) (hinv.done r) hfin.1
    subst hkind
    cases hk : g.kind with
    | rs =>
      simp only
      intro ρ hρ
      rw [hout ρ (by simpa only [outRows, hk] using hρ)]
      simp only [result, hk]
    | ag =>
      simp only
      intro b ρ hρ
      have hb := b.isLt
      have hlt : b.val * g.q + ρ < 4 * g.q := by
        have : (b.val + 1) * g.q ≤ 4 * g.q := Nat.mul_le_mul_right _ hb
        rw [Nat.succ_mul] at this
        omega
      rw [hout _ (by simpa only [outRows, hk] using hlt)]
      simp only [result, hk]
      rw [Nat.add_comm, Nat.add_mul_div_right _ _ (by omega), Nat.add_mul_mod_self_right,
        Nat.div_eq_of_lt hρ, Nat.mod_eq_of_lt hρ, Nat.zero_add, Fin.ofNat_val_eq_self]

/-! ## A call of four rows -/

/-- The memory before a call on numbers. -/
def blank : World Nat := fun _ =>
  ⟨0, fun _ _ => false, fun _ _ _ => 0, fun _ => 0, fun _ _ => 0, fun _ _ => false, fun _ => []⟩

/-- A reduce-scatter of one row a block adds as it should; `a * b + 1` is not associative. -/
theorem fourRows_reduced : ∃ g h, geometry .rs 4 1 = some g ∧ ∀ r : Rank,
    (run (step g (fun a b => a * b + 1) fun r ρ => 10 * r.val + ρ) blank h r).out 0 =
      [(((10 * (r + 1).val + r.val) * (10 * (r + 2).val + r.val) + 1) * (10 * (r + 3).val + r.val)
        + 1) * (10 * r.val + r.val) + 1] := by
  obtain ⟨g, hg, hkind, hrows, -, -, hrun⟩ := ring_collective .rs
    (show 0 < 4 by decide) (by decide) (le_refl 1)
  have hcomm : ∀ a b : Nat, a * b + 1 = b * a + 1 := fun a b => by rw [Nat.mul_comm]
  have hw : Fresh blank :=
    ⟨fun _ => rfl, fun _ _ _ => rfl, fun _ _ => rfl, fun _ _ _ => rfl, fun _ _ => rfl⟩
  have hq : g.q = 1 := by
    have := g.rows_eq
    omega
  obtain ⟨h, hfin⟩ := exists_finished hcomm (inv_fresh (g := g) (x := fun r ρ => 10 * r.val + ρ) hw)
  refine ⟨g, h, hg, fun r => ?_⟩
  have hout := (hrun Nat (fun a b => a * b + 1) hcomm (fun r ρ => 10 * r.val + ρ) blank hw h).2.2 r
    (hfin r) 0 (by omega)
  simpa only [hq, Nat.mul_one, Nat.add_zero] using hout

end Ringside.PrefillRing.Collective

import Mathlib.Data.List.TakeWhile
import Ringside.Run
import Ringside.PrefillRing.Layout

/-!
# The numbers of the prefill ring's calls (`prb_launch`, `Sequencer`)

`prb_launch` numbers a call with a 32-bit counter, and the call's flags carry that number: whoever
waits for a step compares the word of its flag with it. `Sequencer` is the reference, with numbers
below 2³¹. This file says for how many calls the two agree and no flag is taken for another's.

* A `Request` is the arguments of `prb_launch` with what becomes of the engine on the way through
  it: the engine may go down at the first test, in the wait for the queue or at the launch. It never
  comes back up.
* `prbLaunch` has the checks of the source and its effects on the context: the sequence number, the
  stage bases and the work base.
* A call runs after the calls before it on its stream, so the flag areas hold what those raised. The
  region starts zeroed.
* The flags of a call are one word for each direction and step, in the area of its parity.
* `Sequencer.next` raises where the numbers end.

Results:
* `launched_eq`, `calls_seq`: the calls are those of the well-formed requests up to the failure,
  numbered from 1 on.
* `fresh_of_lt`: no flag is taken for another's below 2³² calls.
* `numbered_iff`: flags and reference together hold out below 2³¹ calls, and no longer.
* `stale_flag_passes`: a call of larger geometry that finds its number in flags that were never
  raised.
-/

namespace Ringside.PrefillRing.Numbering

open Ringside.Run

/-- An engine as `prb_create` makes it. -/
structure Engine where
  layout : Layout
  words : PrbLayout
  grid : Nat
  parts : Nat
  words_eq : makeLayout (.ofNat layout.maxRows) (.ofNat layout.crMax)
    (.ofNat layout.nslot) = some words
  grid_pos : 1 ≤ grid
  grid_le : grid ≤ 256
  parts_pos : 1 ≤ parts
  parts_le : parts ≤ 64

/-- Where a request finds the engine down: at the first test, in the wait for the queue, at the
launch. -/
inductive Down where
  | entry
  | queue
  | launch
  deriving DecidableEq, Repr

/-- The arguments of `prb_launch`, and what becomes of the engine on the way. -/
structure Request where
  kind : Int
  input : UInt64
  output : UInt64
  rows : UInt64
  down : Option Down

/-- `PRB_KIND_RS`, `PRB_KIND_AG`. -/
def kindOf : Int → Option Kind
  | 1 => some .rs
  | 2 => some .ag
  | _ => none

/-- `prb_call`, and `work_base` of the kernel's arguments. -/
structure PrbCall where
  seq : UInt32
  parity : UInt32
  stageBase : Dir → UInt64
  workBase : UInt64
  g : Geo

/-- What `prb_ctx` numbers the calls from. -/
structure PrbCtx where
  seq : UInt32
  stageNext : Dir → UInt64
  workNext : UInt64
  failed : Bool

def PrbCtx.init : PrbCtx := ⟨0, fun _ => 0, 0, false⟩

/-- `prb_launch`. -/
def prbLaunch (e : Engine) (c : PrbCtx) (r : Request) : PrbCtx × Except Int PrbCall :=
  match kindOf r.kind with
  | none => (c, .error (-1))
  | some kind =>
    if r.rows = 0 ∨ r.rows % 4 ≠ 0 ∨ r.rows > e.words.maxRows ∨ r.input % 16 ≠ 0 ∨
      r.output % 16 ≠ 0 then
      (c, .error (-1))
    else if c.failed ∨ r.down = some .entry then ({ c with failed := true }, .error (-2))
    else
      let g := geoMake kind r.rows.toUInt32 e.words.crMax.toUInt32
      if (g.steps .fwd).toUInt64 > e.words.stepsCap ∨ (g.steps .bwd).toUInt64 > e.words.stepsCap ∨
          g.cr.toUInt64 > e.words.crMax then
        (c, .error (-1))
      else
        let seq := c.seq + 1
        if r.down = some .queue then ({ c with seq := seq, failed := true }, .error (-2))
        else
          let c' : PrbCtx := {
            seq := seq
            stageNext := fun d => c.stageNext d + (g.staged d).toUInt64
            workNext := c.workNext + (g.items.toUInt64 * .ofNat e.parts + .ofNat e.grid)
            failed := decide (r.down = some .launch) }
          if r.down = some .launch then (c', .error (-1))
          else (c', .ok ⟨seq, seq &&& 1, c.stageNext, c.workNext, g⟩)

/-- The calls that a context launches for a list of requests, each with its request. -/
def launched (e : Engine) : PrbCtx → List Request → List (Request × PrbCall)
  | _, [] => []
  | c, r :: rs =>
    match prbLaunch e c r with
    | (c', .ok call) => (r, call) :: launched e c' rs
    | (c', .error _) => launched e c' rs

/-! ## The flag areas

A flag is a word that holds the number of the call that raised it last. A wait takes its own call's
number for the signal, so a number that comes back could be taken for an old one.
-/

/-- The words of the flags, by parity, direction and step. -/
abbrev Flags := UInt32 → Dir → Nat → UInt32

/-- The call's flags are raised, one for each step that a neighbour sends. -/
def raise (m : Flags) (call : PrbCall) : Flags := fun p d s =>
  if p = call.parity ∧ s < (call.g.steps d).toNat then call.seq else m p d s

/-- The flag areas once the calls have raised their flags; the region starts zeroed. -/
def flags (calls : List PrbCall) : Flags := run raise (fun _ _ _ => 0) calls

/-- No call finds its number in a flag that it waits for. -/
def Fresh (calls : List PrbCall) : Prop :=
  ∀ before call rest, calls = before ++ call :: rest →
    ∀ d s, s < (call.g.steps d).toNat → flags before call.parity d s ≠ call.seq

/-! ## The reference -/

/-- `Call`. -/
structure SeqCall where
  geom : Geometry
  seq : Nat
  stageBase : Dir → Nat
  workBase : Nat

/-- `Call.parity`. -/
def SeqCall.parity (k : SeqCall) : Nat := k.seq % 2

/-- `Sequencer`. -/
structure Sequencer where
  seq : Nat
  stageNext : Dir → Nat
  workNext : Nat

def Sequencer.init : Sequencer := ⟨0, fun _ => 0, 0⟩

/-- `Sequencer.next`. -/
def Sequencer.next (e : Engine) (q : Sequencer) (kind : Int) (rows : Nat) :
    Sequencer × Except String SeqCall :=
  if rows > e.layout.maxRows then (q, .error "rows above the ring's maximum")
  else
    match (kindOf kind).bind fun kind => geometry kind rows e.layout.crMax with
    | none => (q, .error "unsupported prefill ring call")
    | some g =>
      if ¬ max (g.steps .fwd) (g.steps .bwd) ≤ e.layout.stepsCap then (q, .error "AssertionError")
      else
        let seq := q.seq + 1
        if seq ≥ 2 ^ 31 then ({ q with seq := seq }, .error "sequence space exhausted")
        else
          ({ seq := seq
             stageNext := fun d => q.stageNext d + g.staged d
             workNext := q.workNext + (g.items * e.parts + e.grid) },
            .ok ⟨g, seq, q.stageNext, q.workNext⟩)

/-- The reference's answers to a list of requests. -/
def sequenced (e : Engine) : Sequencer → List Request → List (Except String SeqCall)
  | _, [] => []
  | q, r :: rs =>
    (q.next e r.kind r.rows.toNat).2 :: sequenced e (q.next e r.kind r.rows.toNat).1 rs

/-- The library numbers a call as the reference does. -/
structure Matches (call : PrbCall) (k : SeqCall) : Prop where
  seq : call.seq.toNat = k.seq
  parity : call.parity.toNat = k.parity
  stageBase : ∀ d, (call.stageBase d).toNat = k.stageBase d
  workBase : call.workBase.toNat = k.workBase
  geom : call.g.Computes k.geom

/-- The reference numbers the same calls alike. -/
def Agrees (e : Engine) (calls : List (Request × PrbCall)) : Prop :=
  List.Forall₂ (fun a out => ∃ k, out = Except.ok k ∧ Matches a.2 k) calls
    (sequenced e .init (calls.map Prod.fst))

/-- The numbering holds out: no stale flag is taken for a call's, and the reference agrees. -/
structure Numbered (e : Engine) (rs : List Request) : Prop where
  fresh : Fresh ((launched e .init rs).map Prod.snd)
  agrees : Agrees e (launched e .init rs)

/-- A request that `prb_launch` takes: a kind it knows, whole rows of four ranks, aligned buffers.
-/
def Request.Valid (e : Engine) (r : Request) : Prop :=
  (kindOf r.kind).isSome ∧ r.rows ≠ 0 ∧ r.rows % 4 = 0 ∧ r.rows.toNat ≤ e.layout.maxRows ∧
    r.input % 16 = 0 ∧ r.output % 16 = 0

instance (e : Engine) (r : Request) : Decidable (r.Valid e) :=
    by unfold Request.Valid; infer_instance

/-- The well-formed requests before the engine goes down. -/
def accepted (e : Engine) (rs : List Request) : List Request :=
  (rs.filter (·.Valid e)).takeWhile (·.down = none)

/-! ## A request, taken or refused

A request is refused before it gets a number, or gets one, or finds the engine down, which stays so.
Hence the numbers of the launched calls have no gaps, whatever was refused in between.
-/

theorem Engine.computes (e : Engine) : e.words.Computes e.layout := by
  obtain ⟨w, hw, hc⟩ := makeLayout_computes e.layout
  rwa [Option.some_inj.mp (e.words_eq.symm.trans hw)]

/-- **A well-formed request has a geometry**, which `geo_make` computes and the layout has room for.
-/
theorem Request.Valid.geometry {e : Engine} {r : Request} (h : r.Valid e) :
    ∃ kind g, kindOf r.kind = some kind ∧ geometry kind r.rows.toNat e.layout.crMax = some g ∧
      (geoMake kind r.rows.toUInt32 e.words.crMax.toUInt32).Computes g ∧
      (∀ d, g.steps d ≤ e.layout.stepsCap) ∧ g.cr ≤ e.layout.crMax := by
  obtain ⟨hkind, hpos, hdvd, hmax, -, -⟩ := h
  obtain ⟨kind, hk⟩ := Option.isSome_iff_exists.mp hkind
  have hpos' : r.rows.toNat ≠ 0 := fun h => hpos (UInt64.toNat_inj.mp h)
  have hdvd' : r.rows.toNat % 4 = 0 := by simpa using congrArg UInt64.toNat hdvd
  have hsome : (PrefillRing.geometry kind r.rows.toNat e.layout.crMax).isSome := by
    unfold PrefillRing.geometry
    rw [dif_neg]
    · rfl
    · have := e.layout.cr_pos
      omega
  obtain ⟨g, hg⟩ := Option.isSome_iff_exists.mp hsome
  let call : Call e.layout := ⟨g, 0, fun _ => 0, kind, r.rows.toNat, hmax, hg⟩
  refine ⟨kind, g, hk, hg, ?_, call.steps_le_cap, call.cr_le_max⟩
  have hcompute := geoMake_computes hmax hg
  rwa [← e.computes.crMax] at hcompute
theorem prbLaunch_invalid {e : Engine} {r : Request} (h : ¬ r.Valid e) (c : PrbCtx) :
    prbLaunch e c r = (c, .error (-1)) := by
  unfold prbLaunch
  cases hk : kindOf r.kind with
  | none => rfl
  | some kind =>
    refine if_pos ?_
    by_contra hno
    simp only [not_or, not_not] at hno
    obtain ⟨hpos, hdvd, hmax, hin, hout⟩ := hno
    refine h ⟨by simp [hk], hpos, hdvd, ?_, hin, hout⟩
    rw [← e.computes.maxRows]
    exact UInt64.le_iff_toNat_le.mp (UInt64.not_lt.mp hmax)

/-- The context after a call of geometry `g`. -/
def PrbCtx.advance (e : Engine) (c : PrbCtx) (g : Geo) : PrbCtx where
  seq := c.seq + 1
  stageNext d := c.stageNext d + (g.staged d).toUInt64
  workNext := c.workNext + (g.items.toUInt64 * .ofNat e.parts + .ofNat e.grid)
  failed := false

/-- The call that a context makes of a geometry. -/
def PrbCtx.call (c : PrbCtx) (g : Geo) : PrbCall :=
    ⟨c.seq + 1, (c.seq + 1) &&& 1, c.stageNext, c.workNext, g⟩

/-- The tests before the number are passed by every well-formed request on an engine that is up. -/
theorem prbLaunch_valid {e : Engine} {c : PrbCtx} {r : Request} {kind : Kind} (h : r.Valid e)
    (hk : kindOf r.kind = some kind) :
    prbLaunch e c r =
      if c.failed ∨ r.down = some .entry then ({ c with failed := true }, .error (-2))
      else
        let g := geoMake kind r.rows.toUInt32 e.words.crMax.toUInt32
        if r.down = some .queue then ({ c with seq := c.seq + 1, failed := true }, .error (-2))
        else if r.down = some .launch then ({ c.advance e g with failed := true }, .error (-1))
        else (c.advance e g, .ok (c.call g)) := by
  obtain ⟨kind', g, hk', -, hg, hcap, hcr⟩ := h.geometry
  obtain rfl : kind' = kind := Option.some_inj.mp (hk'.symm.trans hk)
  obtain ⟨-, hpos, hdvd, hmax, hin, hout⟩ := h
  have hmax' : ¬ r.rows > e.words.maxRows := by
    rw [gt_iff_lt, UInt64.lt_iff_toNat_lt, e.computes.maxRows]
    omega
  have hfits : ¬ ((Geo.steps (geoMake kind' r.rows.toUInt32 e.words.crMax.toUInt32) .fwd).toUInt64 >
    e.words.stepsCap ∨
      (Geo.steps (geoMake kind' r.rows.toUInt32 e.words.crMax.toUInt32) .bwd).toUInt64 >
      e.words.stepsCap ∨
      (geoMake kind' r.rows.toUInt32 e.words.crMax.toUInt32).cr.toUInt64 > e.words.crMax) := by
    simp only [gt_iff_lt, UInt64.lt_iff_toNat_lt, UInt32.toNat_toUInt64, hg.steps, hg.cr,
      e.computes.stepsCap, e.computes.crMax, not_or, not_lt]
    exact ⟨hcap .fwd, hcap .bwd, hcr⟩
  unfold prbLaunch
  simp only [hk, hpos, hdvd, hmax', hin, hout, hfits, ne_eq, not_true_eq_false, or_self, if_false]
  by_cases hl : r.down = some .launch <;> simp [hl, PrbCtx.advance, PrbCtx.call]

/-! ## The calls of the well-formed requests

`launched` skips what is refused; `calls` has no such case. The two agree on what is accepted.
-/

/-- The geometry of a well-formed request. -/
def Request.geo (e : Engine) (r : Request) : Geo :=
  geoMake ((kindOf r.kind).getD .rs) r.rows.toUInt32 e.words.crMax.toUInt32

/-- The calls of requests that are all taken. -/
def calls (e : Engine) : PrbCtx → List Request → List (Request × PrbCall)
  | _, [] => []
  | c, r :: rs => (r, c.call (r.geo e)) :: calls e (c.advance e (r.geo e)) rs

theorem calls_requests (e : Engine) (rs : List Request) (c : PrbCtx) :
    (calls e c rs).map Prod.fst = rs := by
  induction rs generalizing c with
  | nil => rfl
  | cons r rs ih => rw [calls, List.map_cons, ih]

/-- An engine that is down launches nothing. -/
theorem launched_failed (e : Engine) (rs : List Request) {c : PrbCtx} (hc : c.failed = true) :
    launched e c rs = [] := by
  induction rs with
  | nil => rfl
  | cons r rs ih =>
    by_cases h : r.Valid e
    · obtain ⟨kind, g, hk, -⟩ := h.geometry
      have hsame : ({ c with failed := true } : PrbCtx) = c := by rw [← hc]
      simp only [launched, prbLaunch_valid h hk, hc, true_or, if_true, hsame, ih]
    · simp only [launched, prbLaunch_invalid h, ih]

/-- **The calls are those of the well-formed requests**, up to the one that finds the engine down.
-/
theorem launched_eq (e : Engine) (rs : List Request) {c : PrbCtx} (hc : c.failed = false) :
    launched e c rs = calls e c (accepted e rs) := by
  induction rs generalizing c with
  | nil => rfl
  | cons r rs ih =>
    by_cases h : r.Valid e
    · obtain ⟨kind, g, hk, -⟩ := h.geometry
      have hgeo : geoMake kind r.rows.toUInt32 e.words.crMax.toUInt32 = r.geo e :=
        by simp [Request.geo, hk]
      simp only [launched, prbLaunch_valid h hk, hc, hgeo, accepted, List.filter_cons, h,
        decide_true, if_true, List.takeWhile_cons, Bool.false_eq_true, false_or]
      cases hd : r.down with
      | none =>
        simpa [calls, accepted] using ih (show (c.advance e (r.geo e)).failed = false from rfl)
      | some at_ =>
        cases at_ <;> simp [calls, launched_failed]
    · simp only [launched, prbLaunch_invalid h, accepted, List.filter_cons, h, decide_false,
        Bool.false_eq_true, if_false]
      exact ih hc

theorem launched_requests (e : Engine) (rs : List Request) :
    (launched e .init rs).map Prod.fst = accepted e rs := by
  rw [launched_eq e rs rfl, calls_requests]

theorem mem_accepted {e : Engine} {rs : List Request} {r : Request} (h : r ∈ accepted e rs) :
    r.Valid e := by
  have := (List.takeWhile_sublist _).subset h
  simpa using (List.mem_filter.mp this).2

/-- **The n-th call of an engine has the number n**, in 32 bits. -/
theorem calls_seq {e : Engine} {rs : List Request} {c : PrbCtx}
    {before rest : List (Request × PrbCall)} {a : Request × PrbCall}
    (h : calls e c rs = before ++ a :: rest) :
    a.2.seq.toNat = (c.seq.toNat + before.length + 1) % 2 ^ 32 ∧ a.2.parity = a.2.seq &&& 1 ∧
      a.2.g = a.1.geo e := by
  induction before generalizing c rs with
  | nil =>
    cases rs with
    | nil => cases h
    | cons r rs =>
      obtain ⟨rfl, -⟩ := List.cons.inj h
      exact ⟨by simp [PrbCtx.call], rfl, rfl⟩
  | cons b before ih =>
    cases rs with
    | nil => cases h
    | cons r rs =>
      obtain ⟨hseq, hrest⟩ := ih (List.cons.inj h).2
      refine ⟨?_, hrest⟩
      have hadvance : (c.advance e (r.geo e)).seq.toNat = (c.seq.toNat + 1) % 2 ^ 32 :=
        UInt32.toNat_add _ _
      rw [hseq, hadvance, List.length_cons]
      omega

/-! ## No stale flag below 2³² calls -/

/-- A flag holds the number of an earlier call, or the zero of the start. -/
theorem flags_cases (before : List PrbCall) (p : UInt32) (d : Dir) (s : Nat) :
    flags before p d s = 0 ∨ ∃ b ∈ before, flags before p d s = b.seq := by
  induction before using List.reverseRecOn with
  | nil => exact .inl rfl
  | append_singleton before b ih =>
    rw [flags, run_snoc, raise]
    split
    · exact .inr ⟨b, by simp, rfl⟩
    · exact ih.imp_right fun ⟨b', hb', heq⟩ => ⟨b', by simp [hb'], heq⟩

/-- **No flag is taken for another's below 2³² calls.** -/
theorem fresh_of_lt {e : Engine} {rs : List Request} (h : rs.length < 2 ^ 32) :
    Fresh ((calls e .init rs).map Prod.snd) := by
  intro before call rest hsplit d s _ heq
  obtain ⟨before', tail, hcalls, rfl, htail⟩ := List.map_eq_append_iff.mp hsplit
  obtain ⟨a, rest', rfl, rfl, -⟩ := List.map_eq_cons_iff.mp htail
  have hlen : before'.length + 1 + rest'.length = rs.length := by
    rw [← calls_requests e rs .init, hcalls]
    simp
    omega
  have hnum : ∀ {i : Nat}, i ≤ before'.length → ((0 : UInt32).toNat + i + 1) % 2 ^ 32 = i + 1 := by
    intro i hi
    rw [UInt32.toNat_zero, Nat.mod_eq_of_lt] <;> omega
  have hseq : a.2.seq.toNat = before'.length + 1 := by rw [(calls_seq hcalls).1, ← hnum le_rfl]; rfl
  rcases flags_cases (before'.map Prod.snd) a.2.parity d s with h0 | ⟨b, hb, hflag⟩
  · rw [h0] at heq
    rw [← heq] at hseq
    exact absurd hseq (by simp)
  · -- the call that raised it came earlier, so its number is smaller
    obtain ⟨b', hb', rfl⟩ := List.mem_map.mp hb
    obtain ⟨b₁, b₂, rfl⟩ := List.append_of_mem hb'
    rw [List.append_assoc, List.cons_append] at hcalls
    have hb₁ : b₁.length + 1 ≤ (b₁ ++ b' :: b₂).length := by simp
    have hseq' : b'.2.seq.toNat = b₁.length + 1 := by
      rw [(calls_seq hcalls).1, ← hnum (by omega : b₁.length ≤ _)]; rfl
    rw [hflag] at heq
    rw [heq] at hseq'
    omega

/-! ## The reference -/

/-- The library's context holds the reference's numbers, after `n` calls. -/
structure Tracks (n : Nat) (c : PrbCtx) (q : Sequencer) : Prop where
  seq : c.seq.toNat = n ∧ q.seq = n
  stageNext : ∀ d, (c.stageNext d).toNat = q.stageNext d ∧ q.stageNext d ≤ n * 2 ^ 17
  workNext : c.workNext.toNat = q.workNext ∧ q.workNext ≤ n * 2 ^ 25

theorem tracks_init : Tracks 0 .init .init :=
  ⟨⟨rfl, rfl⟩, fun _ => ⟨rfl, le_rfl⟩, rfl, le_rfl⟩

/-- What a call adds to the counters is bounded. -/
theorem staged_le (g : Geometry) (d : Dir) : g.staged d ≤ 3 * g.nc := by
  have := g.na_eq
  have := g.nb1_eq
  cases hk : g.kind <;> cases d <;> simp only [Geometry.staged, Geometry.steps,
    Geometry.nb, hk] <;> omega

theorem items_le (g : Geometry) : g.items ≤ 5 * g.nc := by
  cases hk : g.kind <;> simp only [Geometry.items, hk] <;> omega

/-- The reference's answer to a well-formed request. -/
theorem Request.Valid.next {e : Engine} {r : Request} (h : r.Valid e) :
    ∃ g, (r.geo e).Computes g ∧ g.nc ≤ 2 ^ 15 ∧ ∀ q : Sequencer, q.next e r.kind r.rows.toNat =
      if q.seq + 1 ≥ 2 ^ 31 then ({ q with seq := q.seq + 1 }, .error "sequence space exhausted")
      else
        ({ seq := q.seq + 1
           stageNext := fun d => q.stageNext d + g.staged d
           workNext := q.workNext + (g.items * e.parts + e.grid) },
          .ok ⟨g, q.seq + 1, q.stageNext, q.workNext⟩) := by
  obtain ⟨kind, g, hk, hg, hcomputes, hcap, -⟩ := h.geometry
  obtain ⟨-, -, -, hmax, -, -⟩ := h
  refine ⟨g, by simpa [Request.geo, hk] using hcomputes, ?_, fun q => ?_⟩
  · let call : Call e.layout := ⟨g, 0, fun _ => 0, kind, r.rows.toNat, hmax, hg⟩
    exact call.nc_le_max.trans e.layout.parts_le.1
  · simp only [Sequencer.next, gt_iff_lt, not_lt.mpr hmax, if_false, hk, Option.bind_some, hg,
      max_le (hcap .fwd) (hcap .bwd), not_true_eq_false]

/-- **A call keeps the two sides' numbers together**, while the reference has a number left. -/
theorem Tracks.next {n : Nat} {e : Engine} {c : PrbCtx} {q : Sequencer} {r : Request}
    (ht : Tracks n c q)
    (hr : r.Valid e) (hn : n + 1 < 2 ^ 31) :
    ∃ k, (q.next e r.kind r.rows.toNat).2 = .ok k ∧ Matches (c.call (r.geo e)) k ∧
      Tracks (n + 1) (c.advance e (r.geo e)) (q.next e r.kind r.rows.toNat).1 := by
  obtain ⟨g, hg, hnc, hnext⟩ := hr.next
  obtain ⟨⟨hc, hq⟩, hstage, hwork⟩ := ht
  have hseq : (c.seq + 1).toNat = n + 1 := add32 hc
    (show (1 : UInt32).toNat = 1 from rfl) (by omega)
  rw [hnext, if_neg (by omega)]
  refine ⟨_, rfl, ⟨by rw [hq]; exact hseq, ?_, fun d => (hstage d).1, hwork.1, hg⟩,
    ⟨hseq, by simp [hq]⟩, fun d => ?_, ?_⟩
  · -- the parity is the number's last bit on both sides
    simp only [PrbCtx.call, SeqCall.parity, UInt32.toNat_and, hseq, hq]
    exact Nat.and_one_is_mod _
  · have hadd := staged_le g d
    have hle := (hstage d).2
    have hstaged : ((Request.geo e r).staged d).toUInt64.toNat = g.staged d := by
      rw [UInt32.toNat_toUInt64, hg.staged]
    exact ⟨add64 (hstage d).1 hstaged (by omega), by simp only; omega⟩
  · have hitems := items_le g
    have hgrid := e.grid_le
    have hparts := e.parts_le
    have hle := hwork.2
    have hsize : UInt64.size = 2 ^ 64 := rfl
    have hmul : g.items * e.parts ≤ 5 * 2 ^ 15 * 64 := Nat.mul_le_mul (by omega) hparts
    have hunits : ((Request.geo e r).items.toUInt64 * .ofNat e.parts + .ofNat e.grid :
      UInt64).toNat = g.items * e.parts + e.grid :=
      add64 (mul64 (by rw [UInt32.toNat_toUInt64, hg.items])
        (UInt64.toNat_ofNat_of_lt (by omega)) (by omega))
        (UInt64.toNat_ofNat_of_lt (by omega)) (by omega)
    exact ⟨add64 hwork.1 hunits (by omega), by simp only; omega⟩

theorem agrees_of_lt {n : Nat} {e : Engine} {c : PrbCtx} {q : Sequencer} {rs : List Request}
    (hrs : ∀ r ∈ rs, r.Valid e) (hn : n + rs.length < 2 ^ 31) (ht : Tracks n c q) :
    List.Forall₂ (fun a out => ∃ k, out = Except.ok k ∧ Matches a.2 k) (calls e c rs)
      (sequenced e q rs) := by
  induction rs generalizing n c q with
  | nil => exact .nil
  | cons r rs ih =>
    rw [List.length_cons] at hn
    obtain ⟨k, hok, hmatch, ht'⟩ := ht.next (hrs r List.mem_cons_self) (by omega)
    exact .cons ⟨k, hok, hmatch⟩ (ih (fun r' hr' => hrs r' (List.mem_cons_of_mem r hr'))
      (by omega) ht')

/-- A number the reference gives out is below its limit. -/
theorem Sequencer.next_ok {e : Engine} {q : Sequencer} {kind : Int} {rows : Nat} {k : SeqCall}
    (h : (q.next e kind rows).2 = .ok k) : (q.next e kind rows).1.seq = q.seq + 1 ∧
      q.seq + 1 < 2 ^ 31 := by
  unfold Sequencer.next at h ⊢
  by_cases hrows : rows > e.layout.maxRows
  · simp [hrows] at h
  · simp only [hrows, if_false] at h ⊢
    split at h
    · cases h
    · by_cases hlim : q.seq + 1 ≥ 2 ^ 31
      · simp only [hlim, if_true] at h
        split at h <;> cases h
      · simp only [hlim, if_false] at h ⊢
        split at h
        · cases h
        · next hcap =>
          rw [if_neg hcap]
          exact ⟨rfl, by omega⟩

/-- **The reference gives out no more numbers than it has.** -/
theorem length_lt_of_ok {e : Engine} {rs : List Request} {q : Sequencer} (hq : q.seq < 2 ^ 31)
    (h : ∀ out ∈ sequenced e q rs, ∃ k, out = Except.ok k) : q.seq + rs.length < 2 ^ 31 := by
  induction rs generalizing q with
  | nil => exact hq
  | cons r rs ih =>
    obtain ⟨k, hk⟩ := h _ List.mem_cons_self
    obtain ⟨hseq, hlt⟩ := Sequencer.next_ok hk
    have := ih (by omega) fun out hout => h out (List.mem_cons_of_mem _ hout)
    rw [List.length_cons]
    omega

/-- **The numbering holds out exactly below 2³¹ calls.** The flags alone stay fresh below 2³². -/
theorem numbered_iff (e : Engine) (rs : List Request) :
    (Numbered e rs ↔ (accepted e rs).length < 2 ^ 31) ∧
      ((accepted e rs).length < 2 ^ 32 → Fresh ((launched e .init rs).map Prod.snd)) := by
  have hcalls := launched_eq e rs (c := .init) rfl
  have hfresh : (accepted e rs).length < 2 ^ 32 → Fresh ((launched e .init rs).map Prod.snd) := by
    rw [hcalls]
    exact fresh_of_lt
  refine ⟨⟨fun ⟨_, h⟩ => ?_, fun h => ⟨hfresh (by omega), ?_⟩⟩, hfresh⟩
  · rw [Agrees, launched_requests] at h
    have hok : ∀ out ∈ sequenced e .init (accepted e rs), ∃ k, out = Except.ok k := by
      intro out hout
      obtain ⟨i, hi, rfl⟩ := List.getElem_of_mem hout
      obtain ⟨k, hk, -⟩ := h.get (by rwa [h.length_eq]) hi
      exact ⟨k, hk⟩
    simpa [Sequencer.init] using length_lt_of_ok (q := .init) (by decide) hok
  · rw [Agrees, launched_requests, hcalls]
    exact agrees_of_lt (n := 0) (fun r => mem_accepted) (by omega) tracks_init

/-! ## The counter comes around -/

/-- Four rows as a reduce-scatter, and sixteen. -/
def fourRows : Request := ⟨1, 0, 0, 4, none⟩

def sixteenRows : Request := ⟨1, 0, 0, 16, none⟩

theorem sixteenRows_pos : 0 < sixteenRows.rows.toNat := by decide

/-- An engine for sixteen rows, chunks of one row and two slots. -/
def smallEngine : Engine where
  layout := ⟨16, 1, 2, rfl, sixteenRows_pos, by decide, smallLayout.cr_pos, smallLayout.cr_le,
    smallLayout.nslot_two, smallLayout.nslot_le⟩
  words := (makeLayout 16 1 2).get (by decide)
  grid := 1
  parts := 1
  words_eq := (Option.some_get _).symm
  grid_pos := Nat.one_pos
  grid_le := by decide
  parts_pos := Nat.one_pos
  parts_le := by decide

/-- A flag that no call raises stays zero. -/
theorem flags_eq_zero {before : List PrbCall} {d : Dir} {s : Nat} (p : UInt32)
    (h : ∀ b ∈ before, (b.g.steps d).toNat ≤ s) : flags before p d s = 0 := by
  induction before using List.reverseRecOn with
  | nil => rfl
  | append_singleton before b ih =>
    rw [flags, run_snoc, raise, if_neg]
    · exact ih fun b' hb' => h b' (by simp [hb'])
    · exact fun hs => absurd hs.2 (not_lt.mpr (h b (by simp)))

theorem calls_snoc (e : Engine) (rs : List Request) (r : Request) (c : PrbCtx) :
    ∃ c', calls e c (rs ++ [r]) = calls e c rs ++ [(r, PrbCtx.call c' (r.geo e))] := by
  induction rs generalizing c with
  | nil => exact ⟨c, rfl⟩
  | cons r' rs ih =>
    obtain ⟨c', hc'⟩ := ih (c.advance e (r'.geo e))
    exact ⟨c', by rw [List.cons_append, calls, hc', calls, List.cons_append]⟩

/-- Requests that are well-formed and find the engine up are all taken. -/
theorem accepted_eq_self {e : Engine} {rs : List Request}
    (h : ∀ r ∈ rs, r.Valid e ∧ r.down = none) :
    accepted e rs = rs := by
  rw [accepted, List.filter_eq_self.mpr fun r hr => decide_eq_true (h r hr).1,
    List.takeWhile_eq_self_iff.mpr fun r hr => decide_eq_true (h r hr).2]

/-- **After 2³² - 1 calls of four rows, a call of sixteen finds its number in flags that were never
raised.** -/
theorem stale_flag_passes : ¬ Numbered smallEngine
    (List.replicate (2 ^ 32 - 1) fourRows ++ [sixteenRows]) := by
  intro h
  have hfour : (fourRows.Valid smallEngine ∧ fourRows.down = none) ∧
    (fourRows.geo smallEngine).steps .fwd = 1 := by
    decide
  have hsixteen : (sixteenRows.Valid smallEngine ∧ sixteenRows.down = none) ∧
      (sixteenRows.geo smallEngine).steps .fwd = 6 := by decide
  -- from here on the number of calls is only a length
  generalize hn : 2 ^ 32 - 1 = n at h
  have hall : ∀ r ∈ List.replicate n fourRows ++ [sixteenRows], r.Valid smallEngine ∧
    r.down = none := by
    intro r hr
    rcases List.mem_append.mp hr with hr | hr
    · rw [List.eq_of_mem_replicate hr]
      exact hfour.1
    · rw [List.mem_singleton.mp hr]
      exact hsixteen.1
  obtain ⟨c', hcalls⟩ := calls_snoc smallEngine (List.replicate n fourRows) sixteenRows .init
  have hfresh := h.fresh
  rw [launched_eq _ _ rfl, accepted_eq_self hall, hcalls, List.map_append] at hfresh
  refine hfresh _ _ [] rfl .fwd 5 (by rw [PrbCtx.call, hsixteen.2]; decide) ?_
  have hlen : (calls smallEngine .init (List.replicate n fourRows)).length = n := by
    rw [← List.length_map Prod.fst, calls_requests, List.length_replicate]
  have hseq := (calls_seq hcalls).1
  rw [hlen, ← hn, show (PrbCtx.init.seq.toNat + (2 ^ 32 - 1) + 1) % 2 ^ 32 = 0 by
    simp [PrbCtx.init]] at hseq
  rw [flags_eq_zero]
  · exact (UInt32.toNat_inj.mp hseq).symm
  · intro b hb
    obtain ⟨a, ha, rfl⟩ := List.mem_map.mp hb
    obtain ⟨a₁, a₂, hsplit⟩ := List.append_of_mem ha
    have hreq : a.1 ∈ List.replicate n fourRows := by
      rw [← calls_requests smallEngine (List.replicate n fourRows) .init, hsplit]
      simp
    rw [(calls_seq hsplit).2.2, List.eq_of_mem_replicate hreq, hfour.2]
    decide

end Ringside.PrefillRing.Numbering

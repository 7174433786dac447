import Ringside.Run

/-!
# Growth only after proven saturation (`SaturationGrowth`, `glm53_speedup/policy.py`)

`SaturationGrowth` raises the speculative cap of a fixed batch one token at a time, from 4 up to 7,
and only on evidence: every member must have had eight consecutive turns whose whole proposal was
accepted. `choose` opens a turn and answers the cap; `observe` reports one member's verified prefix;
`reset` is what `Policy` calls on a mixed or unsupported batch, a departed member or a discard.

* The streak dictionary is only read through `get(r, 0)`, so it is a function with default 0.
* Counts are `Int`: nothing in the class bounds what a caller passes.
* Events come in any order: observations may be missing, come twice, come late or name strangers.
* `Policy` in saturation mode is modelled as far as it touches the growth controller (`PolicyCall`);
  the EMA baseline it consults is floating point, so its answer is an input.
* A `Turn` is a call of `choose` with the observations behind it; a history is cut into turns only
  in the statements.

Results:
* `Proven members c n h`: the evidence a history `h` ends with. At each cap from 4 to `c - 1` at
  least eight turns, then `n` turns at cap `c`, all with the batch `members`, and every member
  observed exactly once a turn with the whole proposal accepted; nothing else happened in between.
* `Justified`: the invariant that links the streaks to that evidence.
* `evidence_run`: it holds after every history.
* `growth_only_after_saturation`: a choice above 4 is backed by that evidence, and a failed or a
  missing observation withdraws it.
-/

namespace Ringside.Speedup.Saturation

open Ringside.Run

variable {Rid : Type} [DecidableEq Rid]

/-! ## The controller -/

/-- `SaturationGrowth.REQUIRED`. -/
def REQUIRED : Nat := 8

/-- The fields of `SaturationGrowth`. -/
structure SaturationGrowth (Rid : Type) where
  cap : Int
  members : List Rid
  streaks : Rid → Nat
  pending : Finset Rid
  active : Bool
  rejected : Bool

namespace SaturationGrowth

/-- `reset`. -/
def reset : SaturationGrowth Rid := ⟨4, [], fun _ => 0, ∅, false, false⟩

/-- `reset(); self.members = members; self.streaks = dict.fromkeys(members, 0)`. -/
def restart (members : List Rid) : SaturationGrowth Rid := { reset with members := members }

/-- The first half of `choose`: a new batch or a short baseline discards all evidence, missing
feedback at a larger cap withdraws it, and an unobserved member loses its streak. -/
def settle (s : SaturationGrowth Rid) (members : List Rid) (baselineK : Int) :
    SaturationGrowth Rid × Bool :=
  let s₁ := if members ≠ s.members ∨ baselineK < 4 then restart members else s
  let lost := decide (s₁.pending.Nonempty ∧ 4 < s₁.cap)
  let s₂ := if lost then restart members else s₁
  ({ s₂ with
      streaks := fun r => if r ∈ s₂.pending then 0 else s₂.streaks r
      pending := ∅
      rejected := false }, s.rejected || lost)

/-- `choose`. -/
def choose (s : SaturationGrowth Rid) (members : List Rid) (baselineK : Int) :
    SaturationGrowth Rid × Int × String :=
  let (s, rejected) := s.settle members baselineK
  if baselineK < 4 then (s, baselineK, "saturation_ema4")
  else if s.cap < 7 ∧ members ≠ [] ∧ ∀ r ∈ members, REQUIRED ≤ s.streaks r then
    ({ s with
        cap := s.cap + 1, streaks := fun _ => 0, active := true, pending := members.toFinset },
      s.cap + 1, "saturation_grow")
  else
    ({ s with active := true, pending := members.toFinset }, s.cap,
      if rejected then "saturation_fallback" else "saturation_hold")

/-- What a failed or duplicate observation of `rid` does: the streak is lost, and at a larger cap
so is the growth. -/
def reject (s : SaturationGrowth Rid) (rid : Rid) : SaturationGrowth Rid :=
  if 4 < s.cap then { restart s.members with rejected := true }
  else { s with streaks := Function.update s.streaks rid 0 }

/-- `observe`. -/
def observe (s : SaturationGrowth Rid) (rid : Rid) (proposed accepted : Int) :
    SaturationGrowth Rid :=
  if s.active = false ∨ rid ∉ s.members then s
  else if rid ∉ s.pending then s.reject rid
  else
    let s := { s with pending := s.pending.erase rid }
    if proposed ≠ s.cap ∨ accepted ≠ proposed then s.reject rid
    else
      { s with streaks := Function.update s.streaks rid (min REQUIRED (s.streaks rid + 1)) }

end SaturationGrowth

open SaturationGrowth

/-- One call on the controller. -/
inductive Event (Rid : Type) where
  | choose (members : List Rid) (baselineK : Int)
  | observe (rid : Rid) (proposed accepted : Int)
  | reset

/-- The effect of a call. -/
def step (s : SaturationGrowth Rid) : Event Rid → SaturationGrowth Rid
  | .choose members baselineK => (s.choose members baselineK).1
  | .observe rid proposed accepted => s.observe rid proposed accepted
  | .reset => SaturationGrowth.reset

/-- The controller after a history of calls. -/
abbrev after (h : List (Event Rid)) : SaturationGrowth Rid := run step SaturationGrowth.reset h

theorem after_snoc (h : List (Event Rid)) (e : Event Rid) :
    after (h ++ [e]) = step (after h) e := run_snoc h e

/-! ### `Policy` in saturation mode -/

/-- The calls `SchedulerBridge` makes on `Policy`. `baselineK` is the EMA baseline's answer. -/
inductive PolicyCall (Rid : Type) where
  | retain (live : Finset Rid)
  | discard (rid : Rid)
  | observe (rid : Rid) (proposed accepted : Int)
  | choose (contexts : List Rid) (mixed : Bool) (baselineK : Int)

/-- `Policy.retain`, `discard`, `observe` and `choose` as far as they touch `self.growth`.
`contexts` is `tuple(sorted(request_contexts))`. -/
def policyStep (maxRequests : Nat) (s : SaturationGrowth Rid) :
    PolicyCall Rid → SaturationGrowth Rid
  | .retain live => if ∀ r ∈ s.members, r ∈ live then s else SaturationGrowth.reset
  | .discard _ => SaturationGrowth.reset
  | .observe rid proposed accepted => s.observe rid proposed accepted
  | .choose contexts mixed baselineK =>
    if ¬ (1 ≤ contexts.length ∧ contexts.length ≤ maxRequests) ∨ mixed then
      SaturationGrowth.reset
    else (s.choose contexts baselineK).1

/-- `Policy` only ever drives the controller through its own calls: whatever holds after every
history of events holds of a controller inside `Policy`. -/
theorem policy_run_eq_after (maxRequests : Nat) (calls : List (PolicyCall Rid)) :
    ∃ h : List (Event Rid), run (policyStep maxRequests) SaturationGrowth.reset
      calls = after h := by
  refine history_invariant (fun _ s => ∃ h : List (Event Rid), s = after h) ⟨[], rfl⟩ ?_ calls
  rintro _ s c ⟨h, rfl⟩
  have hreset : SaturationGrowth.reset = after (h ++ [Event.reset]) := (after_snoc h .reset).symm
  cases c with
  | retain live =>
    by_cases hl : ∀ r ∈ (after h).members, r ∈ live
    · exact ⟨h, if_pos hl⟩
    · exact ⟨_, (if_neg hl).trans hreset⟩
  | discard _ => exact ⟨_, hreset⟩
  | observe rid p a => exact ⟨_, (after_snoc h (.observe rid p a)).symm⟩
  | choose ctx mixed b =>
    by_cases hc : ¬ (1 ≤ ctx.length ∧ ctx.length ≤ maxRequests) ∨ mixed
    · exact ⟨_, (if_pos hc).trans hreset⟩
    · exact ⟨_, (if_neg hc).trans (after_snoc h (.choose ctx b)).symm⟩

/-! ## What one call can do

`observe` and `choose` have many branches and few outcomes. The outcomes are listed once, with what
each requires.
-/

section Calls

variable (s : SaturationGrowth Rid)

theorem observe_ignored {rid : Rid} (h : s.active = false ∨ rid ∉ s.members) (p a : Int) :
    s.observe rid p a = s := if_pos h

/-- The three outcomes of an observation that is not ignored: it extends the member's streak, it
costs the member its streak at cap 4, or it costs the batch its growth. -/
theorem observe_cases {rid : Rid} (ha : s.active = true) (hm : rid ∈ s.members) (p a : Int) :
    (rid ∈ s.pending ∧ p = s.cap ∧ a = s.cap ∧
      s.observe rid p a =
        { s with
          pending := s.pending.erase rid
          streaks := Function.update s.streaks rid (min REQUIRED (s.streaks rid + 1)) }) ∨
    (¬ (rid ∈ s.pending ∧ p = s.cap ∧ a = s.cap) ∧ s.cap ≤ 4 ∧
      s.observe rid p a =
        { s with
          pending := s.pending.erase rid
          streaks := Function.update s.streaks rid 0 }) ∨
    (¬ (rid ∈ s.pending ∧ p = s.cap ∧ a = s.cap) ∧ 4 < s.cap ∧
      s.observe rid p a = { restart s.members with rejected := true }) := by
  have hno : ¬ (s.active = false ∨ rid ∉ s.members) := by simp [ha, hm]
  by_cases hp : rid ∈ s.pending
  · by_cases hf : p ≠ s.cap ∨ a ≠ p
    · have hf' : ¬ (rid ∈ s.pending ∧ p = s.cap ∧ a = s.cap) := by
        rintro ⟨-, rfl, rfl⟩; simp at hf
      have ho : s.observe rid p a = ({ s with pending := s.pending.erase rid }).reject rid := by
        unfold observe; rw [if_neg hno, if_neg (not_not.mpr hp)]; exact if_pos hf
      rw [ho]
      by_cases hc : 4 < s.cap
      · exact Or.inr (Or.inr ⟨hf', hc, if_pos hc⟩)
      · exact Or.inr (Or.inl ⟨hf', not_lt.mp hc, if_neg hc⟩)
    · have hf' : p = s.cap ∧ a = s.cap := by
        push Not at hf; exact ⟨hf.1, hf.2.trans hf.1⟩
      refine Or.inl ⟨hp, hf'.1, hf'.2, ?_⟩
      unfold observe; rw [if_neg hno, if_neg (not_not.mpr hp)]; exact if_neg hf
  · have hf' : ¬ (rid ∈ s.pending ∧ p = s.cap ∧ a = s.cap) := fun h => hp h.1
    have ho : s.observe rid p a = s.reject rid := by
      unfold observe; rw [if_neg hno]; exact if_pos hp
    rw [ho, Finset.erase_eq_of_notMem hp]
    by_cases hc : 4 < s.cap
    · exact Or.inr (Or.inr ⟨hf', hc, if_pos hc⟩)
    · exact Or.inr (Or.inl ⟨hf', not_lt.mp hc, if_neg hc⟩)

/-- The evidence `choose` still trusts: the same batch, a full baseline and, at a larger cap, no
feedback missing. -/
def Trusted (members : List Rid) (baselineK : Int) : Prop :=
  members = s.members ∧ 4 ≤ baselineK ∧ (4 < s.cap → s.pending = ∅)

theorem settle_trusted {members : List Rid} {baselineK : Int} (h : Trusted s members baselineK) :
    (s.settle members baselineK).1 =
      { s with
        streaks := fun r => if r ∈ s.pending then 0 else s.streaks r
        pending := ∅
        rejected := false } := by
  have h1 : ¬ (members ≠ s.members ∨ baselineK < 4) := by
    rintro (hm | hb)
    · exact hm h.1
    · have := h.2.1; omega
  have h2 : ¬ (s.pending.Nonempty ∧ 4 < s.cap) := by
    rintro ⟨hp, hc⟩; rw [h.2.2 hc] at hp; exact Finset.not_nonempty_empty hp
  simp only [settle, if_neg h1, h2, decide_false, Bool.false_eq_true, if_false]

theorem settle_untrusted {members : List Rid} {baselineK : Int}
    (h : ¬ Trusted s members baselineK) :
    (s.settle members baselineK).1 = restart members := by
  unfold settle
  by_cases h1 : members ≠ s.members ∨ baselineK < 4
  · simp only [if_pos h1]
    simp [restart, reset]
  · have h2 : s.pending.Nonempty ∧ 4 < s.cap := by
      push Not at h1
      by_contra hn
      refine h ⟨h1.1, h1.2, fun hc => ?_⟩
      rw [Finset.not_nonempty_iff_eq_empty.mp fun hp => hn ⟨hp, hc⟩]
    simp only [if_neg h1, h2, and_self, decide_true, if_true]
    simp [restart, reset]

/-- The three outcomes of `choose`: it starts again from cap 4 (or below, at a short baseline), it
grows on eight-long streaks, or it holds the cap. -/
theorem choose_cases (members : List Rid) (baselineK : Int) :
    (¬ Trusted s members baselineK ∧
      (s.choose members baselineK).2.1 = (if baselineK < 4 then baselineK else 4) ∧
      (s.choose members baselineK).1 =
        (if baselineK < 4 then restart members
          else { restart members with active := true, pending := members.toFinset })) ∨
    (Trusted s members baselineK ∧ s.cap < 7 ∧ members ≠ [] ∧
      (∀ r ∈ members, r ∉ s.pending ∧ REQUIRED ≤ s.streaks r) ∧
      (s.choose members baselineK).2.1 = s.cap + 1 ∧
      (s.choose members baselineK).1 =
        { s with
          cap := s.cap + 1, streaks := fun _ => 0, active := true
          pending := members.toFinset, rejected := false }) ∨
    (Trusted s members baselineK ∧
      (s.choose members baselineK).2.1 = s.cap ∧
      (s.choose members baselineK).1 =
        { s with
          streaks := fun r => if r ∈ s.pending then 0 else s.streaks r, active := true
          pending := members.toFinset, rejected := false }) := by
  by_cases ht : Trusted s members baselineK
  · have hb : ¬ baselineK < 4 := by have := ht.2.1; omega
    refine Or.inr ?_
    simp only [choose, settle_trusted s ht, if_neg hb]
    by_cases hg : s.cap < 7 ∧ members ≠ [] ∧
        ∀ r ∈ members, REQUIRED ≤ if r ∈ s.pending then 0 else s.streaks r
    · simp only [if_pos hg]
      refine Or.inl ⟨ht, hg.1, hg.2.1, fun r hr => ?_, trivial, trivial⟩
      have := hg.2.2 r hr
      by_cases hp : r ∈ s.pending
      · simp [hp, REQUIRED] at this
      · exact ⟨hp, by simpa [hp] using this⟩
    · simp only [if_neg hg]
      exact Or.inr ⟨ht, trivial, trivial⟩
  · refine Or.inl ⟨ht, ?_⟩
    simp only [choose, settle_untrusted s ht]
    by_cases hb : baselineK < 4
    · simp only [if_pos hb, and_self]
    · -- fresh streaks are zero, so a nonempty batch cannot grow at once
      have hg : ¬ ((restart members).cap < 7 ∧ members ≠ [] ∧
          ∀ r ∈ members, REQUIRED ≤ (restart members).streaks r) := by
        rintro ⟨-, hne, hall⟩
        obtain ⟨r, hr⟩ := List.exists_mem_of_ne_nil _ hne
        simpa [restart, reset, REQUIRED] using hall r hr
      simp only [if_neg hb, if_neg hg]
      exact ⟨rfl, trivial⟩

end Calls

/-! ## The evidence behind a cap

The state has one number for each member, but what is claimed is about the history: which turns
there were at which cap, and who was accepted in each. `Evidence` carries the turns since the cap
was reached beside the state, and says that a streak of `n` is the last `n` of them. Growing turns
eight such turns at the cap into a part of `Proven`.
-/

/-- A turn: the call of `choose` that opens it and the observations that arrive before the next
call of another kind. -/
structure Turn (Rid : Type) where
  members : List Rid
  baselineK : Int
  observations : List (Rid × Int × Int)

/-- The calls of a turn. -/
def Turn.events (t : Turn Rid) : List (Event Rid) :=
  .choose t.members t.baselineK :: t.observations.map fun o => .observe o.1 o.2.1 o.2.2

/-- In this turn `r` was observed exactly once, with a proposal of `c` tokens accepted in full. -/
def Turn.Saturates (t : Turn Rid) (c : Int) (r : Rid) : Prop :=
  t.observations.filter (fun o => o.1 = r) = [(r, c, c)]

/-- In this turn `r` was not observed. -/
def Turn.Misses (t : Turn Rid) (r : Rid) : Prop :=
  t.observations.filter (fun o => o.1 = r) = []

/-- A turn of the batch `members` whose choice, after the history `h`, was the cap `c`. -/
def Turn.AtCap (members : List Rid) (c : Int) (h : List (Event Rid)) (t : Turn Rid) : Prop :=
  t.members = members ∧ 4 ≤ t.baselineK ∧ ((after h).choose t.members t.baselineK).2.1 = c

/-- **The evidence a history ends with**: from some point on nothing but complete turns of the
batch `members`, at each cap from 4 to `c - 1` at least eight of them and then `n` at cap `c`, and
in each of them every member was observed exactly once, its whole proposal accepted. -/
inductive Proven (members : List Rid) : Int → Nat → List (Event Rid) → Prop
  | start (h : List (Event Rid)) : Proven members 4 0 h
  | turn {c : Int} {n : Nat} {h : List (Event Rid)} {t : Turn Rid} : Proven members c n h →
      t.AtCap members c h → (∀ r ∈ members, t.Saturates c r) →
      Proven members c (n + 1) (h ++ t.events)
  | grow {c : Int} {n : Nat} {h : List (Event Rid)} : Proven members c n h → REQUIRED ≤ n →
      Proven members (c + 1) 0 h

/-- The complete turns at cap `c` after `h₀`, newest first, and the history they end at. -/
inductive Phase (members : List Rid) (c : Int) (h₀ : List (Event Rid)) :
    List (Turn Rid) → List (Event Rid) → Prop
  | nil : Phase members c h₀ [] h₀
  | turn {ts : List (Turn Rid)} {h : List (Event Rid)} {t : Turn Rid} :
      Phase members c h₀ ts h → t.AtCap members c h → Phase members c h₀ (t :: ts) (h ++ t.events)

/-- The last `n` turns saturated `r`. -/
def Trail (c : Int) (r : Rid) (n : Nat) (ts : List (Turn Rid)) : Prop :=
  n ≤ ts.length ∧ ∀ t ∈ ts.take n, t.Saturates c r

theorem trail_zero (c : Int) (r : Rid) (ts : List (Turn Rid)) : Trail c r 0 ts :=
  ⟨Nat.zero_le _, by simp⟩

theorem Trail.mono {c : Int} {r : Rid} {m n : Nat} {ts : List (Turn Rid)} (h : Trail c r n ts)
    (hm : m ≤ n) : Trail c r m ts :=
  ⟨hm.trans h.1, fun t ht => h.2 t (List.take_subset_take_left ts hm ht)⟩

theorem Trail.cons {c : Int} {r : Rid} {n : Nat} {t : Turn Rid} {ts : List (Turn Rid)}
    (h : Trail c r n ts) (ht : t.Saturates c r) : Trail c r (n + 1) (t :: ts) := by
  refine ⟨Nat.succ_le_succ h.1, fun u hu => ?_⟩
  rcases List.mem_cons.mp (List.take_succ_cons ▸ hu) with rfl | hu
  · exact ht
  · exact h.2 u hu

/-- The trail of a streak map updated at `rid`. -/
theorem Trail.update {c : Int} {r rid : Rid} {f : Rid → Nat} {v : Nat} {ts : List (Turn Rid)}
    (hne : r ≠ rid → Trail c r (f r) ts) (heq : r = rid → Trail c r v ts) :
    Trail c r (Function.update f rid v r) ts := by
  by_cases h : r = rid
  · rw [h, Function.update_self, ← h]
    exact heq h
  · rw [Function.update_of_ne h]
    exact hne h

/-- At cap 4 the last `n` turns are evidence as soon as they saturated every member. -/
theorem proven_four {members : List Rid} {h₀ : List (Event Rid)} :
    ∀ (n : Nat) {ts : List (Turn Rid)} {h : List (Event Rid)}, Phase members 4 h₀ ts h →
      n ≤ ts.length → (∀ t ∈ ts.take n, ∀ r ∈ members, t.Saturates 4 r) → Proven members 4 n h
  | 0, _, h, _, _, _ => .start h
  | _ + 1, _, _, .nil, hn, _ => absurd hn (by simp)
  | n + 1, _, _, .turn (t := t) hp hc, hn, hs =>
    .turn (proven_four n hp (Nat.le_of_succ_le_succ hn) fun u hu =>
      hs u (List.mem_cons_of_mem t hu))
      hc (hs t List.mem_cons_self)

/-- At a cap already proven every turn since must have saturated every member. -/
theorem proven_phase {members : List Rid} {c : Int} {h₀ h : List (Event Rid)}
    {ts : List (Turn Rid)} (hp : Phase members c h₀ ts h) (h0 : Proven members c 0 h₀)
    (hs : ∀ t ∈ ts, ∀ r ∈ members, t.Saturates c r) : Proven members c ts.length h := by
  induction hp with
  | nil => exact h0
  | @turn ts h t _ hc ih =>
    exact .turn (ih fun u hu => hs u (List.mem_cons_of_mem t hu)) hc (hs t List.mem_cons_self)

/-- What the state of an active controller says about the history that led to it: the complete
turns `ts` since the cap was reached and the turn `cur` in progress. -/
structure Evidence (h : List (Event Rid)) (s : SaturationGrowth Rid) (h₀ hd : List (Event Rid))
    (ts : List (Turn Rid)) (cur : Turn Rid) : Prop where
  split : h = hd ++ cur.events
  base : Proven s.members s.cap 0 h₀
  phase : Phase s.members s.cap h₀ ts hd
  cur_cap : cur.AtCap s.members s.cap hd
  pending_sub : ∀ r ∈ s.pending, r ∈ s.members
  /-- A member the turn still waits for has not been observed, and its streak is older. -/
  waiting : ∀ r ∈ s.pending, cur.Misses r ∧ Trail s.cap r (s.streaks r) ts
  /-- A member already observed has a streak that counts this turn. -/
  settled : ∀ r ∈ s.members, r ∉ s.pending → Trail s.cap r (s.streaks r) (cur :: ts)
  /-- Above cap 4 there has been no failure at all since the cap was reached. -/
  strict : 4 < s.cap → ∀ r ∈ s.members,
    (∀ t ∈ ts, t.Saturates s.cap r) ∧ (r ∉ s.pending → cur.Saturates s.cap r)

/-- **The invariant of the controller**: the cap is in 4..7, an inactive controller is at cap 4
without streaks and waits for nobody, and an active one carries its evidence. -/
def Justified (h : List (Event Rid)) (s : SaturationGrowth Rid) : Prop :=
  4 ≤ s.cap ∧ s.cap ≤ 7 ∧ (s.active = false → s.cap = 4 ∧ s.pending = ∅ ∧ ∀ r, s.streaks r = 0) ∧
    (s.active = true → ∃ h₀ hd ts cur, Evidence h s h₀ hd ts cur)

theorem justified_restart (h : List (Event Rid)) (members : List Rid) (b : Bool) :
    Justified h { restart members with rejected := b } :=
  ⟨le_refl 4, (by decide : (4 : Int) ≤ 7), fun _ => ⟨rfl, rfl, fun _ => rfl⟩,
    fun ha => absurd ha (by simp [restart, reset])⟩

/-- The turn with one more observation. -/
def Turn.observed (t : Turn Rid) (o : Rid × Int × Int) : Turn Rid :=
  { t with observations := t.observations ++ [o] }

omit [DecidableEq Rid] in
theorem Turn.observed_events (t : Turn Rid) (o : Rid × Int × Int) :
    (t.observed o).events = t.events ++ [.observe o.1 o.2.1 o.2.2] := by
  simp [observed, events]

theorem Turn.observed_filter (t : Turn Rid) (o : Rid × Int × Int) (r : Rid) :
    (t.observed o).observations.filter (fun x => x.1 = r) =
      t.observations.filter (fun x => x.1 = r) ++ if o.1 = r then [o] else [] := by
  simp only [observed, List.filter_append]
  congr 1
  by_cases ho : o.1 = r <;> simp [ho]

theorem Turn.observed_of_ne {t : Turn Rid} {o : Rid × Int × Int} {r : Rid} (h : o.1 ≠ r) :
    (t.observed o).observations.filter (fun x => x.1 = r) =
      t.observations.filter (fun x => x.1 = r) := by
  rw [observed_filter, if_neg h, List.append_nil]

/-- A call the controller ignores leaves the invariant: it is one more observation of the turn. -/
theorem justified_ignored {h : List (Event Rid)} {s : SaturationGrowth Rid}
    (hj : Justified h s) {rid : Rid} (hi : s.active = false ∨ rid ∉ s.members) (p a : Int) :
    Justified (h ++ [.observe rid p a]) s := by
  obtain ⟨h4, h7, hina, hact⟩ := hj
  refine ⟨h4, h7, hina, fun ha => ?_⟩
  have hm : rid ∉ s.members := hi.resolve_left (by simp [ha])
  obtain ⟨h₀, hd, ts, cur, e⟩ := hact ha
  have hne : ∀ r ∈ s.members, (rid, p, a).1 ≠ r := fun r hr (heq : rid = r) => hm (heq ▸ hr)
  refine ⟨h₀, hd, ts, cur.observed (rid, p, a), ?_, e.base, e.phase, e.cur_cap, e.pending_sub,
    fun r hr => ⟨?_, (e.waiting r hr).2⟩, fun r hr hp => ?_,
    fun hc r hr => ⟨(e.strict hc r hr).1, fun hp => ?_⟩⟩
  · rw [Turn.observed_events, e.split, List.append_assoc]
  · unfold Turn.Misses
    rw [Turn.observed_of_ne (hne r (e.pending_sub r hr))]
    exact (e.waiting r hr).1
  · obtain ⟨hl, ht⟩ := e.settled r hr hp
    refine ⟨hl, fun t htm => ?_⟩
    cases hs : s.streaks r with
    | zero => simp [hs] at htm
    | succ n =>
      rw [hs, List.take_succ_cons] at htm ht
      rcases List.mem_cons.mp htm with rfl | htm
      · unfold Turn.Saturates
        rw [Turn.observed_of_ne (hne r hr)]
        exact ht _ List.mem_cons_self
      · exact ht t (List.mem_cons_of_mem _ htm)
  · unfold Turn.Saturates
    rw [Turn.observed_of_ne (hne r hr)]
    exact (e.strict hc r hr).2 hp

/-- An observation of a member preserves the invariant. -/
theorem justified_observe {h : List (Event Rid)} {s : SaturationGrowth Rid}
    (hj : Justified h s) (rid : Rid) (p a : Int) :
    Justified (h ++ [.observe rid p a]) (s.observe rid p a) := by
  by_cases hi : s.active = false ∨ rid ∉ s.members
  · rw [observe_ignored s hi]
    exact justified_ignored hj hi p a
  obtain ⟨ha, hm⟩ : s.active = true ∧ rid ∈ s.members := by simpa using hi
  obtain ⟨h4, h7, -, hact⟩ := hj
  obtain ⟨h₀, hd, ts, cur, e⟩ := hact ha
  have hsplit : h ++ [.observe rid p a] = hd ++ (cur.observed (rid, p, a)).events := by
    rw [Turn.observed_events, e.split, List.append_assoc]
  -- members other than `rid` see the same turn
  have hsat : ∀ r, rid ≠ r → ∀ c, cur.Saturates c r → (cur.observed (rid, p, a)).Saturates c r :=
    fun r hr c hs => by unfold Turn.Saturates; rw [Turn.observed_of_ne hr]; exact hs
  have hmiss : ∀ r ∈ s.pending.erase rid, (cur.observed (rid, p, a)).Misses r := fun r hr => by
    unfold Turn.Misses
    rw [Turn.observed_of_ne (Finset.ne_of_mem_erase hr).symm]
    exact (e.waiting r (Finset.mem_of_mem_erase hr)).1
  have htrail : ∀ r ∈ s.members, rid ≠ r → r ∉ s.pending.erase rid →
      Trail s.cap r (s.streaks r) (cur.observed (rid, p, a) :: ts) := by
    intro r hr hne hp
    have hp' : r ∉ s.pending := fun hin => hp (Finset.mem_erase.mpr ⟨hne.symm, hin⟩)
    obtain ⟨hl, ht⟩ := e.settled r hr hp'
    cases hs : s.streaks r with
    | zero => exact trail_zero _ _ _
    | succ n =>
      rw [hs] at hl ht
      have htail : Trail s.cap r n ts :=
        ⟨Nat.le_of_succ_le_succ hl, fun t h => ht t (List.mem_cons_of_mem _ h)⟩
      exact htail.cons (hsat r hne _ (ht cur List.mem_cons_self))
  rcases observe_cases s ha hm p a with ⟨hp, hpc, hac, ho⟩ | ⟨hbad, hcap, ho⟩ | ⟨hbad, hcap, ho⟩
  · rw [ho]
    have hnow : (cur.observed (rid, p, a)).Saturates s.cap rid := by
      have hmissed := (e.waiting rid hp).1
      unfold Turn.Misses at hmissed
      unfold Turn.Saturates
      rw [Turn.observed_filter, hmissed, if_pos rfl, List.nil_append, hpc, hac]
    refine ⟨h4, h7, fun hf => absurd (ha.symm.trans hf) (by simp), fun _ =>
      ⟨h₀, hd, ts, _, hsplit, e.base, e.phase, e.cur_cap,
        fun r hr => e.pending_sub r (Finset.mem_of_mem_erase hr), fun r hr => ⟨hmiss r hr, ?_⟩,
        fun r hr hpr => ?_, fun hc r hr => ⟨(e.strict hc r hr).1, fun hpr => ?_⟩⟩⟩
    · exact Trail.update (fun _ => (e.waiting r (Finset.mem_of_mem_erase hr)).2)
        fun heq => absurd heq (Finset.ne_of_mem_erase hr)
    · refine Trail.update (fun hne => htrail r hr hne.symm hpr) fun heq => ?_
      rw [heq]
      exact ((e.waiting rid hp).2.cons hnow).mono (min_le_right _ _)
    · by_cases hr' : rid = r
      · exact hr' ▸ hnow
      · refine hsat r hr' _ ((e.strict hc r hr).2 fun hin => hpr ?_)
        exact Finset.mem_erase.mpr ⟨Ne.symm hr', hin⟩
  · rw [ho]
    refine ⟨h4, h7, fun hf => absurd (ha.symm.trans hf) (by simp), fun _ =>
      ⟨h₀, hd, ts, _, hsplit, e.base, e.phase, e.cur_cap,
        fun r hr => e.pending_sub r (Finset.mem_of_mem_erase hr), fun r hr => ⟨hmiss r hr, ?_⟩,
        fun r hr hpr => ?_, fun hc => absurd hc (not_lt.mpr hcap)⟩⟩
    · exact Trail.update (fun _ => (e.waiting r (Finset.mem_of_mem_erase hr)).2)
        fun heq => absurd heq (Finset.ne_of_mem_erase hr)
    · exact Trail.update (fun hne => htrail r hr hne.symm hpr) fun _ => trail_zero _ _ _
  · rw [ho]
    exact justified_restart _ _ _

/-- Opening a turn closes the one in progress: every streak that survives `choose` covers it. -/
theorem evidence_closes {h h₀ hd : List (Event Rid)} {s : SaturationGrowth Rid}
    {ts : List (Turn Rid)} {cur : Turn Rid} (e : Evidence h s h₀ hd ts cur) :
    Phase s.members s.cap h₀ (cur :: ts) h ∧ ∀ r ∈ s.members, Trail s.cap r
      (if r ∈ s.pending then 0 else s.streaks r) (cur :: ts) := by
  refine ⟨e.split ▸ .turn e.phase e.cur_cap, fun r hr => ?_⟩
  split
  · exact trail_zero _ _ _
  · rename_i hp
    exact e.settled r hr hp

/-- A trusted batch whose streaks are all eight long is proven at its cap. -/
theorem evidence_proven {h h₀ hd : List (Event Rid)} {s : SaturationGrowth Rid}
    {ts : List (Turn Rid)} {cur : Turn Rid} (e : Evidence h s h₀ hd ts cur)
    (h4 : 4 ≤ s.cap) (hne : s.members ≠ [])
    (hall : ∀ r ∈ s.members, r ∉ s.pending ∧ REQUIRED ≤ s.streaks r) :
    ∃ n, REQUIRED ≤ n ∧ Proven s.members s.cap n h := by
  obtain ⟨hphase, htrail⟩ := evidence_closes e
  have hlong : ∀ r ∈ s.members, Trail s.cap r REQUIRED (cur :: ts) := fun r hr => by
    have := htrail r hr
    rw [if_neg (hall r hr).1] at this
    exact this.mono (hall r hr).2
  obtain ⟨r₀, hr₀⟩ := List.exists_mem_of_ne_nil _ hne
  have hlen := (hlong r₀ hr₀).1
  by_cases hc : 4 < s.cap
  · refine ⟨_, hlen, proven_phase hphase e.base fun t ht r hr => ?_⟩
    rcases List.mem_cons.mp ht with rfl | ht
    · exact (e.strict hc r hr).2 (hall r hr).1
    · exact (e.strict hc r hr).1 t ht
  · have h4' : s.cap = 4 := le_antisymm (not_lt.mp hc) h4
    rw [h4'] at hphase hlong ⊢
    exact ⟨_, le_refl _, proven_four _ hphase hlen fun t ht r hr => (hlong r hr).2 t ht⟩

/-- The turn a call of `choose` opens, before anything was observed. -/
def Turn.opened (members : List Rid) (baselineK : Int) : Turn Rid := ⟨members, baselineK, []⟩

/-- `choose` preserves the invariant. -/
theorem justified_choose {h : List (Event Rid)} {s : SaturationGrowth Rid} (hs : s = after h)
    (hj : Justified h s) (members : List Rid) (baselineK : Int) :
    Justified (h ++ [.choose members baselineK]) (s.choose members baselineK).1 := by
  have hpend : ∀ r ∈ members.toFinset, r ∈ members := fun r => List.mem_toFinset.mp
  have hfin : ∀ r ∈ members, r ∈ members.toFinset := fun r => List.mem_toFinset.mpr
  obtain ⟨h4, h7, hina, hact⟩ := hj
  rcases choose_cases s members baselineK with ⟨-, hk, hs'⟩ | ⟨⟨hm, hb, -⟩, hcap, hne,
    hall, hk, hs'⟩ |
    ⟨⟨hm, hb, hempty⟩, hk, hs'⟩
  · rw [hs']
    split
    · exact justified_restart (h ++ [.choose members baselineK]) members false
    · -- an empty phase at cap 4: any history is evidence for it
      rename_i hb
      rw [if_neg hb] at hk
      exact ⟨le_refl 4, (by decide : (4 : Int) ≤ 7), fun ha => absurd ha (by simp), fun _ =>
        ⟨h, h, [], .opened members baselineK, rfl, Proven.start h, .nil,
          ⟨rfl, not_lt.mp hb, hs ▸ hk⟩, hpend, fun r _ => ⟨rfl, trail_zero _ _ _⟩,
          fun r hr hp => absurd (hfin r hr) hp, fun hc => absurd hc (lt_irrefl (4 : Int))⟩⟩
  · subst hm
    obtain ⟨r₀, hr₀⟩ := List.exists_mem_of_ne_nil _ hne
    have ha : s.active = true := by
      by_contra hf
      have h0 := (hina (by simpa using hf)).2.2 r₀
      have := (hall r₀ hr₀).2
      rw [h0] at this
      exact absurd this (by decide)
    obtain ⟨h₀, hd, ts, cur, e⟩ := hact ha
    obtain ⟨n, hn, hp⟩ := evidence_proven e h4 hne hall
    rw [hs']
    exact ⟨(by omega : 4 ≤ s.cap + 1), (by omega : s.cap + 1 ≤ 7),
      fun hf => absurd hf (by simp), fun _ =>
      ⟨h, h, [], .opened s.members baselineK, rfl, .grow hp hn, .nil, ⟨rfl, hb, hs ▸ hk⟩, hpend,
        fun r _ => ⟨rfl, trail_zero _ _ _⟩, fun r hr hp => absurd (hfin r hr) hp,
        fun _ r hr => ⟨fun t ht => absurd ht List.not_mem_nil, fun hp => absurd (hfin r hr) hp⟩⟩⟩
  · subst hm
    rw [hs']
    refine ⟨h4, h7, fun hf => absurd hf (by simp), fun _ => ?_⟩
    by_cases ha : s.active = true
    · obtain ⟨h₀, hd, ts, cur, e⟩ := hact ha
      obtain ⟨hphase, htrail⟩ := evidence_closes e
      refine ⟨h₀, h, cur :: ts, .opened s.members baselineK, rfl, e.base, hphase,
        ⟨rfl, hb, hs ▸ hk⟩, hpend, fun r hr => ⟨rfl, htrail r (hpend r hr)⟩,
        fun r hr hp => absurd (hfin r hr) hp,
        fun hc r hr => ⟨fun t ht => ?_, fun hp => absurd (hfin r hr) hp⟩⟩
      have hdone : r ∉ s.pending := by simp [hempty hc]
      rcases List.mem_cons.mp ht with rfl | ht
      · exact (e.strict hc r hr).2 hdone
      · exact (e.strict hc r hr).1 t ht
    · obtain ⟨hc, hp, hz⟩ := hina (by simpa using ha)
      refine ⟨h, h, [], .opened s.members baselineK, rfl, ?_, .nil, ⟨rfl, hb, hs ▸ hk⟩, hpend,
        fun r _ => ⟨rfl, ?_⟩, fun r hr hp => absurd (hfin r hr) hp,
        fun hc' => absurd hc' (by show ¬ 4 < s.cap; omega)⟩
      · exact (show s.cap = 4 from hc) ▸ Proven.start h
      · simp only [hp, hz, ite_self]
        exact trail_zero _ _ _

/-- **The invariant holds after every history.** -/
theorem evidence_run (h : List (Event Rid)) : Justified h (after h) := by
  refine (history_invariant (fun h s => s = after h ∧ Justified h s)
    ⟨rfl, justified_restart [] [] false⟩ ?_ h).2
  rintro h s e ⟨hs, hj⟩
  refine ⟨by rw [after_snoc, hs], ?_⟩
  cases e with
  | choose members b => exact justified_choose hs hj members b
  | observe rid p a => exact justified_observe hj rid p a
  | reset => exact justified_restart _ [] false

/-! ## Growth, bounds and fallback

The parts of the result are read off the invariant at one state. Only the fallback is about several
calls: an inactive controller at cap 4 stays so until the next choice, which is then 4 or less.
-/

/-- A choice above 4 is backed by the evidence of the history it is made on. -/
theorem proven_of_choose {h : List (Event Rid)} {members : List Rid} {b k : Int}
    (hk : ((after h).choose members b).2.1 = k) (h4 : 4 < k) : ∃ n, Proven members k n h := by
  obtain ⟨hc4, -, hina, hact⟩ := evidence_run h
  rcases choose_cases (after h) members b with ⟨-, hk', -⟩ | ⟨ht, -, hne, hall, hk', -⟩ |
    ⟨ht, hk', -⟩
  · rw [hk] at hk'
    split at hk' <;> omega
  · obtain ⟨hm, -, -⟩ := ht
    subst hm
    obtain ⟨r, hr⟩ := List.exists_mem_of_ne_nil _ hne
    have ha : (after h).active = true := by
      by_contra hf
      have := (hall r hr).2
      rw [(hina (by simpa using hf)).2.2 r] at this
      exact absurd this (by decide)
    obtain ⟨h₀, hd, ts, cur, e⟩ := hact ha
    obtain ⟨n, hn, hp⟩ := evidence_proven e hc4 hne hall
    exact ⟨0, (hk.symm.trans hk') ▸ .grow hp hn⟩
  · obtain ⟨hm, -, hempty⟩ := ht
    subst hm
    have hcap : (after h).cap = k := hk'.symm.trans hk
    have ha : (after h).active = true := by
      by_contra hf
      have := (hina (by simpa using hf)).1
      omega
    obtain ⟨h₀, hd, ts, cur, e⟩ := hact ha
    refine ⟨_, hcap ▸ proven_phase (evidence_closes e).1 e.base fun t ht r hr => ?_⟩
    have hstrict := e.strict (hcap ▸ h4) r hr
    rcases List.mem_cons.mp ht with rfl | ht
    · exact hstrict.2 (by simp [hempty (hcap ▸ h4)])
    · exact hstrict.1 t ht

/-- Neither observations nor resets touch an inactive controller at cap 4 without streaks. -/
theorem fallback_stays {s : SaturationGrowth Rid} {mid : List (Event Rid)}
    (hmid : ∀ e ∈ mid, ∀ members b, e ≠ .choose members b)
    (hs : s.active = false ∧ s.cap = 4 ∧ ∀ r, s.streaks r = 0) :
    (run step s mid).active = false ∧ (run step s mid).cap = 4 ∧
      ∀ r, (run step s mid).streaks r = 0 := by
  refine invariant_of_forall (P := fun s : SaturationGrowth Rid =>
      s.active = false ∧ s.cap = 4 ∧ ∀ r, s.streaks r = 0) (fun s e he hs => ?_) mid hmid hs
  cases e with
  | choose members b => exact absurd rfl (he members b)
  | observe rid p a =>
    rw [show step s (.observe rid p a) = s from observe_ignored s (Or.inl hs.1) p a]
    exact hs
  | reset => exact ⟨rfl, rfl, fun _ => rfl⟩

/-- At cap 4 without streaks the next choice is 4, or a shorter baseline. -/
theorem choose_of_fallback {s : SaturationGrowth Rid} (hc : s.cap = 4) (hz : ∀ r, s.streaks r = 0)
    (members : List Rid) (b : Int) :
    (s.choose members b).2.1 = if b < 4 then b else 4 := by
  rcases choose_cases s members b with ⟨-, hk, -⟩ | ⟨-, -, hne, hall, -, -⟩ | ⟨ht, hk, -⟩
  · exact hk
  · obtain ⟨r, hr⟩ := List.exists_mem_of_ne_nil _ hne
    have := (hall r hr).2
    rw [hz r] at this
    exact absurd this (by decide)
  · rw [hk, hc, if_neg (by have := ht.2.1; omega)]

/-- A failed observation above cap 4 leaves an inactive controller at cap 4 without streaks. -/
theorem observe_failed {h : List (Event Rid)} {rid : Rid} {p a : Int} (hc : 4 < (after h).cap)
    (hm : rid ∈ (after h).members) (hf : p ≠ (after h).cap ∨ a ≠ p) :
    (after h).observe rid p a = { restart (after h).members with rejected := true } := by
  have ha : (after h).active = true := by
    by_contra hn
    have := ((evidence_run h).2.2.1 (by simpa using hn)).1
    omega
  rcases observe_cases (after h) ha hm p a with ⟨-, hp, hac, -⟩ | ⟨-, hle, -⟩ | ⟨-, -, ho⟩
  · exact absurd (hac.trans hp.symm) (hf.resolve_left (not_not.mpr hp))
  · omega
  · exact ho

/-- A member the open turn has not observed is still pending, unless the turn fell back to 4. -/
theorem pending_of_misses {h₀ : List (Event Rid)} {t : Turn Rid} {rid : Rid}
    (hc : 4 < (after (h₀ ++ t.events)).cap) (hm : rid ∈ t.members) (hmiss : t.Misses rid) :
    rid ∈ (after (h₀ ++ t.events)).pending := by
  obtain ⟨members, b, obs⟩ := t
  unfold Turn.Misses at hmiss
  simp only at hm hmiss
  rw [Turn.events, show h₀ ++ (Event.choose members b :: obs.map fun o =>
      Event.observe o.1 o.2.1 o.2.2) = (h₀ ++ [.choose members b]) ++ obs.map fun o =>
      Event.observe o.1 o.2.1 o.2.2 by simp, after, run_append] at hc ⊢
  -- either the cap is lost for the rest of the turn or `rid` stays pending
  have hstay : ∀ (obs : List (Rid × Int × Int)) (s : SaturationGrowth Rid),
      obs.filter (fun o => o.1 = rid) = [] → (s.cap ≤ 4 ∨ rid ∈ s.pending) →
      ((run step s (obs.map fun o => Event.observe o.1 o.2.1 o.2.2)).cap ≤ 4 ∨
        rid ∈ (run step s (obs.map fun o => Event.observe o.1 o.2.1 o.2.2)).pending) := by
    intro obs
    induction obs with
    | nil => exact fun s _ hs => hs
    | cons o obs ih =>
      intro s hfil hs
      rw [List.map_cons, run_cons]
      rw [List.filter_cons] at hfil
      split at hfil
      · exact absurd hfil (by simp)
      rename_i hne
      refine ih _ hfil ?_
      show (s.observe o.1 o.2.1 o.2.2).cap ≤ 4 ∨ rid ∈ (s.observe o.1 o.2.1 o.2.2).pending
      by_cases hi : s.active = false ∨ o.1 ∉ s.members
      · rwa [observe_ignored s hi]
      obtain ⟨ha, hmem⟩ : s.active = true ∧ o.1 ∈ s.members := by simpa using hi
      have hne' : rid ≠ o.1 := fun heq => hne (by simp [heq])
      rcases observe_cases s ha hmem o.2.1 o.2.2 with ⟨-, -, -, ho⟩ | ⟨-, hle, ho⟩ | ⟨-, -, ho⟩
      · rw [ho]
        exact hs.imp_right fun hp => Finset.mem_erase.mpr ⟨hne', hp⟩
      · rw [ho]
        exact Or.inl hle
      · rw [ho]
        exact Or.inl (le_refl (4 : Int))
  refine (hstay obs _ hmiss ?_).resolve_left (not_le.mpr hc)
  rw [run_snoc]
  show ((after h₀).choose members b).1.cap ≤ 4 ∨ rid ∈ ((after h₀).choose members b).1.pending
  have hfin : rid ∈ members.toFinset := List.mem_toFinset.mpr hm
  rcases choose_cases (after h₀) members b with ⟨-, -, hs'⟩ | ⟨-, -, -, -, -, hs'⟩ | ⟨-, -, hs'⟩
  · rw [hs']
    split
    · exact Or.inl (le_refl (4 : Int))
    · exact Or.inr hfin
  · rw [hs']; exact Or.inr hfin
  · rw [hs']; exact Or.inr hfin

/-- Feedback missing above cap 4 withdraws the growth at the next choice. -/
theorem choose_of_missing {s : SaturationGrowth Rid} {rid : Rid} (hc : 4 < s.cap)
    (hp : rid ∈ s.pending) (members : List Rid) (b : Int) :
    (s.choose members b).2.1 = if b < 4 then b else 4 := by
  have hno : ¬ Trusted s members b := fun ht => by simp [ht.2.2 hc] at hp
  rcases choose_cases s members b with ⟨-, hk, -⟩ | ⟨ht, -⟩ | ⟨ht, -⟩
  · exact hk
  · exact absurd ht hno
  · exact absurd ht hno

/-- **Growth only after proven saturation.** A choice above 4 is backed by at least eight
consecutive full acceptances of every current member at each smaller cap, with nothing else in
between; the cap stays in 4..7; and a failed or a missing observation above cap 4 makes the next
choice 4, or the baseline when that is shorter still. -/
theorem growth_only_after_saturation :
    (∀ (h : List (Event Rid)) (members : List Rid) (b k : Int),
      ((after h).choose members b).2.1 = k → 4 < k → ∃ n, Proven members k n h) ∧
    (∀ h : List (Event Rid), 4 ≤ (after h).cap ∧ (after h).cap ≤ 7) ∧
    (∀ (h mid : List (Event Rid)) (rid : Rid) (p a : Int) (members : List Rid) (b : Int),
      4 < (after h).cap → rid ∈ (after h).members → (p ≠ (after h).cap ∨ a ≠ p) →
      (∀ e ∈ mid, ∀ members' b', e ≠ .choose members' b') →
      ((after (h ++ .observe rid p a :: mid)).choose members b).2.1 = if b < 4 then b else 4) ∧
    (∀ (h : List (Event Rid)) (t : Turn Rid) (rid : Rid) (members : List Rid) (b : Int),
      4 < (after (h ++ t.events)).cap → rid ∈ t.members → t.Misses rid →
      ((after (h ++ t.events)).choose members b).2.1 = if b < 4 then b else 4) := by
  refine ⟨fun h members b k hk h4 => proven_of_choose hk h4,
    fun h => ⟨(evidence_run h).1, (evidence_run h).2.1⟩,
    fun h mid rid p a members b hc hm hf hmid => ?_,
    fun h t rid members b hc hm hmiss =>
      choose_of_missing hc (pending_of_misses hc hm hmiss) members b⟩
  have hfail : step (after h) (.observe rid p a) =
      { restart (after h).members with rejected := true } := observe_failed hc hm hf
  have hrun : after (h ++ .observe rid p a :: mid) =
      run step { restart (after h).members with rejected := true } mid := by
    rw [after, run_append, run_cons, ← hfail]
  obtain ⟨-, hcap, hz⟩ := fallback_stays (s := { restart (after h).members with rejected := true })
    hmid ⟨rfl, rfl, fun _ => rfl⟩
  rw [hrun]
  exact choose_of_fallback hcap hz members b

/-- Eight saturated turns of one request. -/
def saturatedTurns : List (Event Nat) :=
  (List.replicate 8 [Event.choose [0] 4, .observe 0 4 4]).flatten

/-- Eight saturated turns are what the choice of 5 needs. -/
theorem saturated_turns_proven : ∃ n, Proven [0] 5 n saturatedTurns :=
  growth_only_after_saturation.1 saturatedTurns [0] 4 5 (by decide +kernel) (by decide)

/-- Eight saturated turns, and the choice of cap 5 they earn. -/
def grownHistory : List (Event Nat) := saturatedTurns ++ [.choose [0] 4]

/-- After a failed probe at cap 5 a baseline of 3 makes the next choice 3, not 4. -/
theorem failed_probe_short_baseline :
    4 < (after grownHistory).cap ∧ 0 ∈ (after grownHistory).members ∧
      (after grownHistory).cap = 5 ∧
      ((after (grownHistory ++ [.observe 0 5 3])).choose [0] 3).2.1 = 3 ∧
      ((after (grownHistory ++ [.observe 0 5 3])).choose [0] 3).2.1 ≠ 4 := by
  decide +kernel

end Ringside.Speedup.Saturation

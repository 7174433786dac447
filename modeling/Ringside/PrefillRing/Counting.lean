import Ringside.PrefillRing.Progress

/-!
# The counter and the ready word, one after the other (`prb_kernel`)

In `Protocol` a thread block counts its part and, where that completes the chunk, makes it ready in
one event. In the kernel these are an `atomicAdd` and, behind a fence, a store: the other blocks,
the proxy and the queue pairs go on between them. Here they are two events, and this file says that
the machine of `Protocol` covers this one.

* `State.owes` is what a block still has to store: direction and staged index of the chunk whose
  last part it has counted. Until then it stays at its unit.
* All other events are those of `Protocol`; its `publish` does not happen here.
* `Refines`: a state of this machine is one of `Protocol`'s in which a part whose ready word is owed
  has not been counted. Counting a chunk's last part changes nothing there, and the store is
  `publish`.
* Nobody reads a counter but the blocks that count into it. Two blocks never complete a chunk at
  once, so no other part of the slot is counted between the two events.

Results:
* `completes_unique`: where one part of a step is missing, one block at most is to count it.
* `behind_count`, `behind_store`: the two events, for one rank.
* `refines_step`: an event here is an event of `Protocol`, or none.
* `refines_after`: every state that is reached here is covered by one that is reached there.
* `counting_safe_and_live`: the ring is safe and does not get stuck with two events either.
-/

namespace Ringside.PrefillRing.Counting

open Ringside.Run Ringside.PrefillRing.Protocol

variable {R : Ring}

/-! ## The machine -/

structure State (R : Ring) where
  world : World R
  owes : Rank → Fin R.grid → Option (Dir × Nat)

section Kernel

variable (R) (G : Gpu R.grid)

/-- `atomicAdd(a.cnt + …)`, and what is left to store if it completes the chunk. -/
def count (b : Fin R.grid) (u : Nat) : Gpu R.grid × Option (Dir × Nat) :=
  match R.stageOf G.kernel u with
  | some (d, j) =>
    let gi := R.stageAt d G.kernel j
    let slot := gi % R.nslot
    let cnt := fun d' sl => if d' = d ∧ sl = slot then G.cnt d slot + 1 else G.cnt d' sl
    if (G.cnt d slot + 1) % R.parts = 0 then ({ G with cnt }, some (d, gi))
    else ({ G with cnt, cta := Function.update G.cta b .idle }, none)
  | none => ({ G with cta := Function.update G.cta b .idle }, none)

/-- `st_rel_u64` of the ready word. -/
def store (b : Fin R.grid) (d : Dir) (gi : Nat) : Gpu R.grid :=
  { G with
    cta := Function.update G.cta b .idle
    ready := fun d' sl => if d' = d ∧ sl = gi % R.nslot then gi + 1 else G.ready d' sl }

end Kernel

inductive Event (R : Ring) where
  | other (e : Protocol.Event R)
  | count (r : Rank) (b : Fin R.grid) (u : Nat)
  | store (r : Rank) (b : Fin R.grid) (d : Dir) (gi : Nat)

/-- The event that is two here. -/
def publishes : Protocol.Event R → Bool
  | .publish .. => true
  | _ => false

/-- The events that are not the hosts'. -/
def Event.isLocal : Event R → Prop
  | .other e => e.isLocal
  | _ => True

/-- What block `b` of rank `r` has to store is `x` now. -/
def State.setOwes (s : State R) (r : Rank) (b : Fin R.grid) (x : Option (Dir × Nat)) :
    Rank → Fin R.grid → Option (Dir × Nat) :=
  Function.update s.owes r (Function.update (s.owes r) b x)

section Step

variable (s : State R)

/-- The event can happen. -/
def enabled : Event R → Prop
  | .other e => Protocol.enabled s.world e ∧ publishes e = false
  | .count r b u => (s.world.gpu r).cta b = .publish u ∧ s.owes r b = none
  | .store r b d gi => s.owes r b = some (d, gi)

instance (e : Event R) : Decidable (enabled s e) := by
  cases e <;> unfold enabled <;> infer_instance

/-- What an event does. -/
def fire : Event R → State R
  | .other e => { s with world := Protocol.fire s.world e }
  | .count r b u =>
    let counted := count R (s.world.gpu r) b u
    ⟨s.world.setGpu r counted.1, s.setOwes r b counted.2⟩
  | .store r b d gi =>
    ⟨s.world.setGpu r (store R (s.world.gpu r) b d gi), s.setOwes r b none⟩

/-- One event; one that cannot happen does nothing. -/
def step (e : Event R) : State R := if enabled s e then fire s e else s

end Step

/-- The state a history of events leads to, from one where nothing is owed. -/
def after (R : Ring) (h : List (Event R)) : State R := run step ⟨World.init R, fun _ _ => none⟩ h

/-! ## What it covers -/

/-- The same state with other counters. -/
def withCnt (w : World R) (cnt : Rank → Dir → Nat → Nat) : World R :=
  { w with gpu := fun r => { w.gpu r with cnt := cnt r } }

/-- The ready word of a slot is owed. -/
def Owed (owes : Fin R.grid → Option (Dir × Nat)) (d : Dir) (sl : Nat) : Prop :=
  ∃ b gi, owes b = some (d, gi) ∧ gi % R.nslot = sl

open Classical in
/-- **The kernels `G` are `H`**, but for the parts whose ready word is owed: `G` has counted
them. -/
structure Behind (G : Gpu R.grid) (owes : Fin R.grid → Option (Dir × Nat)) (H : Gpu R.grid) :
    Prop where
  same : G = { H with cnt := G.cnt }
  cnt : ∀ d sl, G.cnt d sl = H.cnt d sl + if Owed owes d sl then 1 else 0
  /-- Who owes a ready word is to count the last part of its chunk. -/
  last : ∀ b d gi, owes b = some (d, gi) → ∃ u j, H.cta b = .publish u ∧
    R.stageOf H.kernel u = some (d, j) ∧ R.stageAt d H.kernel j = gi ∧
    (H.cnt d (gi % R.nslot) + 1) % R.parts = 0

/-- The state `s` is `w`, but for that. -/
structure Refines (s : State R) (w : World R) : Prop where
  gpu : ∀ r, Behind (s.world.gpu r) (s.owes r) (w.gpu r)
  proxy : s.world.proxy = w.proxy
  inbox : s.world.inbox = w.inbox

/-! ## One block completes a chunk -/

section Unique

variable {H : Gpu R.grid}

/-- A block that is to count a part holds a unit of the round of its slot, not counted yet. -/
theorem part_of_publish (hK : KernelInv H) {b : Fin R.grid} {u j : Nat} {d : Dir}
    (hb : H.cta b = .publish u) (h : R.stageOf H.kernel u = some (d, j)) :
    PartOf R d (R.stageAt d H.kernel j) (u % R.parts) H.kernel u ∧ phase H H.kernel u = 2 := by
  have hunit : (H.cta b).unit = some u := by rw [hb]; rfl
  refine ⟨partOf_of_stageOf (hK.unit_lt b u hunit).1 h, ?_⟩
  rw [phase_of_unit hK hunit, hb]
  rfl

open Classical in
/-- **One block completes a chunk**: where one part of a slot's step is missing, one block at most
is to count it. -/
theorem completes_unique (hK : KernelInv H) (hS : StageInv H) {b b' : Fin R.grid}
    {u u' j j' : Nat} {d : Dir} (hb : H.cta b = .publish u) (hb' : H.cta b' = .publish u')
    (h : R.stageOf H.kernel u = some (d, j)) (h' : R.stageOf H.kernel u' = some (d, j'))
    (hslot : R.stageAt d H.kernel j' % R.nslot = R.stageAt d H.kernel j % R.nslot)
    (hlast : (H.cnt d (R.stageAt d H.kernel j % R.nslot) + 1) % R.parts = 0) : b = b' := by
  obtain ⟨hpart, hphase⟩ := part_of_publish hK hb h
  obtain ⟨hpart', hphase'⟩ := part_of_publish hK hb' h'
  have hround := round_eq hS hpart (by omega) (by omega)
  have hround' := round_eq hS hpart' (by omega) (by omega)
  -- both units are parts of one step
  have hgi : R.stageAt d H.kernel j' = R.stageAt d H.kernel j :=
    eq_of_div_mod hslot (by rw [hround', hround, hslot])
  rw [hgi] at hpart'
  have hunit : ∀ {v : Nat} {b : Fin R.grid}, H.cta b = .publish v → (H.cta b).unit = some v :=
    fun h => by rw [h]; rfl
  suffices hp : u % R.parts = u' % R.parts by
    obtain ⟨-, rfl⟩ := partOf_unique hpart (hp ▸ hpart')
    exact hK.unit_inj b b' u (hunit hb) (hunit hb')
  by_contra hne
  -- neither part is counted, so two are missing
  have hnot : ∀ {p v : Nat}, PartOf R d (R.stageAt d H.kernel j) p H.kernel v →
      phase H H.kernel v = 2 → ¬ Counted H d (R.stageAt d H.kernel j) p := by
    rintro p v hv h2 ⟨c, x, hx, h3⟩
    obtain ⟨rfl, rfl⟩ := partOf_unique hv hx
    omega
  have hsub : (Finset.range R.parts).filter (Counted H d (R.stageAt d H.kernel j)) ⊆
      ((Finset.range R.parts).erase (u % R.parts)).erase (u' % R.parts) := by
    intro p hp
    obtain ⟨hlt, hc⟩ := Finset.mem_filter.mp hp
    refine Finset.mem_erase.mpr ⟨?_, Finset.mem_erase.mpr ⟨?_, hlt⟩⟩
    · rintro rfl
      exact hnot hpart' hphase' hc
    · rintro rfl
      exact hnot hpart hphase hc
  have hcard := Finset.card_le_card hsub
  have hpos := R.parts_pos
  have hu := Nat.mod_lt u hpos
  have hu' := Nat.mod_lt u' hpos
  rw [hS.part d _ hround,
    Finset.card_erase_of_mem
      (Finset.mem_erase.mpr ⟨fun h => hne h.symm, Finset.mem_range.mpr hu'⟩),
    Finset.card_erase_of_mem (Finset.mem_range.mpr hu), Finset.card_range] at hcard
  have hlt := Nat.mod_lt (H.cnt d (R.stageAt d H.kernel j % R.nslot)) hpos
  rw [← Nat.mod_add_mod, Nat.mod_eq_of_lt (by omega)] at hlast
  omega

end Unique

/-! ## Counting and storing -/

section Kernels

variable {G H : Gpu R.grid} {owes : Fin R.grid → Option (Dir × Nat)} {b : Fin R.grid}

/-- A block that owed nothing owes a slot's ready word now. -/
theorem owed_update (ho : owes b = none) {d d' : Dir} {gi sl : Nat} :
    Owed (Function.update owes b (some (d, gi))) d' sl ↔
      (d' = d ∧ sl = gi % R.nslot) ∨ Owed owes d' sl := by
  constructor
  · rintro ⟨b', gi', h, rfl⟩
    by_cases hb : b' = b
    · subst hb
      rw [Function.update_self] at h
      cases h
      exact Or.inl ⟨rfl, rfl⟩
    · rw [Function.update_of_ne hb] at h
      exact Or.inr ⟨b', gi', h, rfl⟩
  · rintro (⟨rfl, rfl⟩ | ⟨b', gi', h, rfl⟩)
    · exact ⟨b, gi, Function.update_self .., rfl⟩
    · have hne : b' ≠ b := fun e => by rw [e, ho] at h; exact absurd h (by simp)
      exact ⟨b', gi', by rwa [Function.update_of_ne hne], rfl⟩

/-- Where a block is to count the last part of a chunk, no other one owes the slot's ready word. -/
theorem Behind.not_owed (h : Behind G owes H) (hK : KernelInv H) (hS : StageInv H) {u j : Nat}
    {d : Dir} (hb : H.cta b = .publish u) (hst : R.stageOf H.kernel u = some (d, j))
    {b' : Fin R.grid} {gi : Nat} (hne : b' ≠ b) (ho : owes b' = some (d, gi)) :
    gi % R.nslot ≠ R.stageAt d H.kernel j % R.nslot := by
  intro hslot
  obtain ⟨u', j', hb', hst', rfl, hlast⟩ := h.last b' d gi ho
  exact hne (completes_unique hK hS hb' hb hst' hst hslot.symm hlast)

/-- A block that stored its ready word owes it no longer. -/
theorem owed_release {d d' : Dir} {gi sl : Nat} (ho : owes b = some (d, gi))
    (hother : ∀ b' gi', b' ≠ b → owes b' = some (d, gi') → gi' % R.nslot ≠ gi % R.nslot) :
    Owed (Function.update owes b none) d' sl ↔
      Owed owes d' sl ∧ ¬ (d' = d ∧ sl = gi % R.nslot) := by
  constructor
  · rintro ⟨b', gi', h, rfl⟩
    have hne : b' ≠ b := fun e => by rw [e, Function.update_self] at h; exact absurd h (by simp)
    rw [Function.update_of_ne hne] at h
    refine ⟨⟨b', gi', h, rfl⟩, ?_⟩
    rintro ⟨rfl, hs⟩
    exact hother b' gi' hne h hs
  · rintro ⟨⟨b', gi', h, rfl⟩, hslot⟩
    have hne : b' ≠ b := fun e => by
      rw [e, ho] at h
      cases h
      exact hslot ⟨rfl, rfl⟩
    exact ⟨b', gi', by rwa [Function.update_of_ne hne], rfl⟩

open Classical in
/-- **Counting a part** is `publish`, or nothing yet where it completes the chunk. -/
theorem behind_count (h : Behind G owes H) (hK : KernelInv H) (hS : StageInv H) {u : Nat}
    (hb : G.cta b = .publish u) (ho : owes b = none) :
    Behind (count R G b u).1 (Function.update owes b (count R G b u).2) H ∨
      Behind (count R G b u).1 (Function.update owes b (count R G b u).2) (H.publish R b u) := by
  obtain ⟨cnt, rfl⟩ : ∃ cnt, G = { H with cnt := cnt } := ⟨_, h.same⟩
  have hnone : Function.update owes b none = owes := by rw [← ho, Function.update_eq_self]
  have hne : ∀ {b' : Fin R.grid} {x : Dir × Nat}, owes b' = some x → b' ≠ b :=
    fun h e => by rw [e, ho] at h; exact absurd h (by simp)
  unfold count Gpu.publish
  dsimp only at hb ⊢
  cases hst : R.stageOf H.kernel u with
  | none =>
    refine Or.inr ⟨rfl, fun d sl => by rw [hnone]; exact h.cnt d sl, fun b' d gi ho' => ?_⟩
    rw [hnone] at ho'
    obtain ⟨u', j', hb', hst'⟩ := h.last b' d gi ho'
    exact ⟨u', j', (Function.update_of_ne (hne ho') _ _).trans hb', hst'⟩
  | some dj =>
    obtain ⟨d, j⟩ := dj
    have hslot : ∀ {b' : Fin R.grid} {gi : Nat}, owes b' = some (d, gi) →
        gi % R.nslot ≠ R.stageAt d H.kernel j % R.nslot :=
      fun ho' => h.not_owed hK hS hb hst (hne ho') ho'
    -- so the counter is the same on both sides
    have hcnt : cnt d (R.stageAt d H.kernel j % R.nslot) =
        H.cnt d (R.stageAt d H.kernel j % R.nslot) := by
      refine (h.cnt d _).trans ?_
      rw [if_neg (fun ⟨b', gi, ho', hs⟩ => hslot ho' hs), Nat.add_zero]
    dsimp only
    split
    · -- the chunk is complete, and its ready word owed
      rename_i hlast
      refine Or.inl ⟨rfl, fun d' sl => ?_, fun b' d' gi ho' => ?_⟩
      · dsimp only
        simp only [owed_update ho]
        by_cases hsl : d' = d ∧ sl = R.stageAt d H.kernel j % R.nslot
        · rw [if_pos hsl, if_pos (Or.inl hsl), hcnt, hsl.1, hsl.2]
        · rw [if_neg hsl]
          simp only [hsl, false_or]
          exact h.cnt d' sl
      · by_cases hb' : b' = b
        · subst hb'
          rw [Function.update_self] at ho'
          cases ho'
          exact ⟨u, j, hb, hst, rfl, by rw [← hcnt]; exact hlast⟩
        · rw [Function.update_of_ne hb'] at ho'
          exact h.last b' d' gi ho'
    · rename_i hlast
      rw [hcnt] at hlast
      rw [hnone]
      refine Or.inr ⟨?_, fun d' sl => ?_, fun b' d' gi ho' => ?_⟩
      · simp only [hlast, and_false, if_false]
      · dsimp only
        have hold := h.cnt d' sl
        dsimp only at hold
        split
        · rename_i hsl
          rw [hsl.1, hsl.2] at hold ⊢
          omega
        · exact hold
      · obtain ⟨u', j', hb', hst', hgi, hl⟩ := h.last b' d' gi ho'
        refine ⟨u', j', (Function.update_of_ne (hne ho') _ _).trans hb', hst', hgi, ?_⟩
        dsimp only
        rw [if_neg]
        · exact hl
        · rintro ⟨rfl, hs⟩
          exact hslot ho' hs

open Classical in
/-- **Storing the ready word** is `publish`. -/
theorem behind_store (h : Behind G owes H) (hK : KernelInv H) (hS : StageInv H) {d : Dir}
    {gi : Nat} (ho : owes b = some (d, gi)) : ∃ u, H.cta b = .publish u ∧
      Behind (store R G b d gi) (Function.update owes b none) (H.publish R b u) := by
  obtain ⟨u, j, hb, hst, rfl, hlast⟩ := h.last b d gi ho
  refine ⟨u, hb, ?_⟩
  obtain ⟨cnt, rfl⟩ : ∃ cnt, G = { H with cnt := cnt } := ⟨_, h.same⟩
  have hslot : ∀ (b' : Fin R.grid) (gi : Nat), b' ≠ b → owes b' = some (d, gi) →
      gi % R.nslot ≠ R.stageAt d H.kernel j % R.nslot :=
    fun b' gi hne ho' => h.not_owed hK hS hb hst hne ho'
  unfold store Gpu.publish
  rw [hst]
  dsimp only
  refine ⟨?_, fun d' sl => ?_, fun b' d' gi ho' => ?_⟩
  · simp only [hlast, and_true]
  · have hold := h.cnt d' sl
    dsimp only at hold ⊢
    simp only [owed_release ho hslot]
    by_cases hsl : d' = d ∧ sl = R.stageAt d H.kernel j % R.nslot
    · obtain ⟨rfl, rfl⟩ := hsl
      rw [if_pos ⟨b, _, ho, rfl⟩] at hold
      simp [hold]
    · simp only [hsl, not_false_eq_true, and_true, if_false]
      exact hold
  · have hne : b' ≠ b := fun e => by
      rw [e, Function.update_self] at ho'
      exact absurd ho' (by simp)
    rw [Function.update_of_ne hne] at ho'
    obtain ⟨u', j', hb', hst', hgi, hl⟩ := h.last b' d' gi ho'
    refine ⟨u', j', (Function.update_of_ne hne _ _).trans hb', hst', hgi, ?_⟩
    dsimp only
    rw [if_neg]
    · exact hl
    · rintro ⟨rfl, hs⟩
      exact hslot b' gi hne ho' hs

end Kernels

/-! ## The simulation -/

section Simulation

variable {s : State R} {w : World R}

/-- The counters are no part of what an event needs. -/
theorem enabled_withCnt (cnt : Rank → Dir → Nat → Nat) (e : Protocol.Event R) :
    Protocol.enabled (withCnt w cnt) e ↔ Protocol.enabled w e := by
  cases e <;> exact Iff.rfl

theorem setGpu_withCnt (cnt : Rank → Dir → Nat → Nat) (r : Rank) (G : Gpu R.grid) :
    withCnt (w.setGpu r G) cnt = (withCnt w cnt).setGpu r { G with cnt := cnt r } := by
  unfold withCnt World.setGpu
  congr 1
  funext r'
  by_cases h : r' = r
  · subst h
    simp only [Function.update_self]
  · simp only [Function.update_of_ne h]

theorem copy_withCnt (G : Gpu R.grid) (cnt : Dir → Nat → Nat) (b : Fin R.grid) (u : Nat) :
    { G with cnt }.copy R b u = { G.copy R b u with cnt } := by
  unfold Gpu.copy
  dsimp only
  cases R.stageOf G.kernel u <;> rfl

/-- Nor of what any but `publish` does. -/
theorem fire_withCnt (cnt : Rank → Dir → Nat → Nat) {e : Protocol.Event R}
    (he : publishes e = false) :
    Protocol.fire (withCnt w cnt) e = withCnt (Protocol.fire w e) cnt := by
  cases e with
  | publish => exact absurd he (by simp [publishes])
  | copy r b u =>
    refine Eq.trans ?_ (setGpu_withCnt cnt r _).symm
    rw [← copy_withCnt]
    rfl
  | launch r =>
    exact (setGpu_withCnt cnt r { w.gpu r with launched := (w.gpu r).launched + 1 }).symm
  | fetch r b => exact (setGpu_withCnt cnt r ((w.gpu r).fetch R b)).symm
  | pass r b u k => exact (setGpu_withCnt cnt r ((w.gpu r).pass R b u k)).symm
  | retire r => exact (setGpu_withCnt cnt r ((w.gpu r).retire R)).symm
  | _ => rfl

/-- Only `publish` counts. -/
theorem fire_cnt {e : Protocol.Event R} (he : publishes e = false) (r : Rank) :
    ((Protocol.fire w e).gpu r).cnt = (w.gpu r).cnt := by
  have h : Protocol.fire w e = withCnt (Protocol.fire w e) fun r => (w.gpu r).cnt :=
    fire_withCnt (fun r => (w.gpu r).cnt) he
  rw [h]
  rfl

/-- A block that is to count a part stays where it is. -/
def Stays (w w' : World R) : Prop :=
  ∀ r b u, (w.gpu r).cta b = .publish u →
    (w'.gpu r).cta b = .publish u ∧ (w'.gpu r).kernel = (w.gpu r).kernel

theorem stays_setGpu {r : Rank} {b : Fin R.grid} {G : Gpu R.grid} {y : Cta}
    (hcta : G.cta = Function.update (w.gpu r).cta b y) (hk : G.kernel = (w.gpu r).kernel)
    (hb : ∀ u, (w.gpu r).cta b ≠ .publish u) : Stays w (w.setGpu r G) := by
  intro r' b' u hb'
  rw [setGpu_gpu]
  split
  · rename_i hr
    subst hr
    have hne : b' ≠ b := fun h => hb u (h ▸ hb')
    rw [hcta, Function.update_of_ne hne]
    exact ⟨hb', hk⟩
  · exact ⟨hb', rfl⟩

theorem stays_fire {e : Protocol.Event R} (he : publishes e = false)
    (hen : Protocol.enabled w e) : Stays w (Protocol.fire w e) := by
  cases e with
  | publish => exact absurd he (by simp [publishes])
  | launch r =>
    intro r' b u hb
    unfold Protocol.fire
    rw [setGpu_gpu]
    split
    · rename_i hr
      subst hr
      exact ⟨hb, rfl⟩
    · exact ⟨hb, rfl⟩
  | fetch r b => exact stays_setGpu rfl rfl fun u => by rw [hen.2]; simp
  | pass r b u k => exact stays_setGpu rfl rfl fun v => by rw [hen.1]; simp
  | copy r b u =>
    have hcta : ∃ y, ((w.gpu r).copy R b u).cta = Function.update (w.gpu r).cta b y := by
      unfold Gpu.copy
      split
      · exact ⟨_, rfl⟩
      · exact ⟨_, rfl⟩
    obtain ⟨y, hcta⟩ := hcta
    refine stays_setGpu hcta ?_ fun v => by rw [show (w.gpu r).cta b = _ from hen]; simp
    unfold Gpu.copy
    split <;> rfl
  | retire r =>
    intro r' b u hb
    unfold Protocol.fire
    rw [setGpu_gpu]
    split
    · rename_i hr
      subst hr
      rw [hen.2 b] at hb
      exact absurd hb (by simp)
    · exact ⟨hb, rfl⟩
  | _ => exact fun r b u hb => ⟨hb, rfl⟩

/-- A kernel event, counters aside, on both sides. -/
theorem refines_setGpu (h : Refines s w) {r : Rank} {G H : Gpu R.grid}
    {owes : Fin R.grid → Option (Dir × Nat)} (hB : Behind G owes H) :
    Refines ⟨s.world.setGpu r G, Function.update s.owes r owes⟩ (w.setGpu r H) where
  gpu r' := by
    simp only [setGpu_gpu]
    by_cases hr : r' = r
    · subst hr
      rw [if_pos rfl, if_pos rfl, Function.update_self]
      exact hB
    · rw [if_neg hr, if_neg hr, Function.update_of_ne hr]
      exact h.gpu r'
  proxy := h.proxy
  inbox := h.inbox

theorem Refines.world_eq (h : Refines s w) : s.world = withCnt w fun r => (s.world.gpu r).cnt := by
  have hgpu : s.world.gpu = fun r => { w.gpu r with cnt := (s.world.gpu r).cnt } :=
    funext fun r => (h.gpu r).same
  calc s.world = ⟨s.world.gpu, s.world.proxy, s.world.inbox⟩ := rfl
    _ = withCnt w fun r => (s.world.gpu r).cnt := by
      rw [h.proxy, h.inbox]
      exact congrArg (fun gpu => World.mk gpu w.proxy w.inbox) hgpu

/-- **The events that are the same on both sides.** -/
theorem refines_other (h : Refines s w) {e : Protocol.Event R} (he : publishes e = false)
    (hen : Protocol.enabled s.world e) :
    Refines (fire s (.other e)) (Protocol.step w e) := by
  have hen' : Protocol.enabled w e := by
    rw [h.world_eq, enabled_withCnt] at hen
    exact hen
  have hworld : Protocol.fire s.world e =
      withCnt (Protocol.fire w e) fun r => (s.world.gpu r).cnt := by
    conv_lhs => rw [h.world_eq]
    exact fire_withCnt _ he
  rw [Protocol.step, if_pos hen']
  refine ⟨fun r => ⟨?_, fun d sl => ?_, fun b d gi ho => ?_⟩, ?_, ?_⟩
  · have hcnt : ((fire s (.other e)).world.gpu r).cnt = (s.world.gpu r).cnt := fire_cnt he r
    rw [hcnt]
    show (Protocol.fire s.world e).gpu r = _
    rw [hworld]
    rfl
  · show ((Protocol.fire s.world e).gpu r).cnt d sl = _
    rw [fire_cnt he, fire_cnt he]
    exact (h.gpu r).cnt d sl
  · obtain ⟨u, j, hb, hst, hgi, hlast⟩ := (h.gpu r).last b d gi ho
    obtain ⟨hb', hk⟩ := stays_fire he hen' r b u hb
    rw [← hk] at hst hgi
    exact ⟨u, j, hb', hst, hgi, by rw [fire_cnt he]; exact hlast⟩
  · show (Protocol.fire s.world e).proxy = _
    rw [hworld]
    rfl
  · show (Protocol.fire s.world e).inbox = _
    rw [hworld]
    rfl

/-- **An event is an event of `Protocol`, or none.** -/
theorem refines_step (hw : Inv w) (h : Refines s w) (e : Event R) :
    ∃ w', Refines (step s e) w' ∧ (w' = w ∨ ∃ e', w' = Protocol.step w e') := by
  unfold step
  split
  swap
  · exact ⟨w, h, Or.inl rfl⟩
  rename_i hen
  cases e with
  | other e => exact ⟨_, refines_other h hen.2 hen.1, Or.inr ⟨e, rfl⟩⟩
  | count r b u =>
    obtain ⟨hb, ho⟩ := hen
    have hb' : (w.gpu r).cta b = .publish u := by rw [(h.gpu r).same] at hb; exact hb
    rcases behind_count (h.gpu r) (hw.kernel r) (hw.slots r) hb ho with hB | hB
    · refine ⟨w, ?_, Or.inl rfl⟩
      have hsame : w.setGpu r (w.gpu r) = w := by rw [World.setGpu, Function.update_eq_self]
      have hR := refines_setGpu (r := r) h hB
      rw [hsame] at hR
      exact hR
    · refine ⟨_, refines_setGpu h hB, Or.inr ⟨.publish r b u, ?_⟩⟩
      rw [Protocol.step, if_pos (show Protocol.enabled w (.publish r b u) from hb')]
      rfl
  | store r b d gi =>
    obtain ⟨u, hb, hB⟩ := behind_store (h.gpu r) (hw.kernel r) (hw.slots r) hen
    refine ⟨_, refines_setGpu h hB, Or.inr ⟨.publish r b u, ?_⟩⟩
    rw [Protocol.step, if_pos (show Protocol.enabled w (.publish r b u) from hb)]
    rfl

/-- Nothing is owed at the start. -/
theorem refines_init : Refines ⟨World.init R, fun _ _ => none⟩ (World.init R) where
  gpu r :=
    { same := rfl
      cnt := fun d sl => by
        rw [if_neg]
        · rfl
        · rintro ⟨b, gi, h, -⟩
          exact absurd h (by simp)
      last := fun b d gi h => absurd h (by simp) }
  proxy := rfl
  inbox := rfl

/-- **Every state that is reached is covered by one that `Protocol` reaches.** -/
theorem refines_after (h : List (Event R)) :
    ∃ h' : List (Protocol.Event R), Refines (after R h) (Protocol.after R h') := by
  refine invariant (P := fun s => ∃ h', Refines s (Protocol.after R h'))
    ⟨[], refines_init⟩ (fun s e ⟨h', hs⟩ => ?_) h
  obtain ⟨w', hw', rfl | ⟨e', rfl⟩⟩ := refines_step (inv_after h') hs e
  · exact ⟨h', hw'⟩
  · refine ⟨h' ++ [e'], ?_⟩
    rwa [Protocol.after, run_snoc]

/-! ## Safety and progress -/

/-- What is safe does not depend on the counters. -/
theorem safe_withCnt (cnt : Rank → Dir → Nat → Nat) (h : Safe w) : Safe (withCnt w cnt) :=
  ⟨h.waits, h.reads, h.relayWaits, h.relays, h.areas, h.slots, h.sent⟩

/-- Where `Protocol` goes on, so does this machine. -/
theorem exists_event (h : Refines s w) {e : Protocol.Event R} (he : Protocol.enabled w e) :
    ∃ e', enabled s e' ∧ (e.isLocal → e'.isLocal) := by
  have hen : Protocol.enabled s.world e := by
    rw [h.world_eq, enabled_withCnt]
    exact he
  cases hp : publishes e with
  | false => exact ⟨.other e, ⟨hen, hp⟩, id⟩
  | true =>
    obtain ⟨r, b, u, rfl⟩ : ∃ r b u, e = .publish r b u := by
      cases e <;> simp [publishes] at hp ⊢
    cases ho : s.owes r b with
    | none => exact ⟨.count r b u, ⟨hen, ho⟩, fun _ => trivial⟩
    | some x => exact ⟨.store r b x.1 x.2, ho, fun _ => trivial⟩

/-- **The prefill ring is safe and does not get stuck**, with the counter and the ready word as two
events. -/
theorem counting_safe_and_live (R : Ring) (h : List (Event R)) :
    Safe (after R h).world ∧
      (∀ r, (∀ r', ((after R h).world.gpu r).kernel < ((after R h).world.gpu r').launched) →
        ∃ e : Event R, e.isLocal ∧ enabled (after R h) e) ∧
      ∀ r, ((after R h).world.gpu r).kernel < R.count →
        ∃ e : Event R, enabled (after R h) e := by
  obtain ⟨h', hR⟩ := refines_after h
  have hkernel : ∀ r, ((after R h).world.gpu r).kernel = ((Protocol.after R h').gpu r).kernel :=
    fun r => by rw [(hR.gpu r).same]
  have hlaunched : ∀ r, ((after R h).world.gpu r).launched =
      ((Protocol.after R h').gpu r).launched := fun r => by rw [(hR.gpu r).same]
  refine ⟨?_, fun r hl => ?_, fun r hc => ?_⟩
  · rw [hR.world_eq]
    exact safe_withCnt _ (safe_after h')
  · simp only [hkernel, hlaunched] at hl
    obtain ⟨e, hloc, he⟩ := exists_local (inv_after h') hl
    obtain ⟨e', he', hloc'⟩ := exists_event hR he
    exact ⟨e', hloc' hloc, he'⟩
  · rw [hkernel] at hc
    obtain ⟨e, he⟩ := exists_enabled (inv_after h') hc
    obtain ⟨e', he', -⟩ := exists_event hR he
    exact ⟨e', he'⟩

end Simulation

end Ringside.PrefillRing.Counting

import Ringside.PrefillRing.Protocol

/-!
# The kernels of one rank: units, slots and ready words

`phase` says how far a unit has come: not taken, at work, to be counted, done. Every event of a
kernel moves one unit one phase on, and what the slots hold follows from the phases.

* A unit of a call is a part of one of its items; `PartOf` says which part of which staged step.
  Steps are numbered over all calls (`Ring.stageAt`), slots are these numbers modulo `nslot`.
* The counter of a slot is never reset. Its quotient by the number of parts is the slot's round, its
  remainder what was counted in this round.
* A slot's next step is not started before the one in it has been sent, so at any time one step of a
  slot is under way at most.

Results:
* `partOf_unique`, `exists_partOf`: every part of a staged step is one unit.
* `phase_fetch`, `phase_update`, `phase_retire`: what an event does.
* `KernelInv`, `kernelInv_*`: the work counter and the thread blocks agree, over all kernels.
* `StageInv`, `stageInv_*`: the parts of a slot are counted round by round, and a slot's ready word
  names the last step that was staged whole.
-/

namespace Ringside.PrefillRing.Protocol

open Ringside.Run Ringside.Merge Ringside.Segments

variable {R : Ring}

/-! ## Units

The units of a call are the parts of its items, in the order of the items. A staged step is one
item, so its parts are consecutive units; `PartOf` connects the three numberings, by call and unit,
by step, and by the number of the staged chunk.
-/

section Units

/-- The unit a thread block holds. -/
def Cta.unit : Cta → Option Nat
  | .wait u _ | .work u | .publish u => some u
  | .idle | .exited => none

/-- How far the unit of a thread block is: waiting, at work, to be counted. -/
def Cta.phase : Cta → Nat
  | .wait _ _ => 0
  | .work _ => 1
  | .publish _ => 2
  | .idle | .exited => 3

theorem stageOf_spec {c u : Nat} (hu : u < R.units c) {d : Dir} {j : Nat}
    (h : R.stageOf c u = some (d, j)) :
    j < (R.calls c).staged d ∧ ∃ it, itemAt (R.calls c) (u / R.parts) = some it ∧
      stageDir it.kind = some d ∧ it.index = j ∧ it.step = j := by
  have hi : u / R.parts < (R.calls c).items := (Nat.div_lt_iff_lt_mul R.parts_pos).mpr hu
  unfold Ring.stageOf Ring.item at h
  split at h
  · rename_i it hit
    cases hd : stageDir it.kind with
    | none => simp [hd] at h
    | some d' =>
      simp only [hd, Option.map_some, Option.some.injEq, Prod.mk.injEq] at h
      obtain ⟨rfl, rfl⟩ := h
      obtain ⟨hj, hstep⟩ := stage_item hi hit hd
      exact ⟨hj, it, hit, hd, rfl, hstep⟩
  · simp at h

theorem stageDir_inj {k k' : ItemKind} {d : Dir} (h : stageDir k = some d)
    (h' : stageDir k' = some d) : k = k' := by
  cases d <;> cases k <;> cases k' <;> simp_all [stageDir]

/-- The units of a staged step are the parts of one item. -/
theorem exists_stageOf {c : Nat} {d : Dir} {j : Nat} (hj : j < (R.calls c).staged d) :
    ∃ i < (R.calls c).items, ∀ u < R.units c, R.stageOf c u = some (d, j) ↔ u / R.parts = i := by
  obtain ⟨i, hi, it, hit, hd, hidx⟩ := exists_stage_item hj
  refine ⟨i, hi, fun u hu => ⟨fun h => ?_, fun h => ?_⟩⟩
  · obtain ⟨-, it', hit', hd', hidx', hstep'⟩ := stageOf_spec hu h
    have hu' : u / R.parts < (R.calls c).items := (Nat.div_lt_iff_lt_mul R.parts_pos).mpr hu
    have hkind := stageDir_inj hd' hd
    have hstep := (stage_item hi hit hd).2
    have : it' = it := by
      obtain ⟨k, x, t⟩ := it
      obtain ⟨k', x', t'⟩ := it'
      simp_all
    subst this
    exact item_unique hu' hi hit' hit
  · unfold Ring.stageOf Ring.item
    rw [h, hit]
    simp [hd, hidx]

/-- Unit `u` of call `c` is part `p` of the step staged as number `gi`. -/
def PartOf (R : Ring) (d : Dir) (gi p c u : Nat) : Prop :=
  u < R.units c ∧ u % R.parts = p ∧ ∃ j, R.stageOf c u = some (d, j) ∧ R.stageAt d c j = gi

theorem partOf_unique {d : Dir} {gi p c u c' u' : Nat} (h : PartOf R d gi p c u)
    (h' : PartOf R d gi p c' u') : c = c' ∧ u = u' := by
  obtain ⟨hu, hp, j, hj, hgi⟩ := h
  obtain ⟨hu', hp', j', hj', hgi'⟩ := h'
  obtain ⟨hlt, -⟩ := stageOf_spec hu hj
  obtain ⟨hlt', -⟩ := stageOf_spec hu' hj'
  obtain ⟨rfl, rfl⟩ := @place_inj (fun c => (R.calls c).staged d) _ _ _ _ hlt hlt'
    (hgi.trans hgi'.symm)
  obtain ⟨i, -, hiff⟩ := exists_stageOf hlt
  have h1 := (hiff u hu).mp hj
  have h2 := (hiff u' hu').mp hj'
  refine ⟨rfl, ?_⟩
  rw [← Nat.div_add_mod u R.parts, ← Nat.div_add_mod u' R.parts, h1, h2, hp, hp']

/-- Every staged step has all its parts. -/
theorem exists_partOf {d : Dir} {c j p : Nat} (hj : j < (R.calls c).staged d) (hp : p < R.parts) :
    ∃ u, PartOf R d (R.stageAt d c j) p c u := by
  obtain ⟨i, hi, hiff⟩ := exists_stageOf hj
  have hu : i * R.parts + p < R.units c := by
    have : (i + 1) * R.parts ≤ R.units c := Nat.mul_le_mul_right _ hi
    rw [Nat.succ_mul] at this
    omega
  refine ⟨i * R.parts + p, hu, ?_, j, (hiff _ hu).mpr ?_, rfl⟩
  · rw [Nat.add_comm, Nat.add_mul_mod_self_right, Nat.mod_eq_of_lt hp]
  · rw [Nat.add_comm, Nat.add_mul_div_right _ _ R.parts_pos, Nat.div_eq_of_lt hp, Nat.zero_add]

/-- Every staged index is some step of some call. -/
theorem exists_stageAt (d : Dir) (gi : Nat) :
    ∃ c j, j < (R.calls c).staged d ∧ R.stageAt d c j = gi :=
  exists_place (fun _ => staged_pos d) gi

end Units

/-! ## The thread blocks

The phase of a unit is not stored anywhere. It is read off the block that holds the unit, or off the
work counter where no block does, and the lemmas say how each event moves it.
-/

section Kernel

variable (G : Gpu R.grid)

/-- The work counter and the thread blocks agree. -/
structure KernelInv : Prop where
  kernel_le : G.kernel ≤ G.launched
  work_ge : R.workBase G.kernel ≤ G.work
  resting : G.kernel = G.launched → G.work = R.workBase G.kernel ∧ ∀ b, G.cta b = .idle
  unit_lt : ∀ b u, (G.cta b).unit = some u →
    u < R.units G.kernel ∧ R.workBase G.kernel + u < G.work
  unit_inj : ∀ b b' u, (G.cta b).unit = some u → (G.cta b').unit = some u → b = b'
  exits : (Finset.univ.filter fun b => G.cta b = .exited).card =
    G.work - R.workBase G.kernel - R.units G.kernel

open Classical in
/-- How far unit `u` of call `c` has come: 0 not started, 1 at work, 2 to be counted, 3 done. -/
noncomputable def phase (c u : Nat) : Nat :=
  if c < G.kernel then 3
  else if c = G.kernel ∧ R.workBase c + u < G.work then
    if h : ∃ b, (G.cta b).unit = some u then (G.cta h.choose).phase else 3
  else 0

variable {G}

theorem phase_of_lt {c u : Nat} (h : c < G.kernel) : phase G c u = 3 := if_pos h

theorem phase_of_unit (hG : KernelInv G) {b : Fin R.grid} {u : Nat}
    (h : (G.cta b).unit = some u) : phase G G.kernel u = (G.cta b).phase := by
  have hex : ∃ b, (G.cta b).unit = some u := ⟨b, h⟩
  unfold phase
  rw [if_neg (lt_irrefl _), if_pos ⟨rfl, (hG.unit_lt b u h).2⟩, dif_pos hex,
    hG.unit_inj _ _ _ hex.choose_spec h]

theorem phase_of_free {u : Nat} (hw : R.workBase G.kernel + u < G.work)
    (h : ∀ b, (G.cta b).unit ≠ some u) : phase G G.kernel u = 3 := by
  unfold phase
  rw [if_neg (lt_irrefl _), if_pos ⟨rfl, hw⟩, dif_neg (by simpa using h)]

theorem phase_of_unfetched {c u : Nat} (h : ¬ c < G.kernel)
    (h' : ¬ (c = G.kernel ∧ R.workBase c + u < G.work)) : phase G c u = 0 := by
  unfold phase
  rw [if_neg h, if_neg h']

theorem kernel_ge_of_phase {c u : Nat} (h : phase G c u ≠ 0) : c ≤ G.kernel := by
  by_contra hc
  exact h (phase_of_unfetched (by omega) (by omega))

/-- A unit held by one thread block is held by no other after the event either. -/
theorem unit_update {b b' : Fin R.grid} {y : Cta} {v : Nat}
    (hy : y.unit = (G.cta b).unit ∨ y.unit = none)
    (h : (Function.update G.cta b y b').unit = some v) : (G.cta b').unit = some v := by
  rcases eq_or_ne b' b with rfl | hb
  · rw [Function.update_self] at h
    rcases hy with hy | hy
    · rw [← hy]
      exact h
    · rw [hy] at h
      simp at h
  · rwa [Function.update_of_ne hb] at h

/-- With every thread block gone every unit was taken. -/
theorem work_of_exited (hG : KernelInv G) (h : ∀ b, G.cta b = .exited) :
    G.work = R.workBase (G.kernel + 1) := by
  have hex := hG.exits
  rw [Finset.filter_true_of_mem (fun b _ => h b), Finset.card_univ, Fintype.card_fin] at hex
  have := R.grid_pos
  show G.work = R.workBase G.kernel + (R.units G.kernel + R.grid)
  omega

/-- The end of a kernel moves no unit. -/
theorem phase_retire (hG : KernelInv G) (h : ∀ b, G.cta b = .exited) {c v : Nat}
    (hv : v < R.units c) : phase (G.retire R) c v = phase G c v := by
  have hwork := work_of_exited hG h
  have hstart : R.workBase (G.kernel + 1) = R.workBase G.kernel + (R.units G.kernel + R.grid) := rfl
  rcases Nat.lt_trichotomy c G.kernel with hc | rfl | hc
  · rw [phase_of_lt hc, phase_of_lt (show c < G.kernel + 1 by omega)]
  · rw [phase_of_lt (show G.kernel < G.kernel + 1 by omega), phase_of_free]
    · omega
    · intro b hb
      simp [h b, Cta.unit] at hb
  · rw [phase_of_unfetched (G := G) (by omega) (by omega)]
    refine phase_of_unfetched ?_ ?_
    · show ¬ c < G.kernel + 1
      omega
    · rintro ⟨hc', hlt⟩
      change R.workBase c + v < G.work at hlt
      rw [hc'] at hlt
      change R.workBase (G.kernel + 1) + v < G.work at hlt
      omega

/-! ### The thread blocks keep in step with the counter -/

theorem kernelInv_launch (hG : KernelInv G) :
    KernelInv { G with launched := G.launched + 1 } where
  kernel_le := hG.kernel_le.trans (Nat.le_succ _)
  work_ge := hG.work_ge
  resting h := absurd hG.kernel_le (by simp only at h; omega)
  unit_lt := hG.unit_lt
  unit_inj := hG.unit_inj
  exits := hG.exits

theorem kernelInv_fetch (hG : KernelInv G) {b : Fin R.grid} (hk : G.kernel < G.launched)
    (hb : G.cta b = .idle) : KernelInv (G.fetch R b) := by
  have hunit : G.unit R = G.work - R.workBase G.kernel := rfl
  have hge := hG.work_ge
  have hold : ∀ b' u, b' ≠ b → ((G.fetch R b).cta b').unit = some u → (G.cta b').unit = some u := by
    intro b' u hbb h
    simpa only [Gpu.fetch, Function.update_of_ne hbb] using h
  have hnew : ∀ u, ((G.fetch R b).cta b).unit = some u → u = G.unit R ∧ u < R.units G.kernel := by
    intro u h
    simp only [Gpu.fetch, Function.update_self] at h
    split at h
    · rename_i hlt
      obtain rfl := Option.some.inj h
      exact ⟨rfl, hlt⟩
    · simp [Cta.unit] at h
  refine ⟨hk.le, ?_, fun h => absurd hk (by simp only [Gpu.fetch] at h; omega), ?_, ?_, ?_⟩
  · simp only [Gpu.fetch]
    omega
  · intro b' u h
    rcases eq_or_ne b' b with rfl | hbb
    · obtain ⟨rfl, hlt⟩ := hnew u h
      exact ⟨hlt, by simp only [Gpu.fetch]; omega⟩
    · obtain ⟨h1, h2⟩ := hG.unit_lt b' u (hold b' u hbb h)
      exact ⟨h1, by simp only [Gpu.fetch]; omega⟩
  · intro b' b'' u h' h''
    by_cases h1 : b' = b <;> by_cases h2 : b'' = b
    · rw [h1, h2]
    · subst h1
      have := (hG.unit_lt b'' u (hold b'' u h2 h'')).2
      have := (hnew u h').1
      omega
    · subst h2
      have := (hG.unit_lt b' u (hold b' u h1 h')).2
      have := (hnew u h'').1
      omega
    · exact hG.unit_inj b' b'' u (hold b' u h1 h') (hold b'' u h2 h'')
  · have hex := hG.exits
    by_cases hlt : G.unit R < R.units G.kernel
    · have hset : (Finset.univ.filter fun b' => (G.fetch R b).cta b' = .exited) =
          Finset.univ.filter fun b' => G.cta b' = .exited := by
        ext b'
        simp only [Finset.mem_filter, Finset.mem_univ, true_and, Gpu.fetch, if_pos hlt]
        rcases eq_or_ne b' b with rfl | hbb
        · simp [Function.update_self, hb]
        · rw [Function.update_of_ne hbb]
      rw [hset, hex]
      simp only [Gpu.fetch]
      omega
    · have hset : (Finset.univ.filter fun b' => (G.fetch R b).cta b' = .exited) =
          insert b (Finset.univ.filter fun b' => G.cta b' = .exited) := by
        ext b'
        simp only [Finset.mem_filter, Finset.mem_univ, true_and, Gpu.fetch, if_neg hlt,
          Finset.mem_insert]
        rcases eq_or_ne b' b with rfl | hbb
        · simp [Function.update_self]
        · simp [hbb]
      rw [hset, Finset.card_insert_of_notMem (by simp [hb]), hex]
      simp only [Gpu.fetch]
      omega

/-- A thread block that goes on with its unit, or is done with it. -/
theorem kernelInv_update (hG : KernelInv G) {G' : Gpu R.grid} (hl : G'.launched = G.launched)
    (hk : G'.kernel = G.kernel) (hw : G'.work = G.work) {b : Fin R.grid} {y : Cta}
    (hc : G'.cta = Function.update G.cta b y) {u : Nat} (hu : (G.cta b).unit = some u)
    (hy : y.unit = some u ∨ y = .idle) : KernelInv G' := by
  have hinj : ∀ b' v, (G'.cta b').unit = some v → (G.cta b').unit = some v := by
    intro b' v
    rw [hc]
    refine unit_update ?_
    rcases hy with hy | rfl
    · exact Or.inl (hy.trans hu.symm)
    · exact Or.inr rfl
  refine ⟨by rw [hk, hl]; exact hG.kernel_le, by rw [hk, hw]; exact hG.work_ge, fun h =>
    ?_, ?_, ?_, ?_⟩
  · rw [hk, hl] at h
    have := (hG.resting h).2 b
    simp [this, Cta.unit] at hu
  · intro b' v h
    rw [hk, hw]
    exact hG.unit_lt b' v (hinj b' v h)
  · exact fun b' b'' v h' h'' => hG.unit_inj b' b'' v (hinj b' v h') (hinj b'' v h'')
  · rw [hk, hw, ← hG.exits, hc]
    congr 1
    ext b'
    simp only [Finset.mem_filter, Finset.mem_univ, true_and]
    rcases eq_or_ne b' b with rfl | hbb
    · rw [Function.update_self]
      constructor
      · rintro rfl
        simp [Cta.unit] at hy
      · intro h
        simp [h, Cta.unit] at hu
    · rw [Function.update_of_ne hbb]

theorem kernelInv_retire (hG : KernelInv G) (hk : G.kernel < G.launched)
    (h : ∀ b, G.cta b = .exited) : KernelInv (G.retire R) := by
  have hwork := work_of_exited hG h
  refine ⟨hk, hwork.ge, fun _ => ⟨hwork, fun _ => rfl⟩, ?_, ?_, ?_⟩
  · intro b u hu
    simp [Gpu.retire, Cta.unit] at hu
  · intro b _ u hu
    simp [Gpu.retire, Cta.unit] at hu
  · simp only [Gpu.retire, reduceCtorEq, Finset.filter_false, Finset.card_empty]
    omega

/-! ### What an event does to the phases

An event moves one unit at most. Everything that is not about this unit is carried over by
`phase_congr` and its kin.
-/

/-- Two states of a kernel in which the same thread blocks hold unit `v`, at the same phase. -/
theorem phase_congr (hG : KernelInv G) {G' : Gpu R.grid} (hG' : KernelInv G')
    (hk : G'.kernel = G.kernel) {v : Nat}
    (hw : R.workBase G.kernel + v < G'.work ↔ R.workBase G.kernel + v < G.work)
    (hu : ∀ b, (G'.cta b).unit = some v ↔ (G.cta b).unit = some v)
    (hp : ∀ b, (G.cta b).unit = some v → G'.cta b = G.cta b) :
    phase G' G.kernel v = phase G G.kernel v := by
  by_cases hf : R.workBase G.kernel + v < G.work
  · by_cases hex : ∃ b, (G.cta b).unit = some v
    · obtain ⟨b, hb⟩ := hex
      have h' := phase_of_unit hG' ((hu b).mpr hb)
      rw [hk, hp b hb] at h'
      rw [h', phase_of_unit hG hb]
    · have h' := phase_of_free (G := G') (u := v) (by rw [hk]; exact hw.mpr hf)
        fun b hb => hex ⟨b, (hu b).mp hb⟩
      rw [hk] at h'
      rw [h', phase_of_free hf fun b hb => hex ⟨b, hb⟩]
  · rw [phase_of_unfetched (G := G') (by omega) (by rw [hw]; omega),
      phase_of_unfetched (by omega) (by omega)]

/-- Taking a unit does not start it. -/
theorem phase_fetch (hG : KernelInv G) {b : Fin R.grid} (hk : G.kernel < G.launched)
    (hb : G.cta b = .idle) (c v : Nat) (hv : v < R.units c) :
    phase (G.fetch R b) c v = phase G c v := by
  have hG' := kernelInv_fetch hG hk hb
  have hunit : G.unit R = G.work - R.workBase G.kernel := rfl
  have hge := hG.work_ge
  rcases Nat.lt_trichotomy c G.kernel with hc | rfl | hc
  · rw [phase_of_lt hc, phase_of_lt (show c < (G.fetch R b).kernel from hc)]
  · by_cases hvu : v = G.unit R
    · -- the unit just taken waits
      have hcta : (G.fetch R b).cta b = .wait v 0 := by
        simp only [Gpu.fetch, Function.update_self]
        rw [if_pos (by omega), hvu]
      have h' := phase_of_unit hG' (b := b) (u := v) (by rw [hcta]; rfl)
      rw [hcta] at h'
      rw [phase_of_unfetched (G := G) (by omega) (by omega)]
      exact h'
    · refine phase_congr hG hG' rfl ?_ (fun b' => ?_) fun b' hb' => ?_
      · simp only [Gpu.fetch]
        omega
      · simp only [Gpu.fetch]
        rcases eq_or_ne b' b with rfl | hbb
        · rw [Function.update_self, hb]
          split
          · simp [Cta.unit, Ne.symm hvu]
          · simp [Cta.unit]
        · rw [Function.update_of_ne hbb]
      · simp only [Gpu.fetch]
        rw [Function.update_of_ne]
        rintro rfl
        simp [hb, Cta.unit] at hb'
  · rw [phase_of_unfetched (G := G) (by omega) (by omega)]
    exact phase_of_unfetched (show ¬ c < G.kernel by omega) (fun h => absurd h.1 hc.ne')

/-- A thread block that goes on with its unit, or is done with it, moves that unit only. -/
theorem phase_update (hG : KernelInv G) {K : Gpu R.grid} (hl : K.launched = G.launched)
    (hk : K.kernel = G.kernel) (hw : K.work = G.work) {b : Fin R.grid} {y : Cta}
    (hc : K.cta = Function.update G.cta b y) {u : Nat} (hu : (G.cta b).unit = some u)
    (hy : y.unit = some u ∨ y = .idle) (c v : Nat) :
    phase K c v = if c = G.kernel ∧ v = u then y.phase else phase G c v := by
  have hG' := kernelInv_update hG hl hk hw hc hu hy
  have hub := hG.unit_lt b u hu
  rcases Nat.lt_trichotomy c G.kernel with hlt | rfl | hgt
  · rw [phase_of_lt hlt, phase_of_lt (by omega), if_neg (fun h => by omega)]
  · by_cases hv : v = u
    · subst hv
      rw [if_pos ⟨rfl, rfl⟩]
      have hself : K.cta b = y := by rw [hc, Function.update_self]
      rcases hy with hy | rfl
      · have h' := phase_of_unit hG' (b := b) (u := v) (by rw [hself]; exact hy)
        rw [hk, hself] at h'
        exact h'
      · have h' := phase_of_free (G := K) (u := v) (by rw [hk, hw]; exact hub.2) ?_
        · rw [hk] at h'
          exact h'
        · intro b' hb'
          rcases eq_or_ne b' b with rfl | hbb
          · simp [hself, Cta.unit] at hb'
          · rw [hc, Function.update_of_ne hbb] at hb'
            exact hbb (hG.unit_inj b' b v hb' hu)
    · rw [if_neg (fun h => hv h.2)]
      refine phase_congr hG hG' hk (by rw [hw]) (fun b' => ?_) fun b' hb' => ?_
      · rw [hc]
        rcases eq_or_ne b' b with rfl | hbb
        · rw [Function.update_self, hu]
          rcases hy with hy | rfl
          · rw [hy]
          · simp [Cta.unit, Ne.symm hv]
        · rw [Function.update_of_ne hbb]
      · rw [hc, Function.update_of_ne]
        rintro rfl
        rw [hu] at hb'
        exact hv (Option.some.inj hb').symm
  · rw [phase_of_unfetched (G := G) (by omega) (by omega),
      phase_of_unfetched (G := K) (by omega) (by omega), if_neg (fun h => by omega)]

end Kernel

/-! ## The staging slots

The counter of a slot never goes back to zero: it counts the parts of all steps that were staged
there, so the number of full steps in it is the round. The invariant says for each round what has
been counted, and that a round does not start before the one before is over.
-/

section Slots

variable (G : Gpu R.grid)

/-- How many steps were staged whole in a slot: the round it is at. -/
def round (d : Dir) (slot : Nat) : Nat := G.cnt d slot / R.parts

/-- Part `p` of the step staged as `gi` has been counted. -/
def Counted (d : Dir) (gi p : Nat) : Prop := ∃ c u, PartOf R d gi p c u ∧ phase G c u = 3

open Classical in
/-- The slots go round by round: the steps of earlier rounds are counted, those of later rounds have
not started, and the count of this round is the number of its parts done. -/
structure StageInv : Prop where
  ready : ∀ d, ∀ slot < R.nslot, G.ready d slot =
    if round G d slot = 0 then 0 else (round G d slot - 1) * R.nslot + slot + 1
  full : ∀ d gi p c u, PartOf R d gi p c u → gi / R.nslot < round G d (gi % R.nslot) →
    phase G c u = 3
  later : ∀ d gi p c u, PartOf R d gi p c u → round G d (gi % R.nslot) < gi / R.nslot →
    phase G c u = 0
  part : ∀ d gi, gi / R.nslot = round G d (gi % R.nslot) →
    ((Finset.range R.parts).filter (Counted G d gi)).card = G.cnt d (gi % R.nslot) % R.parts
  content : ∀ d gi p c u, PartOf R d gi p c u → 2 ≤ phase G c u →
    G.stage d (gi % R.nslot) p = some gi ∨
      ∃ c' u', PartOf R d (gi + R.nslot) p c' u' ∧ 2 ≤ phase G c' u'

variable {G}

theorem nslot_pos : 0 < R.nslot := by
  have := R.nslot_le
  omega

/-- A unit under way is in the round of its slot. -/
theorem round_eq (hS : StageInv G) {d : Dir} {gi p c u : Nat} (h : PartOf R d gi p c u)
    (h0 : phase G c u ≠ 0) (h3 : phase G c u ≠ 3) : gi / R.nslot = round G d (gi % R.nslot) := by
  by_contra hne
  rcases Nat.lt_or_gt_of_ne hne with hlt | hgt
  · exact h3 (hS.full d gi p c u h hlt)
  · exact h0 (hS.later d gi p c u h hgt)

open Classical in
/-- A round in progress lacks a part. -/
theorem round_ne_of_counted (hS : StageInv G) {d : Dir} {gi : Nat}
    (h : ∀ p < R.parts, Counted G d gi p) : gi / R.nslot ≠ round G d (gi % R.nslot) := by
  intro heq
  have hpart := hS.part d gi heq
  rw [Finset.filter_true_of_mem (fun p hp => h p (Finset.mem_range.mp hp)),
    Finset.card_range] at hpart
  have := Nat.mod_lt (G.cnt d (gi % R.nslot)) R.parts_pos
  omega

/-- An event that moves no staging unit. -/
theorem stageInv_congr (hS : StageInv G) {G' : Gpu R.grid} (hcnt : G'.cnt = G.cnt)
    (hready : G'.ready = G.ready) (hstage : G'.stage = G.stage)
    (hp : ∀ d gi p c u, PartOf R d gi p c u → phase G' c u = phase G c u) : StageInv G' := by
  have hround : ∀ d slot, round G' d slot = round G d slot := fun d slot => by
    simp only [round, hcnt]
  have hcounted : ∀ d gi, Counted G' d gi = Counted G d gi := by
    intro d gi
    funext p
    refine propext ⟨fun ⟨c, u, h, h3⟩ => ⟨c, u, h, ?_⟩, fun ⟨c, u, h, h3⟩ => ⟨c, u, h, ?_⟩⟩
    · rw [← hp d gi p c u h]
      exact h3
    · rw [hp d gi p c u h]
      exact h3
  refine ⟨?_, ?_, ?_, ?_, ?_⟩
  · simpa only [hround, hready] using hS.ready
  · intro d gi p c u h hlt
    rw [hp d gi p c u h]
    exact hS.full d gi p c u h (by rwa [hround] at hlt)
  · intro d gi p c u h hlt
    rw [hp d gi p c u h]
    exact hS.later d gi p c u h (by rwa [hround] at hlt)
  · intro d gi hr
    rw [hround] at hr
    rw [hcounted, hcnt]
    exact hS.part d gi hr
  · intro d gi p c u h h2
    rw [hp d gi p c u h] at h2
    rw [hstage]
    refine (hS.content d gi p c u h h2).imp id fun ⟨c', u', h', h2'⟩ => ⟨c', u', h', ?_⟩
    rw [hp d _ p c' u' h']
    exact h2'

/-- A unit starts once its slot has come to its round. -/
theorem stageInv_start (hS : StageInv G) {G' : Gpu R.grid} (hcnt : G'.cnt = G.cnt)
    (hready : G'.ready = G.ready) (hstage : G'.stage = G.stage) {c₀ u₀ : Nat}
    (hold : phase G c₀ u₀ = 0)
    (hp : ∀ c u, phase G' c u = if c = c₀ ∧ u = u₀ then 1 else phase G c u)
    (hslot : ∀ d gi p, PartOf R d gi p c₀ u₀ → gi / R.nslot ≤ round G d (gi % R.nslot)) :
    StageInv G' := by
  have hround : ∀ d slot, round G' d slot = round G d slot := fun d slot => by
    simp only [round, hcnt]
  have hge : ∀ k, 2 ≤ k → ∀ c u, k ≤ phase G' c u ↔ k ≤ phase G c u := by
    intro k hk c u
    rw [hp]
    split
    · rename_i he
      rw [he.1, he.2, hold]
      omega
    · rfl
  have h3 : ∀ c u, phase G' c u = 3 ↔ phase G c u = 3 := by
    intro c u
    rw [hp]
    split
    · rename_i he
      rw [he.1, he.2, hold]
      omega
    · rfl
  have hcounted : ∀ d gi, Counted G' d gi = Counted G d gi := by
    intro d gi
    funext p
    simp only [Counted, h3]
  refine ⟨?_, ?_, ?_, ?_, ?_⟩
  · simpa only [hround, hready] using hS.ready
  · intro d gi p c u h hlt
    rw [h3]
    exact hS.full d gi p c u h (by rwa [hround] at hlt)
  · intro d gi p c u h hlt
    rw [hround] at hlt
    rw [hp, if_neg]
    · exact hS.later d gi p c u h hlt
    · rintro ⟨rfl, rfl⟩
      have := hslot d gi p h
      omega
  · intro d gi hr
    rw [hround] at hr
    rw [hcounted, hcnt]
    exact hS.part d gi hr
  · intro d gi p c u h h2
    rw [hstage]
    exact (hS.content d gi p c u h ((hge 2 le_rfl c u).mp h2)).imp id
      fun ⟨c', u', h', h2'⟩ => ⟨c', u', h', (hge 2 le_rfl c' u').mpr h2'⟩

theorem div_lt_of_mod_eq {n a b : Nat} (h : a % n = b % n) (hlt : a / n < b / n) : a + n ≤ b := by
  have ha := Nat.div_add_mod a n
  have hb := Nat.div_add_mod b n
  have := Nat.mul_le_mul_left n (Nat.succ_le_of_lt hlt)
  rw [Nat.mul_succ] at this
  omega

theorem eq_of_div_mod {n a b : Nat} (h : a % n = b % n) (h' : a / n = b / n) : a = b := by
  rw [← Nat.div_add_mod a n, ← Nat.div_add_mod b n, h, h']

/-- A part is copied into its slot. -/
theorem stageInv_copy (hS : StageInv G) {G' : Gpu R.grid} (hcnt : G'.cnt = G.cnt)
    (hready : G'.ready = G.ready) {d₀ : Dir} {gi₀ p₀ c₀ u₀ : Nat}
    (h₀ : PartOf R d₀ gi₀ p₀ c₀ u₀) (hold : phase G c₀ u₀ = 1)
    (hp : ∀ c u, phase G' c u = if c = c₀ ∧ u = u₀ then 2 else phase G c u)
    (hstage : ∀ d slot p, G'.stage d slot p =
      if d = d₀ ∧ slot = gi₀ % R.nslot ∧ p = p₀ then some gi₀ else G.stage d slot p) :
    StageInv G' := by
  have hround : ∀ d slot, round G' d slot = round G d slot := fun d slot => by
    simp only [round, hcnt]
  have h3 : ∀ c u, phase G' c u = 3 ↔ phase G c u = 3 := by
    intro c u
    rw [hp]
    split
    · rename_i he
      rw [he.1, he.2, hold]
      omega
    · rfl
  have hmono : ∀ c u, 2 ≤ phase G c u → 2 ≤ phase G' c u := by
    intro c u h
    rw [hp]
    split <;> omega
  have hcounted : ∀ d gi, Counted G' d gi = Counted G d gi := by
    intro d gi
    funext p
    simp only [Counted, h3]
  have hr₀ := round_eq hS h₀ (by omega) (by omega)
  refine ⟨?_, ?_, ?_, ?_, ?_⟩
  · simpa only [hround, hready] using hS.ready
  · intro d gi p c u h hlt
    rw [h3]
    exact hS.full d gi p c u h (by rwa [hround] at hlt)
  · intro d gi p c u h hlt
    rw [hround] at hlt
    have h0 := hS.later d gi p c u h hlt
    rw [hp, if_neg]
    · exact h0
    · rintro ⟨rfl, rfl⟩
      omega
  · intro d gi hr
    rw [hround] at hr
    rw [hcounted, hcnt]
    exact hS.part d gi hr
  · intro d gi p c u h h2
    by_cases he : c = c₀ ∧ u = u₀
    · obtain ⟨rfl, rfl⟩ := he
      obtain ⟨-, hpu, j, hj, hgi⟩ := h
      obtain ⟨-, hpu₀, j₀, hj₀, hgi₀⟩ := h₀
      obtain ⟨rfl, rfl⟩ := Prod.mk.inj (Option.some.inj (hj.symm.trans hj₀))
      left
      rw [hstage, if_pos ⟨rfl, by rw [← hgi, ← hgi₀], by omega⟩, ← hgi, ← hgi₀]
    · rw [hp, if_neg he] at h2
      rcases hS.content d gi p c u h h2 with hc | ⟨c', u', h', h2'⟩
      swap
      · exact Or.inr ⟨c', u', h', hmono c' u' h2'⟩
      rw [hstage]
      by_cases hsame : d = d₀ ∧ gi % R.nslot = gi₀ % R.nslot ∧ p = p₀
      swap
      · rw [if_neg hsame]
        exact Or.inl hc
      -- an earlier round of the slot gives way to this one
      obtain ⟨rfl, hmod, rfl⟩ := hsame
      right
      have hne : gi ≠ gi₀ := by
        rintro rfl
        exact he (partOf_unique h h₀)
      have hle : gi / R.nslot ≤ gi₀ / R.nslot := by
        by_contra hgt
        rw [hr₀, ← hmod] at hgt
        have := hS.later d gi p c u h (by omega)
        omega
      have hlt : gi / R.nslot < gi₀ / R.nslot :=
        lt_of_le_of_ne hle fun heq => hne (eq_of_div_mod hmod heq)
      rcases (div_lt_of_mod_eq hmod hlt).eq_or_lt with heq | hlt'
      · refine ⟨c₀, u₀, by rw [heq]; exact h₀, ?_⟩
        rw [hp, if_pos ⟨rfl, rfl⟩]
      · have hdiv : (gi + R.nslot) / R.nslot < gi₀ / R.nslot := by
          refine lt_of_le_of_ne (Nat.div_le_div_right hlt'.le) fun heq => hlt'.ne ?_
          exact eq_of_div_mod (by rw [Nat.add_mod_right]; exact hmod) heq
        obtain ⟨c', j', hj', hgi'⟩ := exists_stageAt (R := R) d (gi + R.nslot)
        have hpp : p < R.parts := by
          rw [← h.2.1]
          exact Nat.mod_lt _ R.parts_pos
        obtain ⟨u', hu'⟩ := exists_partOf hj' hpp
        rw [hgi'] at hu'
        have := hS.full d _ p c' u' hu' (by rw [Nat.add_mod_right, hmod, ← hr₀]; exact hdiv)
        exact ⟨c', u', hu', hmono c' u' (by omega)⟩

open Classical in
/-- A part is counted; the last one of a step makes its slot ready. -/
theorem stageInv_publish (hS : StageInv G) {G' : Gpu R.grid} (hstage : G'.stage = G.stage)
    {d₀ : Dir} {gi₀ p₀ c₀ u₀ : Nat} (h₀ : PartOf R d₀ gi₀ p₀ c₀ u₀) (hold : phase G c₀ u₀ = 2)
    (hp : ∀ c u, phase G' c u = if c = c₀ ∧ u = u₀ then 3 else phase G c u)
    (hcnt : ∀ d slot, G'.cnt d slot =
      if d = d₀ ∧ slot = gi₀ % R.nslot then G.cnt d₀ (gi₀ % R.nslot) + 1 else G.cnt d slot)
    (hready : ∀ d slot, G'.ready d slot =
      if d = d₀ ∧ slot = gi₀ % R.nslot ∧ (G.cnt d₀ (gi₀ % R.nslot) + 1) % R.parts = 0 then gi₀ + 1
      else G.ready d slot) : StageInv G' := by
  have hr₀ := round_eq hS h₀ (by omega) (by omega)
  have hpart₀ := hS.part d₀ gi₀ hr₀
  have hp₀ : p₀ < R.parts := by
    rw [← h₀.2.1]
    exact Nat.mod_lt _ R.parts_pos
  have h2 : ∀ c u, 2 ≤ phase G' c u ↔ 2 ≤ phase G c u := by
    intro c u
    rw [hp]
    split
    · rename_i he
      rw [he.1, he.2, hold]
      omega
    · rfl
  have hother : ∀ d slot, ¬ (d = d₀ ∧ slot = gi₀ % R.nslot) → G'.cnt d slot = G.cnt d slot :=
    fun d slot h => by rw [hcnt, if_neg h]
  have hslot : G'.cnt d₀ (gi₀ % R.nslot) = G.cnt d₀ (gi₀ % R.nslot) + 1 := by
    rw [hcnt, if_pos ⟨rfl, rfl⟩]
  -- what is counted now: this part too
  have hcounted : ∀ d gi p, Counted G' d gi p ↔
      Counted G d gi p ∨ (d = d₀ ∧ gi = gi₀ ∧ p = p₀) := by
    intro d gi p
    constructor
    · rintro ⟨c, u, h, h3⟩
      by_cases he : c = c₀ ∧ u = u₀
      · obtain ⟨rfl, rfl⟩ := he
        obtain ⟨-, hpu, j, hj, rfl⟩ := h
        obtain ⟨-, hpu₀, j₀, hj₀, rfl⟩ := h₀
        obtain ⟨rfl, rfl⟩ := Prod.mk.inj (Option.some.inj (hj.symm.trans hj₀))
        exact Or.inr ⟨rfl, rfl, by omega⟩
      · rw [hp, if_neg he] at h3
        exact Or.inl ⟨c, u, h, h3⟩
    · rintro (⟨c, u, h, h3⟩ | ⟨rfl, rfl, rfl⟩)
      · refine ⟨c, u, h, ?_⟩
        rw [hp]
        split
        · rfl
        · exact h3
      · exact ⟨c₀, u₀, h₀, by rw [hp, if_pos ⟨rfl, rfl⟩]⟩
  have hsame : ∀ d gi, ¬ (d = d₀ ∧ gi = gi₀) → Counted G' d gi = Counted G d gi := by
    intro d gi hne
    funext p
    rw [eq_iff_iff, hcounted]
    exact or_iff_left fun h => hne ⟨h.1, h.2.1⟩
  have hnot : ¬ Counted G d₀ gi₀ p₀ := by
    rintro ⟨c, u, h, h3⟩
    obtain ⟨rfl, rfl⟩ := partOf_unique h h₀
    omega
  have hcard : ((Finset.range R.parts).filter (Counted G' d₀ gi₀)).card =
      G.cnt d₀ (gi₀ % R.nslot) % R.parts + 1 := by
    have hset : (Finset.range R.parts).filter (Counted G' d₀ gi₀) =
        insert p₀ ((Finset.range R.parts).filter (Counted G d₀ gi₀)) := by
      ext p
      simp only [Finset.mem_filter, Finset.mem_range, Finset.mem_insert, hcounted, true_and]
      constructor
      · rintro ⟨hlt, h | rfl⟩
        · exact Or.inr ⟨hlt, h⟩
        · exact Or.inl rfl
      · rintro (rfl | ⟨hlt, h⟩)
        · exact ⟨hp₀, Or.inr rfl⟩
        · exact ⟨hlt, Or.inl h⟩
    rw [hset, Finset.card_insert_of_notMem (by simp [hnot]), ← hpart₀]
  have hgi₀ := Nat.div_add_mod gi₀ R.nslot
  have hdm := Nat.div_add_mod (G.cnt d₀ (gi₀ % R.nslot)) R.parts
  have hmod := Nat.mod_lt (G.cnt d₀ (gi₀ % R.nslot)) R.parts_pos
  -- the count completes its round, or goes on in it
  have hstep : (G.cnt d₀ (gi₀ % R.nslot) % R.parts + 1 = R.parts ∧
      round G' d₀ (gi₀ % R.nslot) = round G d₀ (gi₀ % R.nslot) + 1 ∧
      (G.cnt d₀ (gi₀ % R.nslot) + 1) % R.parts = 0) ∨
    (G.cnt d₀ (gi₀ % R.nslot) % R.parts + 1 < R.parts ∧
      round G' d₀ (gi₀ % R.nslot) = round G d₀ (gi₀ % R.nslot) ∧
      (G.cnt d₀ (gi₀ % R.nslot) + 1) % R.parts = G.cnt d₀ (gi₀ % R.nslot) % R.parts + 1) := by
    unfold round
    rw [hslot]
    rcases Nat.lt_or_ge (G.cnt d₀ (gi₀ % R.nslot) % R.parts + 1) R.parts with hlt | hge
    · right
      refine ⟨hlt, ?_, ?_⟩
      · rw [Nat.div_eq_iff R.parts_pos, Nat.mul_comm]
        omega
      · rw [← Nat.mod_add_mod, Nat.mod_eq_of_lt hlt]
    · left
      have he : G.cnt d₀ (gi₀ % R.nslot) % R.parts + 1 = R.parts := by omega
      refine ⟨he, ?_, ?_⟩
      · rw [show G.cnt d₀ (gi₀ % R.nslot) + 1 =
          R.parts * (G.cnt d₀ (gi₀ % R.nslot) / R.parts + 1) by rw [Nat.mul_succ]; omega,
          Nat.mul_div_cancel_left _ R.parts_pos]
      · rw [← Nat.mod_add_mod, he, Nat.mod_self]
  have hroundne : ∀ d slot, ¬ (d = d₀ ∧ slot = gi₀ % R.nslot) → round G' d slot = round G d slot :=
    fun d slot h => by simp only [round, hother d slot h]
  refine ⟨?_, ?_, ?_, ?_, ?_⟩
  · intro d slot hlt
    rw [hready]
    by_cases h : d = d₀ ∧ slot = gi₀ % R.nslot
    · obtain ⟨rfl, rfl⟩ := h
      rcases hstep with ⟨-, hr, hm⟩ | ⟨-, hr, hm⟩
      · rw [if_pos ⟨rfl, rfl, hm⟩, hr, if_neg (by omega), Nat.add_sub_cancel, ← hr₀, Nat.mul_comm]
        omega
      · rw [if_neg (fun h => by omega), hr]
        exact hS.ready d _ hlt
    · rw [if_neg (fun h' => h ⟨h'.1, h'.2.1⟩), hroundne d slot h]
      exact hS.ready d slot hlt
  · intro d gi p c u h hlt
    rw [hp]
    split
    · rfl
    rename_i hne
    by_cases hs : d = d₀ ∧ gi % R.nslot = gi₀ % R.nslot
    · obtain ⟨rfl, hs⟩ := hs
      rw [hs] at hlt
      rcases hstep with ⟨he, hr, -⟩ | ⟨-, hr, -⟩
      · by_cases hlast : gi / R.nslot = round G d (gi₀ % R.nslot)
        · -- the step that is complete now
          obtain rfl := eq_of_div_mod hs (hlast.trans hr₀.symm)
          have hpp : p < R.parts := by
            rw [← h.2.1]
            exact Nat.mod_lt _ R.parts_pos
          have hall : (Finset.range R.parts).filter (Counted G' d gi) = Finset.range R.parts :=
            Finset.eq_of_subset_of_card_le (Finset.filter_subset _ _)
              (by rw [hcard, Finset.card_range]; omega)
          have hc := (Finset.mem_filter.mp (hall.symm ▸ Finset.mem_range.mpr hpp)).2
          obtain ⟨c', u', h', h3⟩ := hc
          obtain ⟨rfl, rfl⟩ := partOf_unique h h'
          rw [hp, if_neg hne] at h3
          exact h3
        · exact hS.full d gi p c u h (by rw [hs]; omega)
      · exact hS.full d gi p c u h (by rw [hs]; omega)
    · rw [hroundne d _ hs] at hlt
      exact hS.full d gi p c u h hlt
  · intro d gi p c u h hlt
    have h0 : phase G c u = 0 := by
      refine hS.later d gi p c u h ?_
      by_cases hs : d = d₀ ∧ gi % R.nslot = gi₀ % R.nslot
      · obtain ⟨rfl, hs⟩ := hs
        rw [hs] at hlt ⊢
        rcases hstep with ⟨-, hr, -⟩ | ⟨-, hr, -⟩ <;> omega
      · rwa [hroundne d _ hs] at hlt
    rw [hp, if_neg]
    · exact h0
    · rintro ⟨rfl, rfl⟩
      omega
  · intro d gi hr'
    by_cases hs : d = d₀ ∧ gi % R.nslot = gi₀ % R.nslot
    · obtain ⟨rfl, hs⟩ := hs
      rw [hs] at hr' ⊢
      rw [hslot]
      rcases hstep with ⟨he, hr, hm⟩ | ⟨he, hr, hm⟩
      · have hne : gi ≠ gi₀ := by
          rintro rfl
          omega
        rw [hsame d gi (fun h => hne h.2), hm, Finset.card_eq_zero, Finset.filter_eq_empty_iff]
        rintro p - ⟨c, u, h, h3⟩
        have := hS.later d gi p c u h (by rw [hs]; omega)
        omega
      · obtain rfl := eq_of_div_mod hs ((hr'.trans hr).trans hr₀.symm)
        rw [hcard, hm]
    · rw [hroundne d _ hs] at hr'
      rw [hother d _ hs, hsame d gi (fun h => hs ⟨h.1, by rw [h.2]⟩)]
      exact hS.part d gi hr'
  · intro d gi p c u h h2'
    rw [hstage]
    exact (hS.content d gi p c u h ((h2 c u).mp h2')).imp id
      fun ⟨c', u', h', h2''⟩ => ⟨c', u', h', (h2 c' u').mpr h2''⟩

end Slots

end Ringside.PrefillRing.Protocol

import Ringside.PrefillRing.Safety

/-!
# The prefill ring is safe and does not get stuck

The invariant of `Safety`, read as what the ring promises.

* `Safe` says what every reachable state keeps: what a wait saw and what a block or a queue pair
  reads is the chunk of its own call and step, and nothing is written over before it was read.
* The events are split into the hosts' (queueing and launching a call) and all others
  (`Event.isLocal`).
* A state in which only the hosts could act has no call under way on every rank. The proof takes the
  rank furthest behind and goes by induction on the step: everything that a step needs has been
  staged, posted and received (`units_done`, `steps_posted`).
* `exists_enabled` is about the hosts too: a call that some rank has not launched can be queued
  there.

Results:
* `safe_after`: every reachable state is `Safe`.
* `exists_local`: a call that every rank has launched goes on without the hosts.
* `ring_safe_and_live`: both, over every run of every sequence of calls.

Out of scope: timeouts and poison (a ring that waits is the one that is modelled), and fairness.
-/

namespace Ringside.PrefillRing.Protocol

open Ringside.Run Ringside.Merge Ringside.Segments

variable {R : Ring} {w : World R}

/-! ## Safety

The invariant speaks of what was posted and delivered. Here it is turned into what the result says
of the code: what a wait accepts, what a unit reads, and what is written over.
-/

/-- What the receive slot of step `s` of call `c` holds once it landed. -/
def Holds (w : World R) (r : Rank) (d : Dir) (c s : Nat) : Prop :=
  ∀ i < (R.calls c).chunkLen (sendStep (R.calls c) d s).chunk,
    (w.inbox r).recv (parity c) d (s * (R.calls c).cr + i) = some (c, s, i)

/-- Nothing is read but what was meant, and nothing is written over too early. -/
structure Safe (w : World R) : Prop where
  /-- A block's flag wait ends on the chunk of its own call and step. -/
  waits : ∀ r b u k d s, (w.gpu r).cta b = .wait u k →
    (R.deps (w.gpu r).kernel u)[k]? = some (d, s) →
    (w.inbox r).rflag (parity (w.gpu r).kernel) d s = seq (w.gpu r).kernel →
    Holds w r d (w.gpu r).kernel s
  /-- A block at work reads the chunks of its own call and steps. -/
  reads : ∀ r b u d s, (w.gpu r).cta b = .work u → (d, s) ∈ R.deps (w.gpu r).kernel u →
    Holds w r d (w.gpu r).kernel s
  /-- The proxy's flag wait for a relay ends on the chunk of its own call and step. -/
  relayWaits : ∀ r d s', (w.proxy r).busy d = true →
    (R.calls ((w.proxy r).cur d)).staged d ≤ (w.proxy r).step d →
    (w.proxy r).step d < (R.calls ((w.proxy r).cur d)).steps d →
    (sendStep (R.calls ((w.proxy r).cur d)) d ((w.proxy r).step d)).dep = some s' →
    (w.inbox r).rflag (parity ((w.proxy r).cur d)) d s' = seq ((w.proxy r).cur d) →
    Holds w r d ((w.proxy r).cur d) s'
  /-- A relay that was posted and has not been delivered still has its chunk in the receive area. -/
  relays : ∀ r d c s s', (R.calls c).staged d ≤ s → s < (R.calls c).steps d →
    (sendStep (R.calls c) d s).dep = some s' → R.stepAt d c s < (w.proxy r).posted d →
    (w.proxy r).flagged d ≤ R.stepAt d c s → Holds w r d c s'
  /-- Who posts into a receive area for a later call knows its owner done with the earlier one: its
  kernel is past it, and what it relayed of it has been delivered. -/
  areas : ∀ r d c c' s, c < c' → parity c' = parity c → s < (R.calls c').steps d →
    R.stepAt d c' s < (w.proxy r).posted d → c < (w.gpu (receiver r d)).kernel ∧
      ∀ d', ∀ s' < (R.calls c).steps d',
        R.stepAt d' c s' < (w.proxy (receiver r d)).flagged d'
  /-- A block at work on a slot has the step before it in that slot delivered. -/
  slots : ∀ r b u d j, ((w.gpu r).cta b = .work u ∨ (w.gpu r).cta b = .publish u) →
    R.stageOf (w.gpu r).kernel u = some (d, j) →
    ∀ c' j', j' < (R.calls c').staged d →
      R.stageAt d c' j' + R.nslot = R.stageAt d (w.gpu r).kernel j →
      R.stepAt d c' j' < (w.proxy r).flagged d
  /-- A staged step that was posted and has not been delivered still has all its parts in its slot.
  -/
  sent : ∀ r d c j, j < (R.calls c).staged d → R.stepAt d c j < (w.proxy r).posted d →
    (w.proxy r).flagged d ≤ R.stepAt d c j → ∀ p < R.parts,
      (w.gpu r).stage d (R.stageAt d c j % R.nslot) p = some (R.stageAt d c j)

section Safety

/-- A chunk that landed stays until some rank could be past its call. -/
theorem holds_of_flagged (hw : Inv w) {r r₀ : Rank} {d : Dir} {c s : Nat}
    (hs : s < (R.calls c).steps d) (h : R.stepAt d c s < (w.proxy (sender r d)).flagged d)
    (hk : (w.gpu r₀).kernel ≤ c) : Holds w r d c s := by
  intro i hi
  rcases hw.landed r d c s i hs (h.trans_le ((hw.proxy _).flagged_le d)) hi with
    hr | ⟨c', hc, hp, s', hs', hd⟩
  · exact hr
  · have := kernels_of_posted hw hc hp (hd.trans_le ((hw.proxy _).data_le d)) r₀
    omega

/-- A flag that landed stays up until some rank could be past its call. -/
theorem rflag_of_flagged (hw : Inv w) {r r₀ : Rank} {d : Dir} {c s : Nat}
    (hs : s < (R.calls c).steps d) (h : R.stepAt d c s < (w.proxy (sender r d)).flagged d)
    (hk : (w.gpu r₀).kernel ≤ c) : (w.inbox r).rflag (parity c) d s = seq c := by
  rcases hw.raised r d c s hs h with hr | ⟨c', hc, hp, hs', hd⟩
  · exact hr
  · have := kernels_of_posted hw hc hp (hd.trans_le (flagged_le_posted hw _ d)) r₀
    omega

/-- The steps a unit waits for exist, and come before the unit's own step. -/
theorem deps_lt {c u : Nat} (hu : u < R.units c) {d : Dir} {s : Nat} (h : (d, s) ∈ R.deps c u) :
    ∃ it, R.item c u = some it ∧ s < it.step ∧ s < (R.calls c).steps d := by
  unfold Ring.deps at h
  split at h
  · rename_i it hit
    exact ⟨it, hit, item_dep_lt ((Nat.div_lt_iff_lt_mul R.parts_pos).mpr hu) hit h⟩
  · simp at h

/-- While a relay is not delivered, its receiver is not past the call. -/
theorem receiver_kernel_le (hw : Inv w) {r : Rank} {d : Dir} {c s : Nat}
    (hs : s < (R.calls c).steps d) (h : (w.proxy r).flagged d ≤ R.stepAt d c s) :
    (w.gpu (receiver r d)).kernel ≤ c := by
  by_contra hlt
  have := flagged_of_retired hw (not_le.mp hlt) hs
  rw [sender_receiver] at this
  omega

theorem safe_of_inv (hw : Inv w) : Safe w where
  waits r b u k d s hb hd hf := by
    have hunit : ((w.gpu r).cta b).unit = some u := by rw [hb]; rfl
    have hmem : (d, s) ∈ R.deps (w.gpu r).kernel u := List.mem_iff_getElem?.mpr ⟨k, hd⟩
    obtain ⟨-, -, -, hs⟩ := deps_lt ((hw.kernel r).unit_lt b u hunit).1 hmem
    exact holds_of_flagged hw hs (flagged_of_rflag hw (kernel_lt_count hw hunit) hf) le_rfl
  reads r b u d s hb hd := by
    have hunit : ((w.gpu r).cta b).unit = some u := by rw [hb]; rfl
    have hu := ((hw.kernel r).unit_lt b u hunit).1
    obtain ⟨-, -, -, hs⟩ := deps_lt hu hd
    refine holds_of_flagged hw hs (hw.deps r _ u d s hu hd ?_) le_rfl
    rw [phase_of_unit (hw.kernel r) hunit, hb]
    exact Nat.one_ne_zero
  relayWaits r d s' hb hst hs hdep hf := by
    obtain ⟨h1, -⟩ := (hw.proxy r).cur d hb
    have hcount : (w.proxy r).cur d < R.count := by
      have := (hw.proxy r).head_le d
      have := (hw.proxy r).queued_le
      omega
    have hcur := (hw.proxy r).cursor d
    rw [if_pos hb] at hcur
    have hle := receiver_kernel_le hw hs (by rw [← hcur]; exact flagged_le_posted hw r d)
    exact holds_of_flagged hw ((dep_lt hs hdep).trans hs) (flagged_of_rflag hw hcount hf) hle
  relays r d c s s' hst hs hdep hpost hfl :=
    holds_of_flagged hw ((dep_lt hs hdep).trans hs) (dep_flagged hw hs hdep hpost)
      (receiver_kernel_le hw hs hfl)
  areas r d c c' s hc hp _ hpost := by
    have hall := kernels_of_posted hw hc hp hpost
    refine ⟨hall _, fun d' s' hs' => ?_⟩
    have := flagged_of_retired hw (hall (receiver (receiver r d) d')) hs'
    rwa [sender_receiver] at this
  slots r b u d j hb hst c' j' hj' hgi := by
    have hunit : ((w.gpu r).cta b).unit = some u := by
      rcases hb with hb | hb <;> rw [hb] <;> rfl
    have hne : phase (w.gpu r) (w.gpu r).kernel u ≠ 0 := by
      rw [phase_of_unit (hw.kernel r) hunit]
      rcases hb with hb | hb <;> rw [hb] <;> simp [Cta.phase]
    have hu := ((hw.kernel r).unit_lt b u hunit).1
    have hfree := hw.freed r d _ _ _ u (partOf_of_stageOf hu hst) hne (by omega)
    rw [← hgi, Nat.add_sub_cancel] at hfree
    exact (((hw.proxy r).sendDone d c' j' hj').mp hfree).trans_le ((hw.proxy r).done_le d)
  sent r d c j hj hpost hfl p hp := by
    obtain ⟨u, hu⟩ := exists_partOf hj hp
    have h3 := finished_of_posted hw hj (hpost.trans_le (posted_le_begun d)) hu
    rcases (hw.slots r).content d _ p c u hu (by omega) with hc | ⟨c', u', hu', h2⟩
    · exact hc
    · -- the next step of the slot waits until this one is delivered
      have hfree := hw.freed r d _ p c' u' hu' (by omega) (Nat.le_add_left _ _)
      rw [Nat.add_sub_cancel] at hfree
      have := ((hw.proxy r).sendDone d c j hj).mp hfree
      have := (hw.proxy r).done_le d
      omega

/-- **Every reachable state is safe.** -/
theorem safe_after (h : List (Event R)) : Safe (after R h) := safe_of_inv (inv_after h)

end Safety

/-! ## Progress

Suppose that nothing can happen. Then nothing is under way on the wire, every proxy has posted what
it can, and a block waits only for a step that some rank has not posted. By induction on the step
there is no first one, so all units are done.
-/

/-- The events that are not the hosts'. -/
def Event.isLocal : Event R → Prop
  | .enqueue _ | .launch _ => False
  | _ => True

section Progress

/-- With nothing to do on the wire everything posted is delivered and completed. -/
theorem wire_of_stuck (hw : Inv w) (hs : ∀ e : Event R, e.isLocal → ¬ enabled w e) (r : Rank)
    (d : Dir) : (w.proxy r).flagged d = (w.proxy r).posted d ∧
      (w.proxy r).done d = (w.proxy r).posted d := by
  have h1 := hs (.land r d) trivial
  have h2 := hs (.raise r d) trivial
  have h3 := hs (.drain r d) trivial
  have h4 := (hw.proxy r).flagged_le d
  have h5 := (hw.proxy r).data_le d
  have h6 := (hw.proxy r).done_le d
  simp only [enabled] at h1 h2 h3
  omega

theorem posting_of_stuck (hw : Inv w) (hs : ∀ e : Event R, e.isLocal → ¬ enabled w e) (r : Rank) :
    (w.proxy r).posting = none := by
  cases hp : (w.proxy r).posting with
  | none => rfl
  | some d =>
    refine absurd ⟨hp, ?_⟩ (hs (.post r d) trivial)
    rw [(wire_of_stuck hw hs r d).2, Nat.sub_self]
    decide

/-- A proxy has posted the calls that every rank is done with. -/
theorem posted_ge (hw : Inv w) {c : Nat} (hc : ∀ r, c ≤ (w.gpu r).kernel) (r : Rank) (d : Dir) :
    R.stepAt d c 0 ≤ (w.proxy r).posted d := by
  cases c with
  | zero => exact Nat.zero_le _
  | succ c =>
    have hpos := steps_pos (g := R.calls c) d
    have h := flagged_of_retired hw (hc (receiver r d))
      (show (R.calls c).steps d - 1 < (R.calls c).steps d by omega)
    rw [sender_receiver] at h
    have hle := flagged_le_posted hw r d
    have hend : R.stepAt d (c + 1) 0 = R.stepAt d c ((R.calls c).steps d - 1) + 1 := by
      unfold Ring.stepAt place
      rw [start_succ]
      omega
    omega

/-- A step staged whole and not yet sent is ready. -/
theorem ready_of_finished (hw : Inv w) {r : Rank} {d : Dir} {c j : Nat}
    (hj : j < (R.calls c).staged d)
    (h : ∀ p u, PartOf R d (R.stageAt d c j) p c u → phase (w.gpu r) c u = 3)
    (hn : ¬ R.stageAt d c j < (w.proxy r).sendDone d) :
    (w.gpu r).ready d (R.stageAt d c j % R.nslot) = R.stageAt d c j + 1 := by
  have hS := hw.slots r
  generalize hgi : R.stageAt d c j = gi at h hn
  obtain ⟨u₀, hu₀⟩ := exists_partOf hj R.parts_pos
  rw [hgi] at hu₀
  have hlow : gi / R.nslot < round (w.gpu r) d (gi % R.nslot) := by
    rcases Nat.lt_trichotomy (gi / R.nslot) (round (w.gpu r) d (gi % R.nslot)) with hlt | heq | hgt
    · exact hlt
    · refine absurd heq (round_ne_of_counted hS fun p hp => ?_)
      obtain ⟨u, hu⟩ := exists_partOf hj hp
      rw [hgi] at hu
      exact ⟨c, u, hu, h p u hu⟩
    · have h0 := hS.later d gi 0 c u₀ hu₀ hgt
      rw [h 0 u₀ hu₀] at h0
      omega
  have hhigh : round (w.gpu r) d (gi % R.nslot) ≤ gi / R.nslot + 1 := by
    by_contra hlt
    -- the next step of the slot was staged, so this one was sent
    obtain ⟨c', j', hj', hgi'⟩ := exists_stageAt (R := R) d (gi + R.nslot)
    obtain ⟨u', hu'⟩ := exists_partOf hj' R.parts_pos
    rw [hgi'] at hu'
    have h3 := hS.full d _ 0 c' u' hu' (by
      rw [Nat.add_mod_right, Nat.add_div_right _ nslot_pos]
      omega)
    have hfree := hw.freed r d _ 0 c' u' hu' (by omega) (Nat.le_add_left _ _)
    rw [Nat.add_sub_cancel] at hfree
    exact hn hfree
  have hround : round (w.gpu r) d (gi % R.nslot) = gi / R.nslot + 1 :=
    le_antisymm hhigh hlow
  rw [hS.ready d _ (Nat.mod_lt gi nslot_pos), hround, if_neg (Nat.succ_ne_zero _),
    Nat.add_sub_cancel, Nat.mul_comm, Nat.div_add_mod]

/-- A block that waits in a stuck state waits for a step that comes too late. -/
theorem wait_ends (hw : Inv w) (hs : ∀ e : Event R, e.isLocal → ¬ enabled w e) {c t : Nat}
    (hmin : ∀ r, c ≤ (w.gpu r).kernel)
    (ih : ∀ r d, ∀ s < (R.calls c).steps d, s < t → R.stepAt d c s < (w.proxy r).posted d)
    {r : Rank} (hr : (w.gpu r).kernel = c) {b : Fin R.grid} {u k : Nat} {it : Item ItemKind}
    (hit : R.item c u = some it) (hstep : it.step ≤ t) : (w.gpu r).cta b ≠ .wait u k := by
  intro hb
  have hunit : ((w.gpu r).cta b).unit = some u := by rw [hb]; rfl
  have hu := ((hw.kernel r).unit_lt b u hunit).1
  rw [hr] at hu
  refine hs (.pass r b u k) trivial ⟨hb, ?_⟩
  unfold passes
  rw [hr]
  split
  · -- a chunk of an earlier step has landed
    rename_i d s hd
    obtain ⟨it', hit', hlt, hsteps⟩ := deps_lt hu (List.mem_iff_getElem?.mpr ⟨k, hd⟩)
    obtain rfl := Option.some.inj (hit.symm.trans hit')
    have hpost := ih (sender r d) d s hsteps (by omega)
    rw [← (wire_of_stuck hw hs (sender r d) d).1] at hpost
    exact decide_eq_true (rflag_of_flagged hw hsteps hpost hr.le)
  · split
    · -- the step before it in the slot has been sent
      rename_i d j hst
      obtain ⟨hj, it', hit', -, -, hstep'⟩ := stageOf_spec hu hst
      obtain rfl := Option.some.inj (hit.symm.trans hit')
      refine decide_eq_true ?_
      rcases Nat.lt_or_ge (R.stageAt d c j) R.nslot with hlt | hge
      · exact Or.inl hlt
      right
      obtain ⟨c', j', hj', hgi'⟩ := exists_stageAt (R := R) d (R.stageAt d c j - R.nslot)
      have hpos := nslot_pos (R := R)
      have hlt : R.stageAt d c' j' < R.stageAt d c j := by omega
      have hj'' := hj'.trans_le (staged_le d)
      have hdone : R.stepAt d c' j' < (w.proxy r).done d := by
        obtain ⟨hfl, hdn⟩ := wire_of_stuck hw hs r d
        rw [hdn]
        rcases (stageAt_lt hj' hj).mp hlt with hc | ⟨rfl, hjj⟩
        · have := flagged_of_retired hw (hc.trans_le (hmin (receiver r d))) hj''
          rw [sender_receiver] at this
          omega
        · exact ih r d j' hj'' (by omega)
      have := ((hw.proxy r).sendDone d c' j' hj').mpr hdone
      omega
    · rfl

/-- In a stuck state the units of a call are done, step by step. -/
theorem units_done (hw : Inv w) (hs : ∀ e : Event R, e.isLocal → ¬ enabled w e) {c t : Nat}
    (hmin : ∀ r, c ≤ (w.gpu r).kernel) (hlaunch : ∀ r, c < (w.gpu r).launched)
    (ih : ∀ r d, ∀ s < (R.calls c).steps d, s < t → R.stepAt d c s < (w.proxy r).posted d)
    (r : Rank) : ∀ u < R.units c, ∀ it, R.item c u = some it → it.step ≤ t →
      phase (w.gpu r) c u = 3 := by
  intro u hu it hit hstep
  rcases (hmin r).lt_or_eq with hlt | rfl
  · exact phase_of_lt hlt
  have hG := hw.kernel r
  -- no block works or counts, and none is idle
  have hcta : ∀ b, (∃ u k, (w.gpu r).cta b = .wait u k) ∨ (w.gpu r).cta b = .exited := by
    intro b
    cases hb : (w.gpu r).cta b with
    | idle => exact absurd ⟨hlaunch r, hb⟩ (hs (.fetch r b) trivial)
    | wait u k => exact Or.inl ⟨u, k, rfl⟩
    | work u => exact absurd hb (hs (.copy r b u) trivial)
    | publish u => exact absurd hb (hs (.publish r b u) trivial)
    | exited => exact Or.inr rfl
  by_contra hne
  by_cases hf : R.workBase (w.gpu r).kernel + u < (w.gpu r).work
  · -- a block holds the unit, and waits
    by_cases hex : ∃ b, ((w.gpu r).cta b).unit = some u
    · obtain ⟨b, hb⟩ := hex
      rcases hcta b with ⟨u', k, hb'⟩ | hb'
      · rw [hb'] at hb
        obtain rfl := Option.some.inj hb
        exact wait_ends hw hs hmin ih rfl hit hstep hb'
      · rw [hb'] at hb
        simp [Cta.unit] at hb
    · exact hne (phase_of_free hf fun b hb => hex ⟨b, hb⟩)
  · -- the unit is still to be taken: a block waits with an earlier one
    rcases hcta ⟨0, R.grid_pos⟩ with ⟨u', k, hb⟩ | hb
    · obtain ⟨hu', hw'⟩ := hG.unit_lt _ u' (by rw [hb]; rfl)
      have hi' : u' / R.parts < (R.calls (w.gpu r).kernel).items :=
        (Nat.div_lt_iff_lt_mul R.parts_pos).mpr hu'
      have hi : u / R.parts < (R.calls (w.gpu r).kernel).items :=
        (Nat.div_lt_iff_lt_mul R.parts_pos).mpr hu
      obtain ⟨it', -, hit', -⟩ := itemAt_spec hi'
      have hle := item_step_mono (Nat.div_le_div_right (c := R.parts) (show u' ≤ u by
        omega)) hi hit' hit
      exact wait_ends hw hs hmin ih rfl hit' (by omega) hb
    · have hex := hG.exits
      have hpos : 0 < (Finset.univ.filter fun b => (w.gpu r).cta b = .exited).card :=
        Finset.card_pos.mpr ⟨_, Finset.mem_filter.mpr ⟨Finset.mem_univ _, hb⟩⟩
      omega

/-- By induction on the step: in a stuck state every step of the earliest call is posted. -/
theorem steps_posted (hw : Inv w) (hs : ∀ e : Event R, e.isLocal → ¬ enabled w e) {c : Nat}
    (hmin : ∀ r, c ≤ (w.gpu r).kernel) {r₀ : Rank} (hr₀ : (w.gpu r₀).kernel = c)
    (hlaunch : ∀ r, c < (w.gpu r).launched) (t : Nat) :
    ∀ r d, ∀ s < (R.calls c).steps d, s < t → R.stepAt d c s < (w.proxy r).posted d := by
  induction t with
  | zero => exact fun _ _ _ _ h => absurd h (by omega)
  | succ t ih =>
    intro r d s hsteps hst
    by_contra hlt
    have hP := hw.proxy r
    have hge := posted_ge hw hmin r d
    have hcur := hP.cursor d
    have hpost := posting_of_stuck hw hs r
    by_cases hb : (w.proxy r).busy d = true
    swap
    · -- an idle proxy has taken every call that was launched
      have hhead := hs (.take r d) trivial
      have hhd : (w.proxy r).queued ≤ (w.proxy r).head d := by
        by_contra hh
        exact hhead ⟨hpost, by simpa using hb, by omega⟩
      rw [if_neg hb] at hcur
      have := (hw.launched r).1
      have := hlaunch r
      have := (stepAt_lt hsteps (steps_pos (g := R.calls ((w.proxy r).head d)) d)).mpr
        (Or.inl (show c < (w.proxy r).head d by omega))
      omega
    rw [if_pos hb] at hcur
    obtain ⟨hc1, hc2⟩ := hP.cur d hb
    have hs0 : (w.proxy r).step d < (R.calls ((w.proxy r).cur d)).steps d := by
      by_contra hh
      exact hs (.leave r d) trivial ⟨hpost, hb, by omega⟩
    -- it is at an unposted step of this call
    have hcc : (w.proxy r).cur d = c ∧ (w.proxy r).step d ≤ s := by
      have h1 := (not_congr (stepAt_lt hsteps hs0)).mp (by omega)
      have h2 := (not_congr (stepAt_lt hs0 (steps_pos (g := R.calls c) d))).mp (by omega)
      omega
    obtain ⟨hcc, hle⟩ := hcc
    rw [hcc] at hs0 hcur
    refine hs (.begin r d) trivial ⟨hpost, hb, by rw [hcc]; exact hs0, ?_⟩
    unfold sendable
    rw [hcc]
    simp only
    split
    · -- its item is done, so it is ready
      rename_i hstaged
      refine decide_eq_true (ready_of_finished hw hstaged (fun p u hu => ?_) fun hsd => ?_)
      · obtain ⟨hu, -, j, hj, hgi⟩ := hu
        obtain ⟨hjs, it, hit, -, -, hstep⟩ := stageOf_spec hu hj
        obtain ⟨-, rfl⟩ := stageAt_inj hjs hstaged hgi
        exact units_done hw hs hmin hlaunch ih r u hu it hit (by omega)
      · have hdone := (hP.sendDone d c _ hstaged).mp hsd
        rw [(wire_of_stuck hw hs r d).2] at hdone
        omega
    · -- the chunk it relays has landed
      rename_i hstaged
      obtain ⟨-, s', hdep, hlt', hst'⟩ := relay_step (not_lt.mp hstaged) hs0
      have hs' : s' < (R.calls c).steps d := hst'.trans_le (staged_le d)
      have hp := ih (sender r d) d s' hs' (by omega)
      rw [← (wire_of_stuck hw hs (sender r d) d).1] at hp
      simp only [hdep]
      exact decide_eq_true (rflag_of_flagged hw hs' hp hr₀.le)

/-- **A call that every rank has launched goes on without the hosts.** -/
theorem exists_local (hw : Inv w) {r : Rank}
    (h : ∀ r', (w.gpu r).kernel < (w.gpu r').launched) : ∃ e : Event R, e.isLocal ∧
      enabled w e := by
  by_contra hno
  have hs : ∀ e : Event R, e.isLocal → ¬ enabled w e := fun e he hen => hno ⟨e, he, hen⟩
  -- the rank furthest behind
  obtain ⟨r₀, hr₀⟩ := Finite.exists_min fun r => (w.gpu r).kernel
  have hlaunch : ∀ r', (w.gpu r₀).kernel < (w.gpu r').launched := fun r' => (hr₀ r).trans_lt (h r')
  have hdone : ∀ u < R.units (w.gpu r₀).kernel, phase (w.gpu r₀) (w.gpu r₀).kernel u = 3 := by
    intro u hu
    obtain ⟨it, -, hit, -⟩ := itemAt_spec (g := R.calls (w.gpu r₀).kernel)
      ((Nat.div_lt_iff_lt_mul R.parts_pos).mpr hu)
    exact units_done hw hs hr₀ hlaunch (steps_posted hw hs hr₀ rfl hlaunch it.step) r₀ u hu it hit
      le_rfl
  refine hs (.retire r₀) trivial ⟨hlaunch r₀, fun b => ?_⟩
  have hno : ∀ u, ((w.gpu r₀).cta b).unit = some u → ((w.gpu r₀).cta b).phase = 3 := by
    intro u hb
    rw [← phase_of_unit (hw.kernel r₀) hb]
    exact hdone u ((hw.kernel r₀).unit_lt b u hb).1
  cases hb : (w.gpu r₀).cta b with
  | idle => exact absurd ⟨hlaunch r₀, hb⟩ (hs (.fetch r₀ b) trivial)
  | wait u k => simpa [hb, Cta.phase] using hno u (by rw [hb]; rfl)
  | work u => simpa [hb, Cta.phase] using hno u (by rw [hb]; rfl)
  | publish u => simpa [hb, Cta.phase] using hno u (by rw [hb]; rfl)
  | exited => rfl

/-- While some call is not done on some rank, something can happen. -/
theorem exists_enabled (hw : Inv w) {r : Rank} (h : (w.gpu r).kernel < R.count) :
    ∃ e : Event R, enabled w e := by
  by_contra hno
  have hs : ∀ e : Event R, ¬ enabled w e := fun e hen => hno ⟨e, hen⟩
  obtain ⟨r₀, hr₀⟩ := Finite.exists_min fun r => (w.gpu r).kernel
  by_cases hl : ∀ r', (w.gpu r₀).kernel < (w.gpu r').launched
  · obtain ⟨e, -, he⟩ := exists_local hw hl
    exact hs e he
  -- a host that has not launched the call can queue it
  obtain ⟨r', hr'⟩ := not_forall.mp hl
  have h1 := (hw.kernel r').kernel_le
  have h2 := hr₀ r'
  have h3 := hw.launched r'
  have h4 := hs (.launch r')
  simp only [enabled] at h4
  refine hs (.enqueue r') ⟨by have := hr₀ r; omega, by omega, ?_⟩
  have hhead : ∀ d, (w.gpu r₀).kernel ≤ (w.proxy r').head d := by
    intro d
    have hge := posted_ge hw hr₀ r' d
    have hcur := (hw.proxy r').cursor d
    have hpos := steps_pos (g := R.calls (w.gpu r₀).kernel) d
    by_contra hlt
    have hbound : (w.proxy r').posted d ≤ R.stepAt d ((w.proxy r').head d) 0 := by
      split at hcur
      · rename_i hb
        obtain ⟨hc1, hc2⟩ := (hw.proxy r').cur d hb
        rw [hcur, ← hc1]
        unfold Ring.stepAt place
        rw [start_succ]
        omega
      · exact hcur.le
    have := (stepAt_lt (R := R) (steps_pos (g := R.calls ((w.proxy r').head d)) d) hpos).mpr
      (Or.inl (not_le.mp hlt))
    omega
  have hq : (w.proxy r').queued ≤ min ((w.proxy r').head .fwd) ((w.proxy r').head .bwd) :=
    le_min (by have := hhead .fwd; omega) (by have := hhead .bwd; omega)
  rw [Nat.sub_eq_zero_of_le hq]
  decide

end Progress

/-- **The prefill ring is safe and does not get stuck.** After every run of the four ranks' hosts,
kernels, proxies and queue pairs, for every sequence of calls: what a wait accepts was written for
its own call and step and stands while it is read, no receive area and no staging slot is written
over before that, a call every rank has launched can go on without the hosts, and while some rank
has a call to do something can happen. -/
theorem ring_safe_and_live (R : Ring) (h : List (Event R)) :
    Safe (after R h) ∧
      (∀ r, (∀ r', ((after R h).gpu r).kernel < ((after R h).gpu r').launched) →
        ∃ e : Event R, e.isLocal ∧ enabled (after R h) e) ∧
      ∀ r, ((after R h).gpu r).kernel < R.count → ∃ e : Event R, enabled (after R h) e :=
  ⟨safe_after h, fun _ hl => exists_local (inv_after h) hl, fun _ hc =>
    exists_enabled (inv_after h) hc⟩

end Ringside.PrefillRing.Protocol

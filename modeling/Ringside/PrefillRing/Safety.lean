import Ringside.PrefillRing.Staging
import Ringside.PrefillRing.Posting

/-!
# What the four ranks know of each other

`Inv` ties the kernels, the proxies and the memory of the four ranks together. Each field says what
one component has seen of another: a chunk that a unit consumes has its flag, a step that was posted
its source, a receive slot the chunk of its last call.

* No rank waits for a rank across the ring directly. What it knows of one is handed on by a
  neighbour, with the chunks (`kernels_close`).
* Receive areas and flags have two parities. A rank that sends for a call knows all ranks past the
  last call of that parity (`kernels_of_posted`), so nothing is written over that is still read.
* Every event changes one component of one rank, or a proxy and its neighbour's memory.
  `inv_setGpu`, `inv_setProxy` and `inv_quiet` say once what that leaves to show.

Results:
* `inv_step`, `inv_after`: every event keeps the invariant, so it holds after every run.
* `flagged_of_retired`: a rank that is done with a call got every chunk of it.
* `kernels_close`: a rank that is done with a call knows every other rank in that call or past it.
* `kernels_of_posted`: who sends for a later call of the same parity knows every rank past this one.
-/

namespace Ringside.PrefillRing.Protocol

open Ringside.Run Ringside.Merge Ringside.Segments

variable {R : Ring}

/-- The kernels, the proxies and the memory of the four ranks agree. -/
structure Inv (w : World R) : Prop where
  kernel : ∀ r, KernelInv (w.gpu r)
  slots : ∀ r, StageInv (w.gpu r)
  proxy : ∀ r, ProxyInv R (w.proxy r)
  launched : ∀ r, (w.gpu r).launched ≤ (w.proxy r).queued ∧
    (w.proxy r).queued ≤ (w.gpu r).launched + 1
  staged : ∀ r d c j, j < (R.calls c).staged d → R.stepAt d c j < begun (w.proxy r) d →
    R.stageAt d c j / R.nslot < round (w.gpu r) d (R.stageAt d c j % R.nslot)
  relayed : ∀ r d c s s', (R.calls c).staged d ≤ s → s < (R.calls c).steps d →
    (sendStep (R.calls c) d s).dep = some s' → R.stepAt d c s < begun (w.proxy r) d →
    R.stepAt d c s' < (w.proxy (sender r d)).flagged d
  deps : ∀ r c u d s, u < R.units c → (d, s) ∈ R.deps c u → phase (w.gpu r) c u ≠ 0 →
    R.stepAt d c s < (w.proxy (sender r d)).flagged d
  waited : ∀ r b u k k' d s, (w.gpu r).cta b = .wait u k → k' < k →
    (R.deps (w.gpu r).kernel u)[k']? = some (d, s) →
    R.stepAt d (w.gpu r).kernel s < (w.proxy (sender r d)).flagged d
  freed : ∀ r d gi p c u, PartOf R d gi p c u → phase (w.gpu r) c u ≠ 0 → R.nslot ≤ gi →
    gi - R.nslot < (w.proxy r).sendDone d
  rflag : ∀ r π d s, (w.inbox r).rflag π d s ≠ 0 → ∃ c < R.count, s < (R.calls c).steps d ∧
    π = parity c ∧ (w.inbox r).rflag π d s = seq c ∧
    R.stepAt d c s < (w.proxy (sender r d)).flagged d
  raised : ∀ r d c s, s < (R.calls c).steps d →
    R.stepAt d c s < (w.proxy (sender r d)).flagged d →
    (w.inbox r).rflag (parity c) d s = seq c ∨
      ∃ c' > c, parity c' = parity c ∧ s < (R.calls c').steps d ∧
        R.stepAt d c' s < (w.proxy (sender r d)).flagged d
  landed : ∀ r d c s i, s < (R.calls c).steps d →
    R.stepAt d c s < (w.proxy (sender r d)).data d →
    i < (R.calls c).chunkLen (sendStep (R.calls c) d s).chunk →
    (w.inbox r).recv (parity c) d (s * (R.calls c).cr + i) = some (c, s, i) ∨
      ∃ c' > c, parity c' = parity c ∧ ∃ s' < (R.calls c').steps d,
        R.stepAt d c' s' < (w.proxy (sender r d)).data d

theorem seq_eq {c : Nat} (h : c < R.count) : seq c = c + 1 := by
  have := R.count_lt
  unfold seq
  rw [Nat.mod_eq_of_lt (by omega)]

/-- Two calls of one parity are two apart. -/
theorem parity_gap {c c' : Nat} (h : c < c') (hp : parity c' = parity c) : c + 1 < c' := by
  unfold parity seq at hp
  omega

theorem phase_init (r : Rank) (c u : Nat) : phase ((World.init R).gpu r) c u = 0 := by
  refine phase_of_unfetched (Nat.not_lt_zero c) ?_
  rintro ⟨-, h⟩
  exact Nat.not_lt_zero _ h

open Classical in
theorem stageInv_init (r : Rank) : StageInv ((World.init R).gpu r) where
  ready d slot h := by simp [round, World.init]
  full d gi p c u _ h := by simp [round, World.init] at h
  later d gi p c u _ _ := phase_init r c u
  part d gi _ := by
    rw [Finset.card_eq_zero.mpr]
    · simp [World.init]
    · rw [Finset.filter_eq_empty_iff]
      rintro p - ⟨c, u, -, h3⟩
      rw [phase_init] at h3
      omega
  content d gi p c u _ h := by
    rw [phase_init] at h
    omega

theorem inv_init : Inv (World.init R) where
  kernel r := {
    kernel_le := le_rfl
    work_ge := Nat.zero_le _
    resting := fun _ => ⟨rfl, fun _ => rfl⟩
    unit_lt := fun b u h => by simp [World.init, Cta.unit] at h
    unit_inj := fun b b' u h => by simp [World.init, Cta.unit] at h
    exits := by simp [World.init] }
  slots r := stageInv_init r
  proxy r := proxyInv_init
  launched r := ⟨le_rfl, Nat.zero_le _⟩
  staged r d c j _ h := by simp [begun, World.init] at h
  relayed r d c s s' _ _ _ h := by simp [begun, World.init] at h
  deps r c u d s _ _ h := absurd (phase_init r c u) h
  waited r b u k k' d s h := by simp [World.init] at h
  freed r d gi p c u _ h := absurd (phase_init r c u) h
  rflag r π d s h := by simp [World.init] at h
  raised r d c s _ h := by simp [World.init] at h
  landed r d c s i _ h := by simp [World.init] at h

/-! ## Events of one component -/

section Frames

variable {w : World R}

@[simp] theorem setGpu_proxy (r : Rank) (G : Gpu R.grid) : (w.setGpu r G).proxy = w.proxy := rfl

@[simp] theorem setGpu_inbox (r : Rank) (G : Gpu R.grid) : (w.setGpu r G).inbox = w.inbox := rfl

@[simp] theorem setProxy_gpu (r : Rank) (P : Proxy) : (w.setProxy r P).gpu = w.gpu := rfl

@[simp] theorem setProxy_inbox (r : Rank) (P : Proxy) : (w.setProxy r P).inbox = w.inbox := rfl

@[simp] theorem setInbox_gpu (r : Rank) (I : Inbox) : (w.setInbox r I).gpu = w.gpu := rfl

@[simp] theorem setInbox_proxy (r : Rank) (I : Inbox) : (w.setInbox r I).proxy = w.proxy := rfl

theorem setGpu_gpu (r r' : Rank) (G : Gpu R.grid) :
    (w.setGpu r G).gpu r' = if r' = r then G else w.gpu r' := by
  simp only [World.setGpu, Function.update_apply]

theorem setProxy_proxy (r r' : Rank) (P : Proxy) :
    (w.setProxy r P).proxy r' = if r' = r then P else w.proxy r' := by
  simp only [World.setProxy, Function.update_apply]

theorem setInbox_inbox (r r' : Rank) (I : Inbox) :
    (w.setInbox r I).inbox r' = if r' = r then I else w.inbox r' := by
  simp only [World.setInbox, Function.update_apply]

/-- The kernels of one rank change. -/
theorem inv_setGpu (hw : Inv w) {r : Rank} {G : Gpu R.grid} (hk : KernelInv G) (hs : StageInv G)
    (hl : G.launched ≤ (w.proxy r).queued ∧ (w.proxy r).queued ≤ G.launched + 1)
    (hround : ∀ d slot, round (w.gpu r) d slot ≤ round G d slot)
    (hdeps : ∀ c u d s, u < R.units c → (d, s) ∈ R.deps c u → phase G c u ≠ 0 →
      R.stepAt d c s < (w.proxy (sender r d)).flagged d)
    (hwait : ∀ b u k k' d s, G.cta b = .wait u k → k' < k →
      (R.deps G.kernel u)[k']? = some (d, s) →
      R.stepAt d G.kernel s < (w.proxy (sender r d)).flagged d)
    (hfree : ∀ d gi p c u, PartOf R d gi p c u → phase G c u ≠ 0 → R.nslot ≤ gi →
      gi - R.nslot < (w.proxy r).sendDone d) : Inv (w.setGpu r G) where
  kernel r' := by
    rw [setGpu_gpu]
    split
    · exact hk
    · exact hw.kernel r'
  slots r' := by
    rw [setGpu_gpu]
    split
    · exact hs
    · exact hw.slots r'
  proxy := hw.proxy
  launched r' := by
    rw [setGpu_gpu]
    split
    · subst_vars
      exact hl
    · exact hw.launched r'
  staged r' d c j hj h := by
    have := hw.staged r' d c j hj h
    rw [setGpu_gpu]
    split
    · subst_vars
      exact this.trans_le (hround d _)
    · exact this
  relayed := hw.relayed
  deps r' := by
    rw [setGpu_gpu]
    split
    · subst_vars
      exact hdeps
    · exact hw.deps r'
  waited r' := by
    rw [setGpu_gpu]
    split
    · subst_vars
      exact hwait
    · exact hw.waited r'
  freed r' := by
    rw [setGpu_gpu]
    split
    · subst_vars
      exact hfree
    · exact hw.freed r'
  rflag := hw.rflag
  raised := hw.raised
  landed := hw.landed

/-- The proxy of one rank changes, nothing on the wire. -/
theorem inv_setProxy (hw : Inv w) {r : Rank} {P : Proxy} (hp : ProxyInv R P)
    (hf : P.flagged = (w.proxy r).flagged) (hd : P.data = (w.proxy r).data)
    (hl : (w.gpu r).launched ≤ P.queued ∧ P.queued ≤ (w.gpu r).launched + 1)
    (hstaged : ∀ d c j, j < (R.calls c).staged d → R.stepAt d c j < begun P d →
      R.stageAt d c j / R.nslot < round (w.gpu r) d (R.stageAt d c j % R.nslot))
    (hrelay : ∀ d c s s', (R.calls c).staged d ≤ s → s < (R.calls c).steps d →
      (sendStep (R.calls c) d s).dep = some s' → R.stepAt d c s < begun P d →
      R.stepAt d c s' < (w.proxy (sender r d)).flagged d)
    (hfree : ∀ d, (w.proxy r).sendDone d ≤ P.sendDone d) : Inv (w.setProxy r P) := by
  have hflag : ∀ r', ((w.setProxy r P).proxy r').flagged = (w.proxy r').flagged := by
    intro r'
    rw [setProxy_proxy]
    split
    · subst_vars
      exact hf
    · rfl
  have hdata : ∀ r', ((w.setProxy r P).proxy r').data = (w.proxy r').data := by
    intro r'
    rw [setProxy_proxy]
    split
    · subst_vars
      exact hd
    · rfl
  refine ⟨hw.kernel, hw.slots, fun r' => ?_, fun r' => ?_, fun r' => ?_, fun r' => ?_, ?_, ?_,
    fun r' d gi p c u hpart h0 hle => ?_, ?_, ?_, ?_⟩
  · rw [setProxy_proxy]
    split
    · exact hp
    · exact hw.proxy r'
  · rw [setProxy_proxy]
    split
    · subst_vars
      exact hl
    · exact hw.launched r'
  · rw [setProxy_proxy]
    split
    · subst_vars
      exact hstaged
    · exact hw.staged r'
  · simp only [hflag]
    rw [setProxy_proxy]
    split
    · subst_vars
      exact hrelay
    · exact hw.relayed r'
  · simpa only [hflag, setProxy_gpu] using hw.deps
  · simpa only [hflag, setProxy_gpu] using hw.waited
  · have := hw.freed r' d gi p c u hpart h0 hle
    rw [setProxy_proxy]
    split
    · subst_vars
      exact this.trans_le (hfree d)
    · exact this
  · simpa only [hflag, setProxy_inbox] using hw.rflag
  · simpa only [hflag, setProxy_inbox] using hw.raised
  · simpa only [hdata, setProxy_inbox] using hw.landed

/-! ## Events of a kernel

A kernel event changes the phase of one unit, or nothing but the kernel's own bookkeeping. What
other units knew stays; a unit that starts knows what its waits have seen.
-/

/-- The units of an event that starts nothing keep what they knew. -/
theorem inv_quiet (hw : Inv w) {r : Rank} {G : Gpu R.grid} (hk : KernelInv G) (hs : StageInv G)
    (hl : G.launched ≤ (w.proxy r).queued ∧ (w.proxy r).queued ≤ G.launched + 1)
    (hround : ∀ d slot, round (w.gpu r) d slot ≤ round G d slot)
    (hp : ∀ c u, u < R.units c → phase G c u ≠ 0 → phase (w.gpu r) c u ≠ 0)
    (hwait : ∀ b u k k' d s, G.cta b = .wait u k → k' < k →
      (R.deps G.kernel u)[k']? = some (d, s) →
      R.stepAt d G.kernel s < (w.proxy (sender r d)).flagged d) : Inv (w.setGpu r G) :=
  inv_setGpu hw hk hs hl hround
    (fun c u d s hu hd h0 => hw.deps r c u d s hu hd (hp c u hu h0)) hwait
    fun d gi p c u hpart h0 => hw.freed r d gi p c u hpart (hp c u hpart.1 h0)

/-- The waits of the thread blocks an event does not touch. -/
theorem waited_update (hw : Inv w) {r : Rank} {b : Fin R.grid} {y : Cta}
    (hy : ∀ u k k' d s, y = .wait u k → k' < k → (R.deps (w.gpu r).kernel u)[k']? = some (d, s) →
      R.stepAt d (w.gpu r).kernel s < (w.proxy (sender r d)).flagged d) :
    ∀ b' u k k' d s, Function.update (w.gpu r).cta b y b' = .wait u k → k' < k →
      (R.deps (w.gpu r).kernel u)[k']? = some (d, s) →
      R.stepAt d (w.gpu r).kernel s < (w.proxy (sender r d)).flagged d := by
  intro b' u k k' d s h
  rcases eq_or_ne b' b with rfl | hb
  · rw [Function.update_self] at h
    exact hy u k k' d s h
  · rw [Function.update_of_ne hb] at h
    exact hw.waited r b' u k k' d s h

theorem inv_launch (hw : Inv w) {r : Rank} (h : (w.gpu r).launched < (w.proxy r).queued) :
    Inv (w.setGpu r { w.gpu r with launched := (w.gpu r).launched + 1 }) := by
  have hl := hw.launched r
  refine inv_quiet hw (kernelInv_launch (hw.kernel r)) ?_ ?_ ?_ ?_ ?_
  · exact stageInv_congr (hw.slots r) rfl rfl rfl fun _ _ _ _ _ _ => rfl
  · simp only
    omega
  · exact fun _ _ => le_rfl
  · exact fun _ _ _ h => h
  · exact hw.waited r

theorem inv_fetch (hw : Inv w) {r : Rank} {b : Fin R.grid}
    (hk : (w.gpu r).kernel < (w.gpu r).launched) (hb : (w.gpu r).cta b = .idle) :
    Inv (w.setGpu r ((w.gpu r).fetch R b)) := by
  have hp := phase_fetch (hw.kernel r) hk hb
  refine inv_quiet hw (kernelInv_fetch (hw.kernel r) hk hb) ?_ (hw.launched r)
    (fun _ _ => le_rfl) ?_ ?_
  · exact stageInv_congr (hw.slots r) rfl rfl rfl fun _ _ _ c u h => hp c u h.1
  · intro c u hu h
    rwa [hp c u hu] at h
  · refine waited_update hw fun u k k' d s hy hk' => ?_
    split at hy
    · obtain ⟨rfl, rfl⟩ := Cta.wait.inj hy
      omega
    · simp at hy

/-- The step a unit stages. -/
theorem partOf_of_stageOf {c u : Nat} (hu : u < R.units c) {d : Dir} {j : Nat}
    (h : R.stageOf c u = some (d, j)) : PartOf R d (R.stageAt d c j) (u % R.parts) c u :=
  ⟨hu, rfl, j, h, rfl⟩

theorem no_part {c u : Nat} (h : R.stageOf c u = none) {d : Dir} {gi p : Nat} :
    ¬ PartOf R d gi p c u := by
  rintro ⟨-, -, j, hj, -⟩
  rw [h] at hj
  simp at hj

theorem inv_copy (hw : Inv w) {r : Rank} {b : Fin R.grid} {u : Nat}
    (hb : (w.gpu r).cta b = .work u) : Inv (w.setGpu r ((w.gpu r).copy R b u)) := by
  have hG := hw.kernel r
  have hunit : ((w.gpu r).cta b).unit = some u := by rw [hb]; rfl
  have hold : phase (w.gpu r) (w.gpu r).kernel u = 1 := by rw [phase_of_unit hG hunit, hb]; rfl
  have hu := (hG.unit_lt b u hunit).1
  cases hst : R.stageOf (w.gpu r).kernel u with
  | none =>
    simp only [Gpu.copy, hst]
    have hp := phase_update hG (K := { w.gpu r with cta := Function.update (w.gpu r).cta b .idle })
      rfl rfl rfl rfl hunit (Or.inr rfl)
    refine inv_quiet hw (kernelInv_update hG rfl rfl rfl rfl hunit (Or.inr rfl)) ?_
      (hw.launched r) (fun _ _ => le_rfl) ?_ (waited_update hw fun _ _ _ _ _ hy => by simp at hy)
    · refine stageInv_congr (hw.slots r) rfl rfl rfl fun d gi p c v hpart => ?_
      rw [hp, if_neg]
      rintro ⟨rfl, rfl⟩
      exact no_part hst hpart
    · intro c v _ h
      rw [hp] at h
      split at h
      · rename_i he
        rw [he.1, he.2, hold]
        omega
      · exact h
  | some dj =>
    obtain ⟨d, j⟩ := dj
    simp only [Gpu.copy, hst]
    have hp := phase_update hG (K := (w.gpu r).copy R b u) (y := .publish u)
      (by simp only [Gpu.copy, hst]) (by simp only [Gpu.copy, hst]) (by simp only [Gpu.copy, hst])
      (by simp only [Gpu.copy, hst]) hunit (Or.inl rfl)
    simp only [Gpu.copy, hst] at hp
    refine inv_quiet hw (kernelInv_update hG rfl rfl rfl rfl hunit (Or.inl rfl)) ?_
      (hw.launched r) (fun _ _ => le_rfl) ?_ (waited_update hw fun _ _ _ _ _ hy => by simp at hy)
    · exact stageInv_copy (hw.slots r) rfl rfl (partOf_of_stageOf hu hst) hold hp
        fun _ _ _ => rfl
    · intro c v _ h
      rw [hp] at h
      split at h
      · rename_i he
        rw [he.1, he.2, hold]
        omega
      · exact h

theorem inv_publish (hw : Inv w) {r : Rank} {b : Fin R.grid} {u : Nat}
    (hb : (w.gpu r).cta b = .publish u) : Inv (w.setGpu r ((w.gpu r).publish R b u)) := by
  have hG := hw.kernel r
  have hunit : ((w.gpu r).cta b).unit = some u := by rw [hb]; rfl
  have hold : phase (w.gpu r) (w.gpu r).kernel u = 2 := by rw [phase_of_unit hG hunit, hb]; rfl
  have hu := (hG.unit_lt b u hunit).1
  have hcta : ((w.gpu r).publish R b u).cta = Function.update (w.gpu r).cta b .idle := by
    unfold Gpu.publish
    split <;> rfl
  have hsame : ((w.gpu r).publish R b u).launched = (w.gpu r).launched ∧
      ((w.gpu r).publish R b u).kernel = (w.gpu r).kernel ∧
      ((w.gpu r).publish R b u).work = (w.gpu r).work ∧
      ((w.gpu r).publish R b u).stage = (w.gpu r).stage := by
    unfold Gpu.publish
    split <;> exact ⟨rfl, rfl, rfl, rfl⟩
  obtain ⟨h1, h2, h3, h4⟩ := hsame
  have hp := phase_update hG h1 h2 h3 hcta hunit (Or.inr rfl)
  have hcnt : ∀ d slot, (w.gpu r).cnt d slot ≤ ((w.gpu r).publish R b u).cnt d slot := by
    intro d slot
    unfold Gpu.publish
    split
    · simp only
      split
      · rename_i he
        rw [he.1, he.2]
        exact Nat.le_succ _
      · exact le_rfl
    · exact le_rfl
  refine inv_quiet hw (kernelInv_update hG h1 h2 h3 hcta hunit (Or.inr rfl)) ?_
    (by rw [h1]; exact hw.launched r) (fun d slot => Nat.div_le_div_right (hcnt d slot)) ?_ ?_
  · cases hst : R.stageOf (w.gpu r).kernel u with
    | none =>
      have hno : ((w.gpu r).publish R b u).cnt = (w.gpu r).cnt ∧
          ((w.gpu r).publish R b u).ready = (w.gpu r).ready := by
        simp only [Gpu.publish, hst]
        exact ⟨trivial, trivial⟩
      refine stageInv_congr (hw.slots r) hno.1 hno.2 h4 fun d gi p c v hpart => ?_
      rw [hp, if_neg]
      rintro ⟨rfl, rfl⟩
      exact no_part hst hpart
    | some dj =>
      obtain ⟨d, j⟩ := dj
      refine stageInv_publish (hw.slots r) h4 (partOf_of_stageOf hu hst) hold hp ?_ ?_
      · intro d' slot
        simp only [Gpu.publish, hst]
      · intro d' slot
        simp only [Gpu.publish, hst]
  · intro c v _ h
    rw [hp] at h
    split at h
    · rename_i he
      rw [he.1, he.2, hold]
      omega
    · exact h
  · rw [hcta, h2]
    exact waited_update hw fun _ _ _ _ _ hy => by simp at hy

theorem inv_retire (hw : Inv w) {r : Rank} (hk : (w.gpu r).kernel < (w.gpu r).launched)
    (h : ∀ b, (w.gpu r).cta b = .exited) : Inv (w.setGpu r ((w.gpu r).retire R)) := by
  have hp : ∀ c v, v < R.units c → phase ((w.gpu r).retire R) c v = phase (w.gpu r) c v :=
    fun c v hv => phase_retire (hw.kernel r) h hv
  refine inv_quiet hw (kernelInv_retire (hw.kernel r) hk h) ?_ (hw.launched r) (fun _ _ => le_rfl)
    ?_ fun b u k k' d s hb => by simp [Gpu.retire] at hb
  · exact stageInv_congr (hw.slots r) rfl rfl rfl fun d gi p c v hpart => hp c v hpart.1
  · intro c v hv h0
    rwa [hp c v hv] at h0

/-- The flag a wait saw is the flag of its own call and step. -/
theorem flagged_of_rflag (hw : Inv w) {r : Rank} {d : Dir} {c s : Nat} (hc : c < R.count)
    (h : (w.inbox r).rflag (parity c) d s = seq c) :
    R.stepAt d c s < (w.proxy (sender r d)).flagged d := by
  obtain ⟨c', hc', -, -, heq, hf⟩ := hw.rflag r (parity c) d s (by rw [h, seq_eq hc]; omega)
  rw [h, seq_eq hc, seq_eq hc'] at heq
  obtain rfl := Nat.succ.inj heq
  exact hf

/-- The kernel that runs is one of the calls issued. -/
theorem kernel_lt_count (hw : Inv w) {r : Rank} {b : Fin R.grid} {u : Nat}
    (h : ((w.gpu r).cta b).unit = some u) : (w.gpu r).kernel < R.count := by
  have hk := (hw.kernel r).kernel_le
  have hne : (w.gpu r).kernel ≠ (w.gpu r).launched := by
    intro he
    rw [((hw.kernel r).resting he).2 b] at h
    simp [Cta.unit] at h
  have := (hw.launched r).1
  have := (hw.proxy r).queued_le
  omega

/-- A wait that is over adds what it waited for; after the last one the unit starts. -/
theorem inv_pass (hw : Inv w) {r : Rank} {b : Fin R.grid} {u k : Nat}
    (hb : (w.gpu r).cta b = .wait u k)
    (h : passes R (w.gpu r) (w.proxy r) (w.inbox r) u k = true) :
    Inv (w.setGpu r ((w.gpu r).pass R b u k)) := by
  have hG := hw.kernel r
  have hunit : ((w.gpu r).cta b).unit = some u := by rw [hb]; rfl
  have hold : phase (w.gpu r) (w.gpu r).kernel u = 0 := by rw [phase_of_unit hG hunit, hb]; rfl
  have hcount := kernel_lt_count hw hunit
  -- what was waited for so far
  have hwaited : ∀ k' d s, k' < k + 1 → (R.deps (w.gpu r).kernel u)[k']? = some (d, s) →
      R.stepAt d (w.gpu r).kernel s < (w.proxy (sender r d)).flagged d := by
    intro k' d s hk' hd
    rcases Nat.lt_succ_iff_lt_or_eq.mp hk' with hlt | rfl
    · exact hw.waited r b u k k' d s hb hlt hd
    · simp only [passes, hd, decide_eq_true_eq] at h
      exact flagged_of_rflag hw hcount h
  unfold Gpu.pass
  by_cases hlen : k < (R.deps (w.gpu r).kernel u).length
  · rw [if_pos hlen]
    have hp := phase_update hG
      (K := { w.gpu r with cta := Function.update (w.gpu r).cta b (.wait u (k + 1)) })
      rfl rfl rfl rfl hunit (Or.inl rfl)
    have hsame : ∀ c v, phase
        { w.gpu r with cta := Function.update (w.gpu r).cta b (.wait u (k + 1)) } c v =
          phase (w.gpu r) c v := by
      intro c v
      rw [hp]
      split
      · rename_i he
        rw [he.1, he.2, hold]
        rfl
      · rfl
    refine inv_quiet hw (kernelInv_update hG rfl rfl rfl rfl hunit (Or.inl rfl)) ?_
      (hw.launched r) (fun _ _ => le_rfl) ?_ (waited_update hw ?_)
    · exact stageInv_congr (hw.slots r) rfl rfl rfl fun d gi p c v _ => hsame c v
    · intro c v _ h0
      rwa [hsame] at h0
    · intro u' k'' k' d s hy hk' hd
      obtain ⟨rfl, rfl⟩ := Cta.wait.inj hy
      exact hwaited k' d s hk' hd
  · rw [if_neg hlen]
    have hp := phase_update hG
      (K := { w.gpu r with cta := Function.update (w.gpu r).cta b (.work u) })
      rfl rfl rfl rfl hunit (Or.inl rfl)
    have hnone : (R.deps (w.gpu r).kernel u)[k]? = none := List.getElem?_eq_none (not_lt.mp hlen)
    -- a unit that stages has its slot
    have hslot : ∀ d gi p, PartOf R d gi p (w.gpu r).kernel u → R.nslot ≤ gi →
        gi - R.nslot < (w.proxy r).sendDone d := by
      rintro d gi p ⟨-, -, j, hj, rfl⟩ hle
      simp only [passes, hnone, hj, decide_eq_true_eq] at h
      omega
    refine inv_setGpu hw (kernelInv_update hG rfl rfl rfl rfl hunit (Or.inl rfl)) ?_
      (hw.launched r) (fun _ _ => le_rfl) ?_ (waited_update hw fun _ _ _ _ _ hy => by simp at hy) ?_
    · refine stageInv_start (hw.slots r) rfl rfl rfl hold hp fun d gi p hpart => ?_
      rcases Nat.lt_or_ge gi R.nslot with hlt | hle
      · rw [Nat.div_eq_of_lt hlt]
        exact Nat.zero_le _
      -- the step before it in the slot was sent, hence staged whole
      have hfree := hslot d gi p hpart hle
      obtain ⟨c', j', hj', hgi'⟩ := exists_stageAt (R := R) d (gi - R.nslot)
      rw [← hgi'] at hfree
      have hdone := ((hw.proxy r).sendDone d c' j' hj').mp hfree
      have hbegun : R.stepAt d c' j' < begun (w.proxy r) d :=
        hdone.trans_le (((hw.proxy r).done_le d).trans (((hw.proxy r).flagged_le d).trans
          (((hw.proxy r).data_le d).trans (posted_le_begun d))))
      have hround := hw.staged r d c' j' hj' hbegun
      rw [hgi'] at hround
      have hdiv : gi / R.nslot = (gi - R.nslot) / R.nslot + 1 := by
        rw [← Nat.add_div_right _ nslot_pos, Nat.sub_add_cancel hle]
      have hmod : gi % R.nslot = (gi - R.nslot) % R.nslot := by
        rw [← Nat.add_mod_right (gi - R.nslot), Nat.sub_add_cancel hle]
      rw [hdiv, hmod]
      exact hround
    · intro c v d s hv hd h0
      rw [hp] at h0
      split at h0
      · rename_i he
        obtain ⟨rfl, rfl⟩ := he
        obtain ⟨k', hk'⟩ := List.mem_iff_getElem?.mp hd
        have hlt : k' < (R.deps (w.gpu r).kernel v).length := (List.getElem?_eq_some_iff.mp hk').1
        exact hwaited k' d s (by omega) hk'
      · exact hw.deps r c v d s hv hd h0
    · intro d gi p c v hpart h0 hle
      rw [hp] at h0
      split at h0
      · rename_i he
        obtain ⟨rfl, rfl⟩ := he
        exact hslot d gi p hpart hle
      · exact hw.freed r d gi p c v hpart h0 hle

/-! ## Events of a proxy

A proxy event changes what is begun, sent or drained. Only `begin` needs something of the rest: that
the source of a step is ready, which the ready word or the flag says.
-/

/-- A proxy event that finds no new source ready. -/
theorem inv_idle (hw : Inv w) {r : Rank} {P : Proxy} (hp : ProxyInv R P)
    (hf : P.flagged = (w.proxy r).flagged) (hd : P.data = (w.proxy r).data)
    (hl : (w.gpu r).launched ≤ P.queued ∧ P.queued ≤ (w.gpu r).launched + 1)
    (hbegun : ∀ d, begun P d = begun (w.proxy r) d)
    (hfree : ∀ d, (w.proxy r).sendDone d ≤ P.sendDone d) : Inv (w.setProxy r P) := by
  refine inv_setProxy hw hp hf hd hl (fun d c j hj h => ?_) (fun d c s s' hs hs' hdep h => ?_) hfree
  · rw [hbegun] at h
    exact hw.staged r d c j hj h
  · rw [hbegun] at h
    exact hw.relayed r d c s s' hs hs' hdep h

theorem inv_enqueue (hw : Inv w) {r : Rank} (h : (w.proxy r).queued < R.count)
    (hq : (w.proxy r).queued = (w.gpu r).launched)
    (hroom : (w.proxy r).queued - min ((w.proxy r).head .fwd) ((w.proxy r).head .bwd) < qCap) :
    Inv (w.setProxy r (w.proxy r).enqueue) := by
  refine inv_idle hw (proxyInv_enqueue (hw.proxy r) h hroom) rfl rfl ?_ (fun _ => rfl)
    fun _ => le_rfl
  simp only [Proxy.enqueue]
  omega

theorem inv_take (hw : Inv w) {r : Rank} {d : Dir} (hpost : (w.proxy r).posting = none)
    (hb : (w.proxy r).busy d = false) (h : (w.proxy r).head d < (w.proxy r).queued) :
    Inv (w.setProxy r ((w.proxy r).take d)) :=
  inv_idle hw (proxyInv_take (hw.proxy r) hpost hb h) rfl rfl (hw.launched r) (fun _ => rfl)
    fun _ => le_rfl

theorem inv_leave (hw : Inv w) {r : Rank} {d : Dir} (hpost : (w.proxy r).posting = none)
    (hb : (w.proxy r).busy d = true)
    (h : (R.calls ((w.proxy r).cur d)).steps d ≤ (w.proxy r).step d) :
    Inv (w.setProxy r ((w.proxy r).leave d)) :=
  inv_idle hw (proxyInv_leave (hw.proxy r) hpost hb h) rfl rfl (hw.launched r) (fun _ => rfl)
    fun _ => le_rfl

theorem inv_post (hw : Inv w) {r : Rank} {d : Dir} (hpost : (w.proxy r).posting = some d)
    (h : (w.proxy r).posted d - (w.proxy r).done d < itemRing - 1) :
    Inv (w.setProxy r ((w.proxy r).post R d)) := by
  refine inv_idle hw (proxyInv_post (hw.proxy r) hpost h) rfl rfl (hw.launched r) (fun d' => ?_)
    fun _ => le_rfl
  simp only [begun, Proxy.post, hpost, Function.update_apply, reduceCtorEq, if_false,
    Option.some.injEq]
  by_cases hd : d' = d
  · rw [if_pos hd, if_pos hd.symm, hd]
  · rw [if_neg hd, if_neg (Ne.symm hd)]

theorem inv_drain (hw : Inv w) {r : Rank} {d : Dir}
    (h : (w.proxy r).done d < (w.proxy r).flagged d) :
    Inv (w.setProxy r ((w.proxy r).drain d)) := by
  have hp := proxyInv_drain (hw.proxy r) h
  refine inv_idle hw hp rfl rfl (hw.launched r) (fun _ => rfl) fun d' => ?_
  -- what was completed stays completed
  by_contra hlt
  obtain ⟨c, j, hj, hgi⟩ := exists_stageAt (R := R) d' (((w.proxy r).drain d).sendDone d')
  have hold := (hw.proxy r).sendDone d' c j hj
  have hnew := hp.sendDone d' c j hj
  have hmono : (w.proxy r).done d' ≤ ((w.proxy r).drain d).done d' := by
    simp only [Proxy.drain, Function.update_apply]
    split
    · subst_vars
      exact Nat.le_succ _
    · exact le_rfl
  omega

/-- A ready word names a step that was staged whole. -/
theorem round_of_ready {G : Gpu R.grid} (hS : StageInv G) {d : Dir} {gi : Nat}
    (h : G.ready d (gi % R.nslot) = gi + 1) : gi / R.nslot < round G d (gi % R.nslot) := by
  have hlt := Nat.mod_lt gi (nslot_pos (R := R))
  have hready := hS.ready d _ hlt
  rw [h] at hready
  split at hready
  · omega
  · rename_i hne
    have hdm := Nat.div_add_mod gi R.nslot
    have he : R.nslot * (gi / R.nslot) = R.nslot * (round G d (gi % R.nslot) - 1) := by
      rw [Nat.mul_comm _ (round G d (gi % R.nslot) - 1)]
      omega
    have := Nat.eq_of_mul_eq_mul_left nslot_pos he
    omega

theorem inv_begin (hw : Inv w) {r : Rank} {d : Dir} (hpost : (w.proxy r).posting = none)
    (hb : (w.proxy r).busy d = true)
    (hs : (w.proxy r).step d < (R.calls ((w.proxy r).cur d)).steps d)
    (h : sendable R (w.gpu r) (w.proxy r) (w.inbox r) d = true) :
    Inv (w.setProxy r ((w.proxy r).begin d)) := by
  have hP := hw.proxy r
  have hcur : (w.proxy r).posted d = R.stepAt d ((w.proxy r).cur d) ((w.proxy r).step d) := by
    rw [hP.cursor d, if_pos hb]
  have hold : ∀ d', begun (w.proxy r) d' = (w.proxy r).posted d' := by
    intro d'
    simp [begun, hpost]
  -- the steps begun now are those begun before and the current one
  have split : ∀ d' c s, s < (R.calls c).steps d' →
    R.stepAt d' c s < begun ((w.proxy r).begin d) d' →
      R.stepAt d' c s < begun (w.proxy r) d' ∨
        (d' = d ∧ c = (w.proxy r).cur d ∧ s = (w.proxy r).step d) := by
    intro d' c s hsc hlt
    rw [hold]
    simp only [begun, Proxy.begin, Option.some.injEq] at hlt
    split at hlt
    · rename_i he
      subst he
      rcases Nat.lt_succ_iff_lt_or_eq.mp hlt with hlt' | heq
      · exact Or.inl hlt'
      · rw [hcur] at heq
        exact Or.inr ⟨rfl, stepAt_inj hsc hs heq⟩
    · exact Or.inl hlt
  unfold sendable at h
  refine inv_setProxy hw (proxyInv_begin hP hb hs) rfl rfl (hw.launched r)
    (fun d' c j hj hlt => ?_) (fun d' c s s' hst hsc hdep hlt => ?_) fun _ => le_rfl
  · rcases split d' c j (hj.trans_le (staged_le d')) hlt with hlt' | ⟨rfl, rfl, rfl⟩
    · exact hw.staged r d' c j hj hlt'
    · simp only [if_pos hj, decide_eq_true_eq] at h
      exact round_of_ready (hw.slots r) h
  · rcases split d' c s hsc hlt with hlt' | ⟨rfl, rfl, rfl⟩
    · exact hw.relayed r d' c s s' hst hsc hdep hlt'
    · simp only [if_neg (not_lt.mpr hst), hdep, decide_eq_true_eq] at h
      refine flagged_of_rflag hw ?_ h
      have h1 := (hP.cur d' hb).1
      have h2 := hP.head_le d'
      have h3 := hP.queued_le
      omega

/-! ## Events on the wire

A payload and its flag land in the memory of the neighbour. The fields of `Inv` on that memory leave
room for later calls of the same parity: a receive slot holds the chunk of a call, or a chunk of a
later one has landed there.
-/

/-- Receive slots of one call do not overlap. -/
theorem slot_disjoint {g : Geometry} {s s' i : Nat} {k k' : Nat} (hi : i < g.chunkLen k)
    (hlo : s' * g.cr ≤ s * g.cr + i) (hhi : s * g.cr + i < s' * g.cr + g.chunkLen k') : s = s' := by
  have h1 := chunkLen_le g k
  have h2 := chunkLen_le g k'
  rcases Nat.lt_trichotomy s s' with hlt | rfl | hlt
  · have := Nat.mul_le_mul_right g.cr (Nat.succ_le_of_lt hlt)
    rw [Nat.succ_mul] at this
    omega
  · rfl
  · have := Nat.mul_le_mul_right g.cr (Nat.succ_le_of_lt hlt)
    rw [Nat.succ_mul] at this
    omega

theorem inv_land (hw : Inv w) {r : Rank} {d : Dir} (h : (w.proxy r).data d < (w.proxy r).posted d)
    (h' : (w.proxy r).data d = (w.proxy r).flagged d) : Inv (fire w (.land r d)) := by
  obtain ⟨hs, hat, -⟩ := (hw.proxy r).wqe d _ h
  simp only [fire]
  generalize (w.proxy r).wqe d ((w.proxy r).data d) = e at hs hat
  obtain ⟨c, s⟩ := e
  simp only at hs hat ⊢
  generalize hP' : { w.proxy r with
    data := Function.update (w.proxy r).data d ((w.proxy r).data d + 1) } = P'
  generalize hI' : (w.inbox (receiver r d)).land R d c s = I'
  have hflag : ∀ r', ((w.setProxy r P').proxy r').flagged = (w.proxy r').flagged := by
    intro r'
    rw [setProxy_proxy]
    split
    · subst_vars
      rfl
    · rfl
  have hdata : ∀ r' d', ((w.setProxy r P').proxy r').data d' =
      if r' = r ∧ d' = d then (w.proxy r).data d + 1 else (w.proxy r').data d' := by
    intro r' d'
    rw [setProxy_proxy]
    by_cases hr : r' = r
    · subst hr
      rw [if_pos rfl, ← hP']
      simp only [Function.update_apply, true_and]
    · rw [if_neg hr, if_neg (fun h => hr h.1)]
  have hrest : ∀ r', begun ((w.setProxy r P').proxy r') = begun (w.proxy r') ∧
      ((w.setProxy r P').proxy r').queued = (w.proxy r').queued ∧
      ((w.setProxy r P').proxy r').sendDone = (w.proxy r').sendDone := by
    intro r'
    rw [setProxy_proxy]
    split
    · subst_vars
      exact ⟨rfl, rfl, rfl⟩
    · exact ⟨rfl, rfl, rfl⟩
  have hrflag : ∀ r', (((w.setProxy r P').setInbox (receiver r d) I').inbox r').rflag =
      (w.inbox r').rflag := by
    intro r'
    rw [setInbox_inbox]
    split
    · subst_vars
      rfl
    · rfl
  refine ⟨hw.kernel, hw.slots, fun r' => ?_, fun r' => ?_, ?_, ?_, ?_, ?_, ?_, ?_, ?_,
    fun r' d' c' s' i hs' hlt hi => ?_⟩
  · rw [setInbox_proxy, setProxy_proxy]
    split
    · rw [← hP']
      exact proxyInv_land (hw.proxy r) h h'
    · exact hw.proxy r'
  · simpa only [setInbox_proxy, setInbox_gpu, setProxy_gpu, (hrest r').2.1] using hw.launched r'
  · simpa only [setInbox_proxy, setInbox_gpu, setProxy_gpu, (hrest _).1] using hw.staged
  · simpa only [setInbox_proxy, hflag, (hrest _).1] using hw.relayed
  · simpa only [setInbox_proxy, setInbox_gpu, setProxy_gpu, hflag] using hw.deps
  · simpa only [setInbox_proxy, setInbox_gpu, setProxy_gpu, hflag] using hw.waited
  · simpa only [setInbox_proxy, setInbox_gpu, setProxy_gpu, (hrest _).2.2] using hw.freed
  · simpa only [setInbox_proxy, hflag, hrflag] using hw.rflag
  · simpa only [setInbox_proxy, hflag, hrflag] using hw.raised
  · rw [setInbox_proxy, hdata] at hlt
    -- a later call's chunk that has landed stays landed
    have later : (∃ c'' > c', parity c'' = parity c' ∧ ∃ s'' < (R.calls c'').steps d',
        R.stepAt d' c'' s'' < (w.proxy (sender r' d')).data d') →
        ∃ c'' > c', parity c'' = parity c' ∧ ∃ s'' < (R.calls c'').steps d',
          R.stepAt d' c'' s'' < (((w.setProxy r P').setInbox (receiver r d) I').proxy
            (sender r' d')).data d' := by
      rintro ⟨c'', hc, hp, s'', hs'', hd⟩
      refine ⟨c'', hc, hp, s'', hs'', hd.trans_le ?_⟩
      rw [setInbox_proxy, hdata]
      split
      · rename_i he
        rw [he.1, he.2]
        exact Nat.le_succ _
      · exact le_rfl
    by_cases hr : r' = receiver r d ∧ d' = d
    · obtain ⟨rfl, rfl⟩ := hr
      rw [sender_receiver] at hlt later ⊢
      rw [if_pos ⟨rfl, rfl⟩] at hlt
      have hself : ∀ π row, I'.recv π d' row =
          if π = parity c ∧ s * (R.calls c).cr ≤ row ∧
              row < s * (R.calls c).cr + (R.calls c).chunkLen (sendStep (R.calls c) d' s).chunk then
            some (c, s, row - s * (R.calls c).cr)
          else (w.inbox (receiver r d')).recv π d' row := by
        intro π row
        rw [← hI']
        simp only [Inbox.land, true_and]
      rw [setInbox_inbox, if_pos rfl, hself]
      by_cases hin : parity c' = parity c ∧ s * (R.calls c).cr ≤ s' * (R.calls c').cr + i ∧
          s' * (R.calls c').cr + i <
            s * (R.calls c).cr + (R.calls c).chunkLen (sendStep (R.calls c) d' s).chunk
      · rw [if_pos hin]
        -- the chunk that lands, or one of an earlier call that it overwrites
        rcases Nat.lt_succ_iff_lt_or_eq.mp hlt with hold | heq
        · rw [← hat, stepAt_lt hs' hs] at hold
          rcases hold with hc | ⟨rfl, hss⟩
          · right
            refine ⟨c, hc, hin.1.symm, s, hs, ?_⟩
            rw [setInbox_proxy, hdata, if_pos ⟨rfl, rfl⟩, hat]
            exact Nat.lt_succ_self _
          · exact absurd (slot_disjoint hi hin.2.1 hin.2.2) (by omega)
        · rw [← hat] at heq
          obtain ⟨rfl, rfl⟩ := stepAt_inj hs' hs heq
          left
          rw [Nat.add_sub_cancel_left]
      · rw [if_neg hin]
        rcases Nat.lt_succ_iff_lt_or_eq.mp hlt with hold | heq
        · rw [← sender_receiver r d'] at hold
          refine (hw.landed (receiver r d') d' c' s' i hs' hold hi).imp id ?_
          rw [sender_receiver]
          exact later
        · rw [← hat] at heq
          obtain ⟨rfl, rfl⟩ := stepAt_inj hs' hs heq
          exact absurd ⟨rfl, by omega, by omega⟩ hin
    · have hr' : ¬ (sender r' d' = r ∧ d' = d) := by
        rintro ⟨rfl, rfl⟩
        exact hr ⟨(receiver_sender r' d').symm, rfl⟩
      rw [if_neg hr'] at hlt
      have hrecv : ∀ π row, (((w.setProxy r P').setInbox (receiver r d) I').inbox
        r').recv π d' row = (w.inbox r').recv π d' row := by
        intro π row
        rw [setInbox_inbox]
        split
        · rename_i he
          subst he
          have hd : d' ≠ d := fun hd => hr ⟨rfl, hd⟩
          rw [← hI']
          simp only [Inbox.land, hd, false_and, and_false, if_false]
        · rfl
      rw [hrecv]
      exact (hw.landed r' d' c' s' i hs' hlt hi).imp id later

theorem inv_raise (hw : Inv w) {r : Rank} {d : Dir}
    (h : (w.proxy r).flagged d < (w.proxy r).data d) : Inv (fire w (.raise r d)) := by
  have hlt := h.trans_le ((hw.proxy r).data_le d)
  obtain ⟨hs, hat, hhead⟩ := (hw.proxy r).wqe d _ hlt
  have hcount : ((w.proxy r).wqe d ((w.proxy r).flagged d)).1 < R.count :=
    hhead.trans_le (((hw.proxy r).head_le d).trans (hw.proxy r).queued_le)
  simp only [fire]
  generalize (w.proxy r).wqe d ((w.proxy r).flagged d) = e at hs hat hcount
  obtain ⟨c, s⟩ := e
  simp only at hs hat hcount ⊢
  generalize hP' : { w.proxy r with
    flagged := Function.update (w.proxy r).flagged d ((w.proxy r).flagged d + 1) } = P'
  generalize hI' : (w.inbox (receiver r d)).raise d c s = I'
  have hflag : ∀ r' d', ((w.setProxy r P').proxy r').flagged d' =
      if r' = r ∧ d' = d then (w.proxy r).flagged d + 1 else (w.proxy r').flagged d' := by
    intro r' d'
    rw [setProxy_proxy]
    by_cases hr : r' = r
    · subst hr
      rw [if_pos rfl, ← hP']
      simp only [Function.update_apply, true_and]
    · rw [if_neg hr, if_neg (fun h => hr h.1)]
  have hmono : ∀ r' d', (w.proxy r').flagged d' ≤ ((w.setProxy r P').proxy r').flagged d' := by
    intro r' d'
    rw [hflag]
    split
    · rename_i he
      rw [he.1, he.2]
      exact Nat.le_succ _
    · exact le_rfl
  have hrest : ∀ r', begun ((w.setProxy r P').proxy r') = begun (w.proxy r') ∧
      ((w.setProxy r P').proxy r').queued = (w.proxy r').queued ∧
      ((w.setProxy r P').proxy r').sendDone = (w.proxy r').sendDone ∧
      ((w.setProxy r P').proxy r').data = (w.proxy r').data := by
    intro r'
    rw [setProxy_proxy]
    split
    · subst_vars
      exact ⟨rfl, rfl, rfl, rfl⟩
    · exact ⟨rfl, rfl, rfl, rfl⟩
  have hrecv : ∀ r', (((w.setProxy r P').setInbox (receiver r d) I').inbox r').recv =
      (w.inbox r').recv := by
    intro r'
    rw [setInbox_inbox]
    split
    · subst_vars
      rfl
    · rfl
  have hself : ∀ r' π d' s', (((w.setProxy r P').setInbox (receiver r d) I').inbox
    r').rflag π d' s' = if r' = receiver r d ∧ π = parity c ∧ d' = d ∧ s' = s then seq c
      else (w.inbox r').rflag π d' s' := by
    intro r' π d' s'
    rw [setInbox_inbox]
    by_cases hr : r' = receiver r d
    · subst hr
      rw [if_pos rfl, ← hI']
      simp only [Inbox.raise, true_and]
    · rw [if_neg hr, if_neg (fun h => hr h.1)]
      rfl
  refine ⟨hw.kernel, hw.slots, fun r' => ?_, fun r' => ?_, ?_,
    fun r' d' c' s' s'' h1 h2 h3 h4 => ?_,
    fun r' c' u d' s' h1 h2 h3 => ?_, fun r' b u k k' d' s' h1 h2 h3 => ?_, ?_,
    fun r' π d' s' hne => ?_, fun r' d' c' s' hs' hlt' => ?_, ?_⟩
  · rw [setInbox_proxy, setProxy_proxy]
    split
    · rw [← hP']
      exact proxyInv_raise (hw.proxy r) h
    · exact hw.proxy r'
  · simpa only [setInbox_proxy, setInbox_gpu, setProxy_gpu, (hrest r').2.1] using hw.launched r'
  · simpa only [setInbox_proxy, setInbox_gpu, setProxy_gpu, (hrest _).1] using hw.staged
  · rw [setInbox_proxy, (hrest r').1] at h4
    exact (hw.relayed r' d' c' s' s'' h1 h2 h3 h4).trans_le (hmono _ _)
  · exact (hw.deps r' c' u d' s' h1 h2 h3).trans_le (hmono _ _)
  · exact (hw.waited r' b u k k' d' s' h1 h2 h3).trans_le (hmono _ _)
  · simpa only [setInbox_proxy, setInbox_gpu, setProxy_gpu, (hrest _).2.2.1] using hw.freed
  · rw [hself] at hne ⊢
    split at hne
    · rename_i he
      obtain ⟨rfl, rfl, rfl, rfl⟩ := he
      rw [if_pos ⟨rfl, rfl, rfl, rfl⟩]
      refine ⟨c, hcount, hs, rfl, rfl, ?_⟩
      rw [setInbox_proxy, sender_receiver, hflag, if_pos ⟨rfl, rfl⟩, hat]
      exact Nat.lt_succ_self _
    · rename_i he
      rw [if_neg he]
      obtain ⟨c', h1, h2, h3, h4, h5⟩ := hw.rflag r' π d' s' hne
      exact ⟨c', h1, h2, h3, h4, h5.trans_le (hmono _ _)⟩
  · rw [hself]
    rw [setInbox_proxy, hflag] at hlt'
    -- the flag just raised, or an older one, which may be overwritten by it
    by_cases hnew : r' = receiver r d ∧ d' = d ∧ c' = c ∧ s' = s
    · obtain ⟨rfl, rfl, rfl, rfl⟩ := hnew
      exact Or.inl (if_pos ⟨rfl, rfl, rfl, rfl⟩)
    have hold : R.stepAt d' c' s' < (w.proxy (sender r' d')).flagged d' := by
      split at hlt'
      · rename_i he
        obtain ⟨he, rfl⟩ := he
        rw [he]
        refine lt_of_le_of_ne (Nat.lt_succ_iff.mp hlt') fun heq => hnew ?_
        rw [← hat] at heq
        obtain ⟨rfl, rfl⟩ := stepAt_inj hs' hs heq
        exact ⟨by rw [← he, receiver_sender], rfl, rfl, rfl⟩
      · exact hlt'
    by_cases hover : r' = receiver r d ∧ parity c' = parity c ∧ d' = d ∧ s' = s
    · obtain ⟨rfl, hpar, rfl, rfl⟩ := hover
      right
      rw [sender_receiver, ← hat, stepAt_lt hs' hs] at hold
      refine ⟨c, by omega, hpar.symm, hs, ?_⟩
      rw [setInbox_proxy, sender_receiver, hflag, if_pos ⟨rfl, rfl⟩, hat]
      exact Nat.lt_succ_self _
    · rw [if_neg hover]
      refine (hw.raised r' d' c' s' hs' hold).imp id ?_
      rintro ⟨c'', hc, hp, hs'', hd⟩
      exact ⟨c'', hc, hp, hs'', hd.trans_le (hmono _ _)⟩
  · simpa only [setInbox_proxy, hrecv, (hrest _).2.2.2] using hw.landed

/-- **Every event keeps the invariant.** -/
theorem inv_step (w : World R) (e : Event R) (hw : Inv w) : Inv (step w e) := by
  unfold step
  split
  swap
  · exact hw
  rename_i h
  cases e with
  | enqueue r => exact inv_enqueue hw h.1 h.2.1 h.2.2
  | launch r => exact inv_launch hw h
  | fetch r b => exact inv_fetch hw h.1 h.2
  | pass r b u k => exact inv_pass hw h.1 h.2
  | copy r b u => exact inv_copy hw h
  | publish r b u => exact inv_publish hw h
  | retire r => exact inv_retire hw h.1 h.2
  | take r d => exact inv_take hw h.1 h.2.1 h.2.2
  | leave r d => exact inv_leave hw h.1 h.2.1 h.2.2
  | begin r d => exact inv_begin hw h.1 h.2.1 h.2.2.1 h.2.2.2
  | post r d => exact inv_post hw h.1 h.2
  | drain r d => exact inv_drain hw h
  | land r d => exact inv_land hw h.1 h.2
  | raise r d => exact inv_raise hw h

end Frames

/-- **The invariant holds after every run.** -/
theorem inv_after (h : List (Event R)) : Inv (after R h) := invariant inv_init inv_step h

/-! ## How far apart the ranks can be

These are consequences of the invariant at one moment, with no further induction over the run.
-/

section Distance

variable {w : World R}

theorem flagged_le_posted (hw : Inv w) (r : Rank) (d : Dir) :
    (w.proxy r).flagged d ≤ (w.proxy r).posted d :=
  ((hw.proxy r).flagged_le d).trans ((hw.proxy r).data_le d)

/-- A staged step that is posted was staged whole by its own kernel. -/
theorem finished_of_posted (hw : Inv w) {r : Rank} {d : Dir} {c j : Nat}
    (hj : j < (R.calls c).staged d) (h : R.stepAt d c j < begun (w.proxy r) d) {p u : Nat}
    (hp : PartOf R d (R.stageAt d c j) p c u) : phase (w.gpu r) c u = 3 :=
  (hw.slots r).full d _ p c u hp (hw.staged r d c j hj h)

/-- **Who has posted a step of a call has come to that call's kernel.** -/
theorem kernel_ge_of_posted (hw : Inv w) {r : Rank} {d : Dir} {c s : Nat}
    (h : R.stepAt d c s < (w.proxy r).posted d) :
    c ≤ (w.gpu r).kernel := by
  have h0 : R.stepAt d c 0 < begun (w.proxy r) d := by
    have := posted_le_begun (P := w.proxy r) d
    unfold Ring.stepAt place at *
    omega
  obtain ⟨u, hu⟩ := exists_partOf (R := R) (staged_pos (g := R.calls c) d) R.parts_pos
  refine kernel_ge_of_phase (u := u) ?_
  rw [finished_of_posted hw (staged_pos d) h0 hu]
  omega

/-- The unit that is part 0 of an item. -/
theorem deps_unit {c i : Nat} (hi : i < (R.calls c).items) {it : Item ItemKind}
    (hit : itemAt (R.calls c) i = some it) :
    i * R.parts < R.units c ∧ R.deps c (i * R.parts) = itemDeps (R.calls c) it.kind it.index := by
  refine ⟨Nat.mul_lt_mul_of_pos_right hi R.parts_pos, ?_⟩
  unfold Ring.deps Ring.item
  rw [Nat.mul_div_cancel _ R.parts_pos, hit]

/-- **A rank that is done with a call got every chunk of it.** -/
theorem flagged_of_retired (hw : Inv w) {r : Rank} {d : Dir} {c s : Nat}
    (hc : c < (w.gpu r).kernel) (hs : s < (R.calls c).steps d) :
    R.stepAt d c s < (w.proxy (sender r d)).flagged d := by
  obtain ⟨i, hi, it, hit, hd⟩ := incoming_consumed hs
  obtain ⟨hu, hdeps⟩ := deps_unit hi hit
  refine hw.deps r c _ d s hu (by rw [hdeps]; exact hd) ?_
  rw [phase_of_lt hc]
  omega

/-- What a unit that stages waits for. -/
theorem deps_of_stageOf {c u : Nat} {d : Dir} {j : Nat} (hu : u < R.units c)
    (h : R.stageOf c u = some (d, j)) : R.deps c u = stageDeps (R.calls c) d j := by
  obtain ⟨-, it, hit, hd, rfl, -⟩ := stageOf_spec hu h
  unfold Ring.deps Ring.item
  rw [hit]
  cases hk : it.kind <;> rw [hk] at hd <;>
    simp only [stageDir, reduceCtorEq, Option.some.injEq] at hd <;> subst hd <;>
    simp only [hk, itemDeps]

/-- What a posted step consumes had come in. -/
theorem dep_flagged (hw : Inv w) {r : Rank} {d : Dir} {c s s' : Nat}
    (hs : s < (R.calls c).steps d) (hdep : (sendStep (R.calls c) d s).dep = some s')
    (h : R.stepAt d c s < (w.proxy r).posted d) :
    R.stepAt d c s' < (w.proxy (sender r d)).flagged d := by
  have hb := h.trans_le (posted_le_begun (P := w.proxy r) d)
  rcases Nat.lt_or_ge s ((R.calls c).staged d) with hst | hst
  · obtain ⟨u, hu⟩ := exists_partOf (R := R) hst R.parts_pos
    have hphase := finished_of_posted hw hst hb hu
    obtain ⟨hlt, -, j, hj, hgi⟩ := hu
    obtain ⟨hjs, -⟩ := stageOf_spec hlt hj
    obtain ⟨-, rfl⟩ := stageAt_inj hjs hst hgi
    refine hw.deps r c u d s' hlt ?_ (by rw [hphase]; omega)
    rw [deps_of_stageOf hlt hj]
    exact (mem_stageDeps hst).mpr ⟨rfl, hdep⟩
  · exact hw.relayed r d c s s' hst hs hdep hb

/-- **A rank that is done with a call knows every rank in that call or past it.** Its neighbours
sent it chunks of their own; the chunk it got of the rank across was handed on by a neighbour. -/
theorem kernels_close (hw : Inv w) {r : Rank} {c : Nat} (hc : c < (w.gpu r).kernel) (r' : Rank) :
    c ≤ (w.gpu r').kernel := by
  have near : ∀ d, c ≤ (w.gpu (sender r d)).kernel := fun d =>
    kernel_ge_of_posted hw
      ((flagged_of_retired hw hc (steps_pos d)).trans_le (flagged_le_posted hw _ d))
  have across : c ≤ (w.gpu (sender (sender r .bwd) .bwd)).kernel := by
    obtain ⟨s, s', hs, hdep⟩ := transit (g := R.calls c)
    have h := (flagged_of_retired hw hc hs).trans_le (flagged_le_posted hw _ .bwd)
    have h' := (dep_flagged hw hs hdep h).trans_le (flagged_le_posted hw _ .bwd)
    exact kernel_ge_of_posted hw h'
  have hall : ∀ r r' : Rank, r' = r ∨ r' = sender r .fwd ∨ r' = sender r .bwd ∨
      r' = sender (sender r .bwd) .bwd := by decide
  rcases hall r r' with rfl | rfl | rfl | rfl
  · exact hc.le
  · exact near .fwd
  · exact near .bwd
  · exact across

/-- **Who sends for a later call of the same parity knows every rank past this one.** -/
theorem kernels_of_posted (hw : Inv w) {r : Rank} {d : Dir} {c c' s : Nat} (hc : c < c')
    (hp : parity c' = parity c)
    (h : R.stepAt d c' s < (w.proxy r).posted d) (r' : Rank) : c < (w.gpu r').kernel :=
  kernels_close hw ((parity_gap hc hp).trans_le (kernel_ge_of_posted hw h)) r'

end Distance

end Ringside.PrefillRing.Protocol

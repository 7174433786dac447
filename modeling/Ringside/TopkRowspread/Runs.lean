import Mathlib.Logic.Relation
import Ringside.TopkRowspread.Safety

/-!
# Runs of the persistent top-k kernel

Whatever the order of the steps, a launch runs until every block is through its rows: the blocks of
a group have the same barriers before them, so one that is furthest behind can go on, and every step
leaves less to do. The short rows can be moved about: they are one block's alone, so two schedules
leave the same outputs. None of this asks whether the histograms are right, so it holds of all runs,
and of the quiet ones among themselves.

* `cost` bounds what is left of a row, of a block and of the grid: every access, every arrival and
  every store of a row is counted, and a row more than all of one.
* `Follows` sets a state of one schedule beside a state of another: as far on the radix rows, and
  with the outputs that the short rows have or will have. A step is followed by the short rows that
  stand before it in the other schedule, then by itself.
* The code of a short row may leave any of several outputs (`short`), the same ones wherever it
  stands. That is why the comparison is of sets of outputs.

## Results

* `exists_step`: no reachable state is stuck.
* `run_bound`, `exists_finished`: every run is bounded, and can be brought to its end.
* `quiet_of_single`: a launch whose groups are single blocks is quiet.
* `drain`, `Follows.step`: the short rows before a block, and a step of the other schedule.
* `same_outputs`: what one schedule can leave, any other one can.
-/

namespace Ringside.TopkRowspread

open Barrier

variable {p : Params} {short : Nat → (Nat → Int) → Prop} {S : p.Schedule} {out₀ : Nat → Nat → Int}
  {quiet : Prop}

/-! ## Progress

A step is quiet unless it goes on from a barrier. So a run can always go on quietly until all that
is left is going on: then no block that waits has an access left, and that step is quiet too.
-/

/-- A step that goes on from no barrier is quiet. -/
theorem quiet_of_phase {t t' : State} (h : ∀ c < p.totalCtas, (t'.cta c).phase = (t.cta c).phase) :
    Quiet p t t' := fun c hc _ _ _ hne => absurd (h c hc) hne

/-- So is a step from a state in which no access is left. -/
theorem quiet_of_left {t t' : State} (h : ∀ d < p.totalCtas, (t.cta d).pc.left = []) :
    Quiet p t t' := fun _ _ d hd _ _ _ => h d hd

/-- A step of blocks that are as far is as quiet. -/
theorem Quiet.congr {t t' u u' : State} (h : Quiet p t t')
    (hu : ∀ c < p.totalCtas, (u.cta c).pc = (t.cta c).pc ∧ (u.cta c).phase = (t.cta c).phase)
    (hu' : ∀ c < p.totalCtas, (u'.cta c).phase = (t'.cta c).phase) : Quiet p u u' := by
  intro c hc d hd hgroup hphase hsame
  rw [hu' c hc, (hu c hc).2] at hphase
  rw [(hu d hd).2, (hu c hc).2] at hsame
  rw [(hu d hd).1]
  exact h c hc d hd hgroup hphase hsame

/-- A block that is not through can step, without going on from a barrier, unless it waits with no
access left. -/
theorem exists_ctaStep (hshort : ∀ r, ∃ o, short r o) {i : Nat} {x : Cta} (s : Group)
    (out : Nat → Nat → Int) (hfree : x.pc.waits = 0 ∨ x.pc.left ≠ [])
    (hmore : ¬(x.todo = [] ∧ x.pc = .idle)) :
    ∃ l, CtaStep p short i ⟨x, s, out⟩ l ∧ l.cta.phase = x.phase := by
  obtain ⟨todo, pc, phase, iter⟩ := x
  cases pc with
  | idle =>
    cases todo with
    | nil => exact absurd ⟨rfl, rfl⟩ hmore
    | cons t todo =>
      cases t with
      | short r =>
        obtain ⟨o, ho⟩ := hshort r
        exact ⟨_, .short ho, rfl⟩
      | radix r => exact ⟨_, .enter, rfl⟩
  | entered => exact hfree.elim nofun fun h => absurd rfl h
  | reset => exact ⟨_, .reset, rfl⟩
  | round r round pfx rem adds clears a =>
    cases adds with
    | cons bin adds => exact ⟨_, .add List.mem_cons_self, rfl⟩
    | nil =>
      cases clears with
      | cons bin clears => exact ⟨_, .clear List.mem_cons_self, rfl⟩
      | nil =>
        cases a with
        | false => exact ⟨_, .arriveRound nofun, rfl⟩
        | true => exact hfree.elim nofun fun h => absurd rfl h
  | scan r round pfx rem seen unread =>
    cases unread with
    | cons bin unread => exact ⟨_, .read List.mem_cons_self, rfl⟩
    | nil =>
      by_cases hlt : round < 3
      · exact ⟨_, .select hlt, rfl⟩
      · exact ⟨_, .selectLast hlt, rfl⟩
  | claim => exact ⟨_, .claim, rfl⟩
  | gt r pivot base pos left a =>
    cases left with
    | cons i left => exact ⟨_, .storeGt List.mem_cons_self, rfl⟩
    | nil =>
      cases a with
      | false => exact ⟨_, .arriveGt nofun, rfl⟩
      | true => exact hfree.elim nofun fun h => absurd rfl h
  | ties r pivot left =>
    cases left with
    | cons i left => exact ⟨_, .tie List.mem_cons_self, rfl⟩
    | nil => exact ⟨_, .done, rfl⟩

/-- A block that waits and is released can step. -/
theorem exists_ctaStep_released {i : Nat} {x : Cta} {s : Group} (out : Nat → Nat → Int)
    (hwait : x.pc.waits = 1) (hleft : x.pc.left = []) (hrel : Released p x.phase s.arrival) :
    ∃ l, CtaStep p short i ⟨x, s, out⟩ l := by
  obtain ⟨todo, pc, phase, iter⟩ := x
  cases pc with
  | entered => exact ⟨_, .passEntered hrel⟩
  | round r round pfx rem adds clears a =>
    obtain ⟨rfl, rfl⟩ := List.append_eq_nil_iff.mp hleft
    cases a with
    | false => cases hwait
    | true => exact ⟨_, .passRounded hrel⟩
  | gt r pivot base pos left a =>
    cases a with
    | false => cases hwait
    | true =>
      cases left with
      | cons i left => exact ⟨_, .storeGt List.mem_cons_self⟩
      | nil => exact ⟨_, .passCollected hrel⟩
  | _ => cases hwait

theorem waits_le (pc : Pc) : pc.waits = 0 ∨ pc.waits = 1 := by
  cases pc with
  | round _ _ _ _ _ _ a | gt _ _ _ _ _ a => cases a <;> simp [Pc.waits]
  | _ => simp [Pc.waits]

/-- A block on a row has barriers before it, a block that is through has none. -/
theorem Placed.phase_lt {g : Nat} {x : Cta} (h : Placed p g x) (hwait : x.pc.waits = 1) :
    x.phase < 6 * (p.radixRows g).length := by
  obtain ⟨hphase, hrows, hbounded⟩ := h
  unfold OnRows at hrows
  obtain ⟨todo, pc, phase, iter⟩ := x
  cases pc <;> simp only [Pc.waits, zero_ne_one] at hwait <;>
    simp only [Pc.offset, Pc.row?, Pc.Bounded] at hphase hrows hbounded ⊢ <;>
    have := (List.getElem?_eq_some_iff.mp hrows.1).1 <;> omega

theorem Placed.phase_eq {g : Nat} {x : Cta} (h : Placed p g x) (htodo : x.todo = [])
    (hpc : x.pc = .idle) :
    x.phase = 6 * (p.radixRows g).length ∧ x.arrived = 6 * (p.radixRows g).length := by
  obtain ⟨hphase, hrows, -⟩ := h
  unfold OnRows at hrows
  rw [hpc] at hphase hrows
  rw [htodo] at hrows
  have hle := List.drop_eq_nil_iff.mp hrows.2.symm
  have heq : x.iter = (p.radixRows g).length := le_antisymm hrows.1 hle
  unfold Cta.arrived
  rw [hpc, hphase, heq]
  exact ⟨rfl, rfl⟩

/-- **No reachable state is stuck**, and quiet runs can go on quietly. -/
theorem exists_step (hshort : ∀ r, ∃ o, short r o) {t : State}
    (h : Reachable p short quiet S out₀ t) (hmore : ¬Finished p t) :
    ∃ t', Step p short t t' ∧ Quiet p t t' := by
  have hinv := reachable_barriers h
  unfold Finished at hmore
  push Not at hmore
  obtain ⟨c, hc, hmore⟩ := hmore
  by_cases hfree : ∃ d < p.totalCtas, ((t.cta d).pc.waits = 0 ∨ (t.cta d).pc.left ≠ []) ∧
      ¬((t.cta d).todo = [] ∧ (t.cta d).pc = .idle)
  · obtain ⟨d, hd, hwait, hd'⟩ := hfree
    obtain ⟨l, hl, hphase⟩ := exists_ctaStep hshort (t.group (d / p.ctasPerGroup)) t.out hwait hd'
    refine ⟨_, .block d hd hl, quiet_of_phase fun c _ => ?_⟩
    show (Function.update t.cta d l.cta c).phase = _
    rcases eq_or_ne c d with rfl | hne
    · rw [Function.update_self, hphase]
    · rw [Function.update_of_ne hne]
  · -- every block waits with no access left or is through: one of the group can go on
    have hg := Params.group_lt hc
    have hgroup := hinv _ hg
    have hblock : ∀ d < p.totalCtas, (t.cta d).pc.left = [] ∧
        ((t.cta d).pc.waits = 1 ∨ ((t.cta d).todo = [] ∧ (t.cta d).pc = .idle)) := fun d hd => by
      by_cases hthrough : (t.cta d).todo = [] ∧ (t.cta d).pc = .idle
      · exact ⟨by rw [hthrough.2]; rfl, Or.inr hthrough⟩
      · have hnot : ¬((t.cta d).pc.waits = 0 ∨ (t.cta d).pc.left ≠ []) := fun h' =>
          hfree ⟨d, hd, h', hthrough⟩
        exact ⟨not_not.mp (not_or.mp hnot).2,
          Or.inl ((waits_le _).resolve_left (not_or.mp hnot).1)⟩
    have hends : ∀ j < p.ctasPerGroup,
        ((Cta.arrived ∘ t.blocks p (c / p.ctasPerGroup)) j =
            (Cta.phase ∘ t.blocks p (c / p.ctasPerGroup)) j + 1 ∧
          (Cta.phase ∘ t.blocks p (c / p.ctasPerGroup)) j <
            6 * (p.radixRows (c / p.ctasPerGroup)).length) ∨
        ((Cta.arrived ∘ t.blocks p (c / p.ctasPerGroup)) j =
            6 * (p.radixRows (c / p.ctasPerGroup)).length ∧
          (Cta.phase ∘ t.blocks p (c / p.ctasPerGroup)) j =
            6 * (p.radixRows (c / p.ctasPerGroup)).length) := by
      intro j hj
      have hplaced := hgroup.placed j hj
      rcases (hblock _ (block_lt hg hj)).2 with hwait | ⟨htodo, hpc⟩
      · exact Or.inl ⟨congrArg (Cta.phase _ + ·) hwait, hplaced.phase_lt hwait⟩
      · exact Or.inr ((hplaced.phase_eq htodo hpc).symm)
    have hi : c % p.ctasPerGroup < p.ctasPerGroup := Nat.mod_lt _ p.ctas_pos
    have hwait : (t.cta c).pc.waits = 1 := (hblock c hc).2.resolve_right fun h' => hmore h'.1 h'.2
    have hlt : (Cta.phase ∘ t.blocks p (c / p.ctasPerGroup)) (c % p.ctasPerGroup) <
        6 * (p.radixRows (c / p.ctasPerGroup)).length := by
      refine (hgroup.placed _ hi).phase_lt ?_
      rwa [blocks_self]
    obtain ⟨j, hj, hjwait, hjcount⟩ := exists_pass hends hi hlt
    have hrel : Released p (t.blocks p (c / p.ctasPerGroup) j).phase
        (t.group (c / p.ctasPerGroup)).arrival := by
      unfold Released
      rw [hgroup.arrival]
      exact hjcount
    have hjw : (t.blocks p (c / p.ctasPerGroup) j).pc.waits = 1 := by
      simp only [Function.comp_apply, Cta.arrived] at hjwait
      omega
    have hjleft := (hblock _ (block_lt hg hj)).1
    obtain ⟨l, hl⟩ : ∃ l, CtaStep p short j ⟨_, _, t.out⟩ l :=
      exists_ctaStep_released t.out hjw hjleft hrel
    refine ⟨_, .block (c / p.ctasPerGroup * p.ctasPerGroup + j) (l := l) (block_lt hg hj) ?_,
      quiet_of_left fun d hd => (hblock d hd).1⟩
    rw [block_div hj, block_mod hj]
    exact hl

/-! ## Every run is bounded

Each step of a block takes something from what is left of its rows; the cost of a row bounds its
steps.
-/

section Cost

/-- More than any list of accesses that a block starts with. -/
def span (p : Params) : Nat := 2 * RADIX + p.chunkSize + 1

/-- What is left of a row. -/
def Pc.cost (K : Nat) : Pc → Nat
  | .idle => 0
  | .ties _ _ left => K + left.length
  | .gt _ _ _ _ left a => (if a then 2 else 3) * K + left.length
  | .claim _ _ => 4 * K
  | .scan _ n _ _ _ unread => (5 + 3 * (3 - n)) * K + unread.length
  | .round _ n _ _ adds clears a =>
    ((if a then 6 else 7) + 3 * (3 - n)) * K + adds.length + clears.length
  | .reset _ => 17 * K
  | .entered _ => 18 * K

def Task.cost (K : Nat) : Task → Nat
  | .short _ => 1
  | .radix _ => 19 * K

/-- What is left to a block. -/
def Cta.cost (p : Params) (x : Cta) : Nat := (x.todo.map (Task.cost (span p))).sum +
    x.pc.cost (span p)

/-- What is left to the grid. -/
def State.cost (p : Params) (t : State) : Nat := ∑ c ∈ Finset.range p.totalCtas, (t.cta c).cost p

theorem length_chunk (cta r : Nat) : (p.chunk cta r).length ≤ p.chunkSize := by
  unfold Params.chunk
  simp only [List.length_range']
  omega

theorem cost_startRound (i r n pfx rem : Nat) :
    (startRound p i r n pfx rem).cost (span p) < (8 + 3 * (3 - n)) * span p := by
  have hadds := List.length_filter_le (fun bin => 0 < p.localHist i r n pfx bin) (List.range RADIX)
  have hclears : (if i = 0 then List.range RADIX else []).length ≤ RADIX := by
    split_ifs <;> simp
  rw [List.length_range] at hadds
  have hspan : RADIX + RADIX < span p := by
    unfold span
    omega
  have hmul : (8 + 3 * (3 - n)) * span p = (7 + 3 * (3 - n)) * span p + span p := by ring
  simp only [startRound, Pc.cost, Bool.false_eq_true, if_false]
  omega

/-- **A step leaves less to do.** -/
theorem CtaStep.cost_lt {i : Nat} {x y : Cta} {s s' : Group} {out out' : Nat → Nat → Int}
    (h : CtaStep p short i ⟨x, s, out⟩ ⟨y, s', out'⟩) : y.cost p < x.cost p := by
  have hspan : 2 * RADIX + p.chunkSize < span p := Nat.lt_succ_self _
  have hR : 0 < RADIX := by decide
  cases h with
  | short =>
    simp only [Cta.cost, List.map_cons, List.sum_cons, Task.cost]
    omega
  | enter =>
    simp only [Cta.cost, List.map_cons, List.sum_cons, Task.cost, Pc.cost]
    omega
  | @passEntered r =>
    have hstart := cost_startRound (p := p) i r 0 0 p.topK
    have hcost : (if i = 0 then Pc.reset r else startRound p i r 0 0 p.topK).cost (span p) <
      18 * span p := by
      split_ifs
      · simp only [Pc.cost]
        omega
      · omega
    exact Nat.add_lt_add_left hcost _
  | @reset r =>
    have hstart := cost_startRound (p := p) i r 0 0 p.topK
    exact Nat.add_lt_add_left hstart _
  | add hmem | clear hmem | read hmem | storeGt hmem | tie hmem =>
    have hpos := List.length_pos_of_mem hmem
    simp only [Cta.cost, Pc.cost, List.length_erase_of_mem hmem]
    omega
  | @arriveRound r n =>
    have hmul : (7 + 3 * (3 - n)) * span p = (6 + 3 * (3 - n)) * span p + span p := by ring
    simp only [Cta.cost, Pc.cost, if_true, Bool.false_eq_true, if_false]
    omega
  | @passRounded r n =>
    have hmul : (6 + 3 * (3 - n)) * span p = (5 + 3 * (3 - n)) * span p + span p := by ring
    simp only [Cta.cost, Pc.cost, List.length_range, if_true]
    omega
  | @select r n pfx rem seen todo phase iter s out hlt =>
    refine Nat.add_lt_add_left ((cost_startRound i r (n + 1) _ _).trans_le ?_) _
    rw [show 8 + 3 * (3 - (n + 1)) = 5 + 3 * (3 - n) by omega]
    exact Nat.le_add_right _ _
  | @selectLast r n =>
    have hmul : 5 * span p ≤ (5 + 3 * (3 - n)) * span p :=
      Nat.mul_le_mul_right _ (Nat.le_add_right _ _)
    simp only [Cta.cost, Pc.cost]
    omega
  | @claim r pivot =>
    have hlen := (List.length_filter_le (pivot < p.key r ·) (p.chunk i r)).trans (length_chunk i r)
    simp only [Cta.cost, Pc.cost, Bool.false_eq_true, if_false]
    omega
  | arriveGt =>
    simp only [Cta.cost, Pc.cost, if_true, Bool.false_eq_true, if_false]
    omega
  | @passCollected r pivot =>
    have hlen := (List.length_filter_le (p.key r · = pivot) (p.chunk i r)).trans (length_chunk i r)
    simp only [Cta.cost, Pc.cost, if_true]
    omega
  | done =>
    simp only [Cta.cost, Pc.cost]
    omega

theorem Step.cost_lt {t t' : State} (h : Step p short t t') : t'.cost p < t.cost p := by
  obtain ⟨c, hc, hblock⟩ := h
  rename_i l
  have hlt : l.cta.cost p < (t.cta c).cost p :=
    CtaStep.cost_lt (show CtaStep p short _ ⟨_, _, _⟩ ⟨_, _, l.out⟩ from hblock)
  refine Finset.sum_lt_sum (fun d _ => ?_) ⟨c, Finset.mem_range.mpr hc, ?_⟩
  · show (Function.update t.cta c l.cta d).cost p ≤ _
    rcases eq_or_ne d c with rfl | hne
    · rw [Function.update_self]
      exact hlt.le
    · rw [Function.update_of_ne hne]
  · show (Function.update t.cta c l.cta c).cost p < _
    rwa [Function.update_self]

/-- **Every run can be brought to its end**, with every row done. -/
theorem exists_finished (hshort : ∀ r, ∃ o, short r o) {t : State}
    (h : Reachable p short quiet S out₀ t) :
    ∃ t', Reachable p short quiet S out₀ t' ∧ Relation.ReflTransGen (Step p short) t t' ∧
      Finished p t' := by
  generalize hn : t.cost p = n
  induction n using Nat.strong_induction_on generalizing t with
  | _ n ih =>
    by_cases hfin : Finished p t
    · exact ⟨t, h, .refl, hfin⟩
    · obtain ⟨t₁, hstep, hquiet⟩ := exists_step hshort h hfin
      obtain ⟨t', hreach, hrun, hfin'⟩ :=
        ih _ (hn ▸ hstep.cost_lt) (h.step hstep fun _ => hquiet) rfl
      exact ⟨t', hreach, .head hstep hrun, hfin'⟩

end Cost

/-! ## What schedules leave

Two schedules give the radix rows to the same groups in the same order and differ in which block
does which short row, and when. A run of one is followed in the other step by step: before a block's
step on a radix row it does the short rows that stand before it, with the outputs they have in the
first run.
-/

section Outputs

/-- The rows before a block are rows of its list. -/
theorem todo_suffix {t : State} (h : Reachable p short quiet S out₀ t) (c : Nat) :
    (t.cta c).todo <:+ S.tasks c := by
  induction h with
  | launch => exact List.suffix_rfl
  | @step t t' _ hstep hquiet ih =>
    obtain ⟨d, hd, hblock⟩ := hstep
    rename_i l
    show (Function.update t.cta d l.cta c).todo <:+ _
    rcases eq_or_ne c d with rfl | hne
    · rw [Function.update_self]
      refine List.IsSuffix.trans ?_ ih
      generalize t.cta c = x at hblock
      cases hblock with
      | short | enter => exact List.suffix_cons _ _
      | _ => exact List.suffix_rfl
    · rwa [Function.update_of_ne hne]

theorem short_mem_todo {t : State} (h : Reachable p short quiet S out₀ t) {c r : Nat}
    (hmem : Task.short r ∈ (t.cta c).todo) : r < p.numRows ∧ p.Short r :=
  S.short_mem ((todo_suffix h c).mem hmem)

/-- A block that is on a row is on a radix row. -/
theorem not_short_of_row {t : State} (h : Reachable p short quiet S out₀ t) {c r : Nat}
    (hc : c < p.totalCtas) (hrow : (t.cta c).pc.row? = some r) : ¬p.Short r := by
  have hg := Params.group_lt hc
  have hplaced := (reachable_barriers h _ hg).placed _ (Nat.mod_lt c p.ctas_pos)
  rw [blocks_self] at hplaced
  have hrows := hplaced.rows
  unfold OnRows at hrows
  rw [hrow] at hrows
  exact ((Params.mem_radixRows hg).mp (List.mem_of_getElem? hrows.1)).2.1

/-- **A step on a radix row** depends on nothing but the place of the block and its group, and
stores to that row alone. -/
theorem CtaStep.frame {i : Nat} {x y : Cta} {s s' : Group} {out out' : Nat → Nat → Int}
    (h : CtaStep p short i ⟨x, s, out⟩ ⟨y, s', out'⟩) (hpc : x.pc ≠ .idle) (todo : List Task)
    (out₂ : Nat → Nat → Int) :
    y.todo = x.todo ∧ ∃ out₂',
      CtaStep p short i ⟨{ x with todo := todo }, s, out₂⟩ ⟨{ y with todo := todo }, s', out₂'⟩ ∧
      (∀ r, out₂ r = out r → out₂' r = out' r) ∧
      ∀ r, x.pc.row? ≠ some r → out₂' r = out₂ r ∧ out' r = out r := by
  have hstore : ∀ (r slot : Nat) (v : Int),
      (∀ r', out₂ r' = out r' → store out₂ r slot v r' = store out r slot v r') ∧
        ∀ r', some r ≠ some r' → store out₂ r slot v r' = out₂ r' ∧
        store out r slot v r' = out r' := by
    intro r slot v
    unfold store
    refine ⟨fun r' heq => ?_, fun r' hne => ?_⟩
    · rcases eq_or_ne r' r with rfl | hne
      · rw [Function.update_self, Function.update_self, heq]
      · rw [Function.update_of_ne hne, Function.update_of_ne hne, heq]
    · have hne' : r' ≠ r := fun h' => hne (congrArg some h'.symm)
      rw [Function.update_of_ne hne', Function.update_of_ne hne']
      exact ⟨rfl, rfl⟩
  have hsame : (∀ r, out₂ r = out r → out₂ r = out r) ∧
      ∀ r, x.pc.row? ≠ some r → out₂ r = out₂ r ∧ out r = out r :=
      ⟨fun _ h => h, fun _ _ => ⟨rfl, rfl⟩⟩
  cases h with
  | short => exact absurd rfl hpc
  | enter => exact absurd rfl hpc
  | passEntered hrel => exact ⟨rfl, out₂, .passEntered hrel, hsame⟩
  | reset => exact ⟨rfl, out₂, .reset, hsame⟩
  | add hmem => exact ⟨rfl, out₂, .add hmem, hsame⟩
  | clear hmem => exact ⟨rfl, out₂, .clear hmem, hsame⟩
  | arriveRound hown => exact ⟨rfl, out₂, .arriveRound hown, hsame⟩
  | passRounded hrel => exact ⟨rfl, out₂, .passRounded hrel, hsame⟩
  | read hmem => exact ⟨rfl, out₂, .read hmem, hsame⟩
  | select hlt => exact ⟨rfl, out₂, .select hlt, hsame⟩
  | selectLast hlast => exact ⟨rfl, out₂, .selectLast hlast, hsame⟩
  | claim => exact ⟨rfl, out₂, .claim, hsame⟩
  | storeGt hmem => exact ⟨rfl, _, .storeGt hmem, hstore _ _ _⟩
  | arriveGt hown => exact ⟨rfl, out₂, .arriveGt hown, hsame⟩
  | passCollected hrel => exact ⟨rfl, out₂, .passCollected hrel, hsame⟩
  | tie hmem =>
    refine ⟨rfl, _, .tie hmem, ?_⟩
    split_ifs
    · exact hstore _ _ _
    · exact hsame
  | done => exact ⟨rfl, out₂, .done, hsame⟩

/-- The short rows before the next radix row. -/
theorem split_todo {r : Nat} {rows : List Nat} : ∀ {todo : List Task},
    todo.filterMap Task.radix? = r :: rows →
    ∃ l rest, todo = List.map Task.short l ++ .radix r :: rest ∧ rest.filterMap Task.radix? = rows
  | [], h => by cases h
  | .short r' :: todo, h => by
    have htail : todo.filterMap Task.radix? = r :: rows := h
    obtain ⟨l, rest, rfl, hrest⟩ := split_todo htail
    exact ⟨r' :: l, rest, rfl, hrest⟩
  | .radix r' :: todo, h => by
    obtain ⟨rfl, htail⟩ := List.cons.inj h
    exact ⟨[], todo, rfl, htail⟩

/-- A block does the short row before it. -/
theorem reachable_short {t : State} (h : Reachable p short quiet S out₀ t) {c r : Nat}
    (hc : c < p.totalCtas) {rest : List Task} (hpc : (t.cta c).pc = .idle)
    (htodo : (t.cta c).todo = .short r :: rest) {o : Nat → Int} (ho : short r o) :
    Reachable p short quiet S out₀
      ⟨Function.update t.cta c { t.cta c with todo := rest }, t.group,
        Function.update t.out r o⟩ := by
  have hblock : CtaStep p short (c % p.ctasPerGroup) ⟨t.cta c, t.group (c / p.ctasPerGroup), t.out⟩
      ⟨{ t.cta c with todo := rest }, t.group (c / p.ctasPerGroup), Function.update t.out r o⟩ := by
    rw [show t.cta c = ⟨.short r :: rest, .idle, (t.cta c).phase, (t.cta c).iter⟩ by
      rw [← hpc, ← htodo]]
    exact .short ho
  have hnext := h.step (Step.block c hc hblock) fun _ => quiet_of_phase fun d _ => by
    rcases eq_or_ne d c with rfl | hne
    · simp only [Function.update_self]
    · simp only [Function.update_of_ne hne]
  simp only [Function.update_eq_self] at hnext
  exact hnext

/-- **A block does the short rows before it**, with any outputs that their code can leave. -/
theorem drain {O : Nat → Nat → Int} {c : Nat} (hc : c < p.totalCtas) {rest : List Task} :
    ∀ (l : List Nat) {t : State}, Reachable p short quiet S out₀ t → (t.cta c).pc = .idle →
      (t.cta c).todo = l.map .short ++ rest → (∀ r ∈ l, short r (O r)) →
      ∃ out, Reachable p short quiet S out₀ ⟨Function.update t.cta c { t.cta c with todo := rest },
      t.group, out⟩ ∧ (∀ r ∈ l, out r = O r) ∧ ∀ r ∉ l, out r = t.out r
  | [], t, h, _, htodo, _ => by
    refine ⟨t.out, ?_, fun r hr => absurd hr List.not_mem_nil, fun _ _ => rfl⟩
    have hself : { t.cta c with todo := rest } = t.cta c := by
      rw [← show (t.cta c).todo = rest from htodo]
    rw [hself, Function.update_eq_self]
    exact h
  | r :: l, t, h, hpc, htodo, hO => by
    have hnext : Reachable p short quiet S out₀
      ⟨Function.update t.cta c { t.cta c with todo := l.map .short ++ rest }, t.group,
        Function.update t.out r (O r)⟩ := reachable_short h hc hpc htodo (hO r List.mem_cons_self)
    obtain ⟨out, hreach, hin, hout⟩ := drain hc l hnext (by simp only [Function.update_self, hpc])
      (by simp only [Function.update_self]; rfl) fun r' hr' => hO r' (List.mem_cons_of_mem _ hr')
    simp only [Function.update_self, Function.update_idem] at hreach
    refine ⟨out, hreach, fun r' hr' => ?_, fun r' hr' => ?_⟩
    · by_cases hmem : r' ∈ l
      · exact hin r' hmem
      · obtain rfl := (List.mem_cons.mp hr').resolve_right hmem
        rw [hout r' hmem]
        exact Function.update_self _ _ _
    · obtain ⟨hne, hmem⟩ := not_or.mp (mt List.mem_cons.mpr hr')
      rw [hout r' hmem]
      exact Function.update_of_ne hne _ _

variable {B : p.Schedule} {O : Nat → Nat → Int}

/-- A state of another schedule that is as far on the radix rows, with the outputs `O` on the short
rows it has done. -/
structure Follows (B : p.Schedule) (O : Nat → Nat → Int) (t u : State) : Prop where
  group : u.group = t.group
  cta : ∀ c < p.totalCtas, (u.cta c).pc = (t.cta c).pc ∧ (u.cta c).phase = (t.cta c).phase ∧
    (u.cta c).iter = (t.cta c).iter ∧ (u.cta c).todo.filterMap Task.radix? =
    (t.cta c).todo.filterMap Task.radix?
  radix : ∀ r, ¬(r < p.numRows ∧ p.Short r) → u.out r = t.out r
  short : ∀ r < p.numRows, p.Short r → Task.short r ∈ (u.cta (B.owner r)).todo ∨ u.out r = O r

/-- The short rows before a block are done on the way. -/
theorem Follows.drain {t u : State} (h : Follows B O t u) (hu : Reachable p short quiet B out₀ u)
    (hO : ∀ r < p.numRows, p.Short r → short r (O r)) {c : Nat} (hc : c < p.totalCtas)
    (hpc : (t.cta c).pc = .idle) {l : List Nat} {rest : List Task}
    (htodo : (u.cta c).todo = l.map .short ++ rest) :
    ∃ u', Reachable p short quiet B out₀ u' ∧ Follows B O t u' ∧ (u'.cta c).todo = rest ∧
      ∀ d, d ≠ c → u'.cta d = u.cta d := by
  have hrows : ∀ r ∈ l, r < p.numRows ∧ p.Short r := fun r hr =>
    short_mem_todo hu (c := c)
      (by rw [htodo]; exact List.mem_append_left _ (List.mem_map_of_mem hr))
  obtain ⟨out, hreach, hin, hout⟩ := TopkRowspread.drain hc l hu ((h.cta c hc).1.trans hpc) htodo
    fun r hr => hO r (hrows r hr).1 (hrows r hr).2
  refine ⟨_, hreach, ⟨h.group, fun d hd => ?_, fun r hr => ?_, fun r hr hs => ?_⟩, ?_,
    fun d hd => ?_⟩
  · rcases eq_or_ne d c with rfl | hne
    · simp only [Function.update_self]
      obtain ⟨h1, h2, h3, h4⟩ := h.cta d hd
      refine ⟨h1, h2, h3, ?_⟩
      rw [← h4, htodo, List.filterMap_append, List.filterMap_map,
        show (Task.radix? ∘ Task.short) = fun _ => none from rfl, List.filterMap_none,
          List.nil_append]
    · simp only [Function.update_of_ne hne]
      exact h.cta d hd
  · show out r = _
    rw [hout r fun hmem => hr (hrows r hmem)]
    exact h.radix r hr
  · show Task.short r ∈ (Function.update u.cta c _ (B.owner r)).todo ∨ out r = O r
    by_cases hmem : r ∈ l
    · exact Or.inr (hin r hmem)
    · rw [hout r hmem]
      refine (h.short r hr hs).imp_left fun hr' => ?_
      rcases eq_or_ne (B.owner r) c with heq | hne
      · rw [heq, htodo] at hr'
        rw [heq, Function.update_self]
        refine (List.mem_append.mp hr').resolve_left fun h' => hmem ?_
        obtain ⟨r', hr', heq'⟩ := List.mem_map.mp h'
        rwa [Task.short.inj heq'] at hr'
      · rwa [Function.update_of_ne hne]
  · simp only [Function.update_self]
  · simp only [Function.update_of_ne hd]

/-- **A step is followed**: the short rows before the block first, then the step, unless it is a
short row. -/
theorem Follows.step {t t' u : State} (h : Follows B O t u) (ht : Reachable p short quiet S out₀ t)
    (hu : Reachable p short quiet B out₀ u) (hO : ∀ r < p.numRows, p.Short r → short r (O r))
    (hstep : Step p short t t') (hquiet : quiet → Quiet p t t') :
    ∃ u', Reachable p short quiet B out₀ u' ∧ Follows B O t' u' := by
  obtain ⟨c, hc, hblock⟩ := hstep
  rename_i l
  by_cases hpc : (t.cta c).pc = .idle
  · generalize hx : t.cta c = x at hblock hpc
    cases hblock with
    | @short r todo phase iter g out o ho =>
      have hr : r < p.numRows ∧ p.Short r := short_mem_todo ht (c := c)
        (by rw [hx]; exact List.mem_cons_self)
      refine ⟨u, hu, ?_, fun d hd => ?_, fun r' hr' => ?_, h.short⟩
      · simp only [Function.update_eq_self]
        exact h.group
      · have hcta := h.cta d hd
        show _ = (Function.update t.cta c _ d).pc ∧ _ = (Function.update t.cta c _ d).phase ∧
          _ = (Function.update t.cta c _ d).iter ∧
          _ = (Function.update t.cta c _ d).todo.filterMap _
        rcases eq_or_ne d c with rfl | hne
        · rw [hx] at hcta
          simp only [Function.update_self]
          exact hcta
        · simp only [Function.update_of_ne hne]
          exact hcta
      · rw [h.radix r' hr']
        refine (Function.update_of_ne ?_ _ _).symm
        rintro rfl
        exact hr' hr
    | @enter r todo phase iter g out =>
      have hcta := h.cta c hc
      rw [hx] at hcta
      obtain ⟨before, rest, htodo, hrest⟩ := split_todo (hcta.2.2.2.trans rfl)
      obtain ⟨u', hu', hfollows, hrest', hothers⟩ := h.drain hu hO hc (by rw [hx]) htodo
      have hcta' := hfollows.cta c hc
      rw [hx] at hcta'
      have hucta : u'.cta c = ⟨.radix r :: rest, .idle, phase, iter⟩ := by
        obtain ⟨h1, h2, h3, -⟩ := hcta'
        exact Cta.ext hrest' h1 h2 h3
      have hblock' : CtaStep p short (c % p.ctasPerGroup)
        ⟨u'.cta c, u'.group (c / p.ctasPerGroup), u'.out⟩
          ⟨⟨rest, .entered r, phase, iter⟩, (u'.group (c / p.ctasPerGroup)).arrive, u'.out⟩ := by
        rw [hucta]
        exact .enter
      have hphase : ∀ d, ((⟨Function.update u'.cta c ⟨rest, .entered r, phase, iter⟩,
          Function.update u'.group (c / p.ctasPerGroup) (u'.group (c / p.ctasPerGroup)).arrive,
          u'.out⟩ : State).cta d).phase = (u'.cta d).phase := fun d => by
        show (Function.update u'.cta c _ d).phase = _
        rcases eq_or_ne d c with rfl | hne
        · rw [Function.update_self, hucta]
        · rw [Function.update_of_ne hne]
      refine ⟨_, hu'.step (Step.block c hc hblock') fun _ => quiet_of_phase fun d _ => hphase d,
        ⟨?_, fun d hd => ?_, hfollows.radix, fun r' hr' hs => ?_⟩⟩
      · simp only [hfollows.group]
      · rcases eq_or_ne d c with rfl | hne
        · simp only [Function.update_self]
          exact ⟨trivial, trivial, trivial, hrest⟩
        · simp only [Function.update_of_ne hne]
          exact hfollows.cta d hd
      · refine (hfollows.short r' hr' hs).imp_left fun hmem => ?_
        show Task.short r' ∈ (Function.update u'.cta c _ (B.owner r')).todo
        rcases eq_or_ne (B.owner r') c with heq | hne
        · rw [heq, hucta] at hmem
          rw [heq, Function.update_self]
          exact (List.mem_cons.mp hmem).resolve_left nofun
        · rwa [Function.update_of_ne hne]
    | _ => cases hpc
  · -- a step on a radix row, which the other schedule takes as well
    obtain ⟨h1, h2, h3, h4⟩ := h.cta c hc
    obtain ⟨htodo, out₂', hblock', hsame, hframe⟩ :=
      CtaStep.frame (show CtaStep p short _ ⟨_, _, _⟩ ⟨l.cta, l.group, l.out⟩ from hblock) hpc
        (u.cta c).todo u.out
    have hucta : { t.cta c with todo := (u.cta c).todo } = u.cta c :=
      Cta.ext rfl h1.symm h2.symm h3.symm
    rw [hucta, ← h.group] at hblock'
    have hcta : ∀ d < p.totalCtas,
        (Function.update u.cta c { l.cta with todo := (u.cta c).todo } d).phase =
          (Function.update t.cta c l.cta d).phase := fun d hd => by
      rcases eq_or_ne d c with rfl | hne
      · simp only [Function.update_self]
      · simp only [Function.update_of_ne hne]
        exact (h.cta d hd).2.1
    refine ⟨_, hu.step (Step.block c hc hblock') fun hq => (hquiet hq).congr
        (fun d hd => ⟨(h.cta d hd).1, (h.cta d hd).2.1⟩) hcta,
      ⟨?_, fun d hd => ?_, fun r hr => hsame r (h.radix r hr), fun r hr hs => ?_⟩⟩
    · simp only [h.group]
    · rcases eq_or_ne d c with rfl | hne
      · simp only [Function.update_self, htodo]
        exact ⟨trivial, trivial, trivial, h4⟩
      · simp only [Function.update_of_ne hne]
        exact h.cta d hd
    · show Task.short r ∈ (Function.update u.cta c _ (B.owner r)).todo ∨ out₂' r = O r
      rw [(hframe r fun hrow => not_short_of_row ht hc hrow hs).1]
      refine (h.short r hr hs).imp_left fun hmem => ?_
      rcases eq_or_ne (B.owner r) c with heq | hne
      · rw [heq, Function.update_self, ← heq]
        exact hmem
      · rwa [Function.update_of_ne hne]

theorem Follows.run {t : State} (ht : Reachable p short quiet S out₀ t)
    (hO : ∀ r < p.numRows, p.Short r → short r (O r)) :
    ∃ u, Reachable p short quiet B out₀ u ∧ Follows B O t u := by
  induction ht with
  | launch =>
    refine ⟨launch p B out₀, .launch, ⟨rfl, fun c hc => ⟨rfl, rfl, rfl, ?_⟩, fun _ _ => rfl,
      fun r hr hs => Or.inl ?_⟩⟩
    · exact (B.radix hc).trans (S.radix hc).symm
    · exact (B.mem_iff (B.owner_lt hr hs) hr hs).mpr rfl
  | step hreach hstep hquiet ih =>
    obtain ⟨u, hu, h⟩ := ih
    exact h.step hreach hu hO hstep hquiet

end Outputs

end Ringside.TopkRowspread

import Ringside.Barrier
import Ringside.TopkRowspread.Kernel

/-!
# The barriers and histograms of the persistent top-k kernel

The blocks of a group walk one list of radix rows, with six barriers a row, so what a block has done
is told by how often it has gone on. That much holds in every run (`Barriers`).

The slot of a round was cleared by the group's first block the round before, when every block had
read it and none could yet add to it. This holds as long as no block goes on from a barrier while
another one has an access of the round left (`Quiet`): then a block that is behind another one has
made all its accesses (`Inv.behind`), and the slots carry the histograms (`Inv.hist`).

* Rounds are numbered through the rows of a group (`globalRound`); `Cta.made` counts those a block
  has gone on from.
* `total` and `sel` say what the rounds of a row compute, from the whole row. They are functions of
  the scores and no part of a state.
* `due` is what a block is to add to a bin in a round and `added` what it has added; a slot is the
  sum of what all blocks have added to it.
* That the blocks meet at the counter, and are never more than one barrier apart, is the library's
  (`Barrier.Meets`). What it takes from this file is how often a block has arrived (`Cta.arrived`).
* A step is sorted by what it does to the slots (`CtaStep.slots`): nothing, one addition, or one
  clearing.

## Results

* `reachable_barriers`: the barriers of every group, in every reachable state.
* `quiet_inv`: the invariant of every group, in every state of a quiet launch.
* `Inv.slot`: the slot of a round holds what has been added in this round and nothing else.
* `Inv.read`: what a block reads is the histogram of the whole row.
-/

namespace Ringside.TopkRowspread

open Barrier

/-! ## Places

A row takes six barriers and four rounds: the program counter says how many of each are behind, and
with the number of rows done the block's place in the whole sequence. All comparisons of two blocks
are comparisons of these two numbers.
-/

/-- The barriers of the row that are behind. -/
def Pc.offset : Pc → Nat
  | .idle | .entered _ => 0
  | .reset _ => 1
  | .round _ n _ _ _ _ _ => n + 1
  | .scan _ n _ _ _ _ => n + 2
  | .claim _ _ | .gt _ _ _ _ _ _ => 5
  | .ties _ _ _ => 6

/-- Whether the block waits. -/
def Pc.waits : Pc → Nat
  | .entered _ => 1
  | .round _ _ _ _ _ _ arrived | .gt _ _ _ _ _ arrived => arrived.toNat
  | _ => 0

/-- The rounds of the row that the block has gone on from. -/
def Pc.rounds : Pc → Nat
  | .idle | .entered _ | .reset _ => 0
  | .round _ n _ _ _ _ _ => n
  | .scan _ n _ _ _ _ => n + 1
  | _ => 4

def Pc.row? : Pc → Option Nat
  | .idle => none
  | .entered r | .reset r | .round r _ _ _ _ _ _ | .scan r _ _ _ _ _ | .claim r _
  | .gt r _ _ _ _ _ | .ties r _ _ => some r

/-- A row has four rounds. -/
def Pc.Bounded : Pc → Prop
  | .round _ n _ _ _ _ _ | .scan _ n _ _ _ _ => n < 4
  | _ => True

/-- The block is in a round and has made its addition to a bin. -/
def Pc.added (bin : Nat) : Pc → Bool
  | .round _ _ _ _ adds _ _ => bin ∉ adds
  | _ => false

/-- The block is in a round and has cleared a bin of the next slot. -/
def Pc.cleared (bin : Nat) : Pc → Bool
  | .round _ _ _ _ _ clears _ => bin ∉ clears
  | _ => false

/-- How often a block has arrived. -/
def Cta.arrived (x : Cta) : Nat := x.phase + x.pc.waits

/-- The rounds that a block has gone on from. -/
def Cta.made (x : Cta) : Nat := 4 * x.iter + x.pc.rounds

/-- How often a block has gone on when it is in a round. -/
def roundPhase (k : Nat) : Nat := 6 * (k / 4) + k % 4 + 1

theorem roundPhase_lt {k l : Nat} (h : k < l) : roundPhase k < roundPhase l := by
  unfold roundPhase
  omega

/-! ## What the rounds of a row compute

The specification of a row has no blocks in it: its whole histogram, and the prefix that the rounds
before have selected. What a block adds to a bin is its chunk's part of that, and what it knows of a
row is compared with `sel`.
-/

section Spec

variable (p : Params)

/-- The histogram of the whole row. -/
def total (r round pfx bin : Nat) : Nat := ∑ cta ∈ Finset.range p.ctasPerGroup,
    p.localHist cta r round pfx bin

/-- The prefix and `remaining_k` before a round. -/
def sel (r : Nat) : Nat → Nat × Nat
  | 0 => (0, p.topK)
  | round + 1 => select (total p r round (sel r round).1) round (sel r round)

/-- What block `cta` of group `g` adds to a bin in a round of the group. -/
def due (g cta k bin : Nat) : Nat :=
  match (p.radixRows g)[k / 4]? with
  | none => 0
  | some r => p.localHist cta r (k % 4) (sel p r (k % 4)).1 bin

/-- What it has added. -/
def added (g cta : Nat) (x : Cta) (k bin : Nat) : Nat :=
  if k < x.made ∨ (k = x.made ∧ x.pc.added bin) then due p g cta k bin else 0

/-- The first block has cleared a bin for a round. -/
def Cleared (x : Cta) (k bin : Nat) : Prop := k ≤ x.made ∨ (k = x.made + 1 ∧ x.pc.cleared bin)

/-- What a block knows of a row is what the whole row says. -/
def Knows (cta : Nat) : Pc → Prop
  | .round r round pfx rem adds clears _ =>
    (pfx, rem) = sel p r round ∧ adds.Nodup ∧ clears.Nodup ∧ (cta ≠ 0 → clears = [])
  | .scan r round pfx rem seen unread =>
    (pfx, rem) = sel p r round ∧ ∀ bin < RADIX, bin ∉ unread → seen bin = total p r round pfx bin
  | .claim r pivot | .gt r pivot _ _ _ _ | .ties r pivot _ => pivot = (sel p r 4).1
  | _ => True

/-- The rows that are left to a block are those of its group. -/
def OnRows (g : Nat) (x : Cta) : Prop :=
  match x.pc.row? with
  | none =>
    x.iter ≤ (p.radixRows g).length ∧ x.todo.filterMap Task.radix? = (p.radixRows g).drop x.iter
  | some r =>
    (p.radixRows g)[x.iter]? = some r ∧
      x.todo.filterMap Task.radix? = (p.radixRows g).drop (x.iter + 1)

/-- A block of a group, by itself. -/
structure Placed (g : Nat) (x : Cta) : Prop where
  phase : x.phase = 6 * x.iter + x.pc.offset
  rows : OnRows p g x
  bounded : x.pc.Bounded

/-- The blocks of a group and their counter. -/
structure Barriers (g : Nat) (x : Nat → Cta) (s : Group) : Prop where
  placed : ∀ i < p.ctasPerGroup, Placed p g (x i)
  meets : Meets p.ctasPerGroup (Cta.arrived ∘ x) (Cta.phase ∘ x)
  arrival : s.arrival = count p.ctasPerGroup (Cta.arrived ∘ x)

/-- **The blocks of a group and their histograms.** -/
structure Inv (g : Nat) (x : Nat → Cta) (s : Group) : Prop extends Barriers p g x s where
  knows : ∀ i < p.ctasPerGroup, Knows p i (x i).pc
  behind : ∀ i < p.ctasPerGroup, ∀ j < p.ctasPerGroup, (x j).phase < (x i).phase →
    (x j).pc.left = []
  hist : ∀ k, ∀ bin < RADIX, Cleared (x 0) k bin → ¬Cleared (x 0) (k + 3) bin →
    s.hist (k % 3) bin = ∑ i ∈ Finset.range p.ctasPerGroup, added p g i (x i) k bin

end Spec

variable {p : Params} {g i : Nat} {x y : Cta} {s s' : Group} {out out' : Nat → Nat → Int}
  {short : Nat → (Nat → Int) → Prop}

/-! ## A block by itself

These lemmas tie the two numbers together for one block, whatever the others do. `not_cleared` and
`cleared_of_reached` place the first block's clearings in the sequence of rounds: it clears for a
round in the one before.
-/

section Block

/-- **What a block has made is told by how often it has gone on.** -/
theorem Placed.made_le (h : Placed p g x) (k : Nat) : x.made ≤ k ↔ x.phase ≤ roundPhase k := by
  obtain ⟨hphase, -, hbounded⟩ := h
  obtain ⟨todo, pc, phase, iter⟩ := x
  unfold Cta.made roundPhase
  simp only at hphase hbounded ⊢
  cases pc <;> simp only [Pc.offset, Pc.rounds, Pc.Bounded] at hphase hbounded ⊢ <;> omega

theorem Placed.lt_made (h : Placed p g x) (k : Nat) : k < x.made ↔ roundPhase k < x.phase := by
  have := h.made_le k
  omega

theorem arrived_le (x : Cta) : x.phase ≤ x.arrived ∧ x.arrived ≤ x.phase + 1 := by
  unfold Cta.arrived
  cases x.pc with
  | round _ _ _ _ _ _ a | gt _ _ _ _ _ a =>
    have := Bool.toNat_le a
    simp only [Pc.waits]
    omega
  | _ =>
    simp only [Pc.waits]
    omega

theorem Placed.round_phase (h : Placed p g x) {r round pfx rem : Nat} {adds clears : List Nat}
    {a : Bool} (hpc : x.pc = .round r round pfx rem adds clears a) :
      x.phase = roundPhase x.made := by
  obtain ⟨hphase, -, hbounded⟩ := h
  rw [hpc] at hphase hbounded
  unfold Cta.made roundPhase
  rw [hpc, hphase]
  simp only [Pc.offset, Pc.rounds, Pc.Bounded] at hbounded ⊢
  omega

theorem Placed.scan_phase (h : Placed p g x) {r round pfx rem : Nat} {seen : Nat → Nat}
    {unread : List Nat} (hpc : x.pc = .scan r round pfx rem seen unread) :
    x.phase = roundPhase (globalRound x.iter round) + 1 ∧ x.arrived = x.phase := by
  obtain ⟨hphase, -, hbounded⟩ := h
  rw [hpc] at hphase hbounded
  unfold Cta.arrived roundPhase globalRound
  rw [hpc, hphase]
  simp only [Pc.offset, Pc.waits, Pc.Bounded] at hbounded ⊢
  omega

/-- A block that waits behind a round is in it. -/
theorem Placed.round_of_waits (h : Placed p g x) (hphase : x.phase = roundPhase x.made)
    (hwait : x.arrived = x.phase + 1) :
    ∃ r round pfx rem adds clears, x.pc = .round r round pfx rem adds clears true := by
  obtain ⟨hp, -, hbounded⟩ := h
  obtain ⟨todo, pc, phase, iter⟩ := x
  unfold Cta.made roundPhase at hphase
  unfold Cta.arrived at hwait
  simp only at hp hbounded hphase hwait
  cases pc with
  | round r round pfx rem adds clears a =>
    cases a with
    | true => exact ⟨r, round, pfx, rem, adds, clears, rfl⟩
    | false => exact absurd hwait (Nat.lt_succ_self _).ne
  | gt =>
    simp only [Pc.offset, Pc.rounds] at hp hphase
    omega
  | entered =>
    simp only [Pc.offset, Pc.rounds] at hp hphase
    omega
  | _ => exact absurd hwait (Nat.lt_succ_self _).ne

/-- **A round that some block has reached is cleared for**, if the first block has no access left
where it is behind. -/
theorem cleared_of_reached (h : Placed p g x) {k P : Nat} (hk : roundPhase k ≤ P)
    (hskew : P ≤ x.arrived) (hbehind : x.phase < P → x.pc.left = []) (bin : Nat) :
    Cleared x k bin := by
  by_contra hnot
  have hlt : x.made < k := not_le.mp fun hle => hnot (Or.inl hle)
  have hphase := (h.made_le (k - 1)).mp (by omega)
  have hstep := roundPhase_lt (show k - 1 < k by omega)
  obtain ⟨-, hle⟩ := arrived_le x
  -- the block waits behind the round before
  have hmade : x.made = k - 1 := by
    by_contra hne
    have := (h.made_le (k - 2)).mp (by omega)
    have := roundPhase_lt (show k - 2 < k - 1 by omega)
    omega
  obtain ⟨r, round, pfx, rem, adds, clears, hpc⟩ :=
    h.round_of_waits (by rw [hmade]; omega) (by omega)
  have hleft := hbehind (by omega)
  rw [hpc] at hleft
  have hclears : clears = [] := (List.append_eq_nil_iff.mp hleft).2
  refine hnot (Or.inr ⟨by omega, ?_⟩)
  rw [hpc, hclears]
  rfl

/-- A round far ahead is not. -/
theorem not_cleared (h : Placed p g x) {k : Nat} (hk : x.phase ≤ roundPhase k + 1) (bin : Nat) :
    ¬Cleared x (k + 3) bin := by
  have hstep := roundPhase_lt (show k < k + 1 by omega)
  have hmade := (h.made_le (k + 1)).mpr (by omega)
  rintro (hle | ⟨heq, -⟩) <;> omega

/-- What is due in a round that the block is in. -/
theorem Placed.due_eq (h : Placed p g x) (hknows : Knows p i x.pc) {r round pfx rem : Nat}
    {adds clears : List Nat} {a : Bool} (hpc : x.pc = .round r round pfx rem adds clears a)
    (bin : Nat) : due p g i x.made bin = p.localHist i r round pfx bin := by
  obtain ⟨-, hrows, hbounded⟩ := h
  unfold OnRows at hrows
  rw [hpc] at hrows hknows hbounded
  obtain ⟨hsel, -⟩ := hknows
  simp only [Pc.Bounded] at hbounded
  have hdiv : x.made / 4 = x.iter := by
    unfold Cta.made
    rw [hpc]
    simp only [Pc.rounds]
    omega
  have hmod : x.made % 4 = round := by
    unfold Cta.made
    rw [hpc]
    simp only [Pc.rounds]
    omega
  unfold due
  rw [hdiv, hmod, hrows.1]
  show p.localHist _ r round (sel p r round).1 bin = _
  rw [← hsel]

/-- What is due in a round that the block reads. -/
theorem Placed.due_scan (h : Placed p g x) (hknows : Knows p i x.pc) {r round pfx rem : Nat}
    {seen : Nat → Nat} {unread : List Nat} (hpc : x.pc = .scan r round pfx rem seen unread)
    (j bin : Nat) :
    due p g j (globalRound x.iter round) bin = p.localHist j r round pfx bin := by
  obtain ⟨-, hrows, hbounded⟩ := h
  unfold OnRows at hrows
  rw [hpc] at hrows hknows hbounded
  obtain ⟨hsel, -⟩ := hknows
  simp only [Pc.Bounded] at hbounded
  have hdiv : globalRound x.iter round / 4 = x.iter := by
    unfold globalRound
    omega
  have hmod : globalRound x.iter round % 4 = round := by
    unfold globalRound
    omega
  unfold due
  rw [hdiv, hmod, hrows.1]
  show p.localHist _ r round (sel p r round).1 bin = _
  rw [← hsel]

/-! ## A step of a block

Each constructor of `CtaStep` is looked at once for each of four questions: what it does to the
barrier, to the block's place, to what the block knows, and to the slots. The rest uses the answers
only.
-/

theorem suffixSum_congr {f f' : Nat → Nat} (h : ∀ bin < RADIX, f bin = f' bin) {tx : Nat}
    (htx : tx < RADIX) :
    suffixSum f tx = suffixSum f' tx := by
  unfold suffixSum
  generalize ([1, 2, 4, 8, 16, 32, 64, 128] : List Nat) = strides
  induction strides generalizing f f' with
  | nil => exact h tx htx
  | cons stride strides ih =>
    refine ih fun bin hbin => congrArg₂ (· + ·) (h bin hbin) ?_
    split_ifs with hlt
    · exact h _ hlt
    · rfl

theorem select_congr {f f' : Nat → Nat} (h : ∀ bin < RADIX, f bin = f' bin) (round : Nat)
    (s : Nat × Nat) :
    select f round s = select f' round s := by
  have hgt : ∀ tx, (if tx + 1 < RADIX then suffixSum f (tx + 1) else 0) =
      if tx + 1 < RADIX then suffixSum f' (tx + 1) else 0 := fun tx => by
    split_ifs with hlt
    · exact suffixSum_congr h hlt
    · rfl
  have hpick : pick (suffixSum f) s.2 = pick (suffixSum f') s.2 := by
    unfold pick
    simp only [hgt]
    rw [List.find?_congr fun tx htx => by rw [suffixSum_congr h (List.mem_range.mp htx)]]
  unfold select
  rw [hpick]

/-- The round that follows, from the histogram that was read. -/
theorem sel_succ {r round pfx rem : Nat} {seen : Nat → Nat} (hsel : (pfx, rem) = sel p r round)
    (hseen : ∀ bin < RADIX, seen bin = total p r round pfx bin) :
      select seen round (pfx, rem) = sel p r (round + 1) := by
  rw [select_congr hseen, hsel, show pfx = (sel p r round).1 from congrArg Prod.fst hsel]
  rfl

theorem knows_startRound {r round pfx rem : Nat} (hsel : (pfx, rem) = sel p r round) :
    Knows p i (startRound p i r round pfx rem) := by
  refine ⟨hsel, List.nodup_range.filter _, ?_, fun hi => if_neg hi⟩
  split_ifs
  · exact List.nodup_range
  · exact List.nodup_nil

theorem drop_cons {l rows : List Nat} {r k : Nat} (h : r :: l = rows.drop k) :
    rows[k]? = some r ∧ l = rows.drop (k + 1) := by
  constructor
  · have hhead : (rows.drop k)[0]? = rows[k + 0]? := List.getElem?_drop
    rw [← h] at hhead
    exact hhead.symm
  · rw [← List.tail_drop, ← h]
    rfl

/-- What a step does to the barrier: nothing, an arrival, or a going on. -/
theorem CtaStep.barrier (h : CtaStep p short i ⟨x, s, out⟩ ⟨y, s', out'⟩) :
    (y.arrived = x.arrived ∧ y.phase = x.phase ∧ s'.arrival = s.arrival) ∨
    (x.arrived = x.phase ∧ y.arrived = x.phase + 1 ∧ y.phase = x.phase ∧
      s'.arrival = s.arrival + 1) ∨
    (x.arrived = x.phase + 1 ∧ Released p x.phase s.arrival ∧ y.arrived = x.arrived ∧
      y.phase = x.phase + 1 ∧ s'.arrival = s.arrival) := by
  cases h with
  | short | reset | add | clear | read | select | selectLast | claim | storeGt | tie | done =>
    exact Or.inl ⟨rfl, rfl, rfl⟩
  | enter | arriveRound | arriveGt => exact Or.inr (Or.inl ⟨rfl, rfl, rfl, rfl⟩)
  | passEntered hrel =>
    refine Or.inr (Or.inr ⟨rfl, hrel, ?_, rfl, rfl⟩)
    show _ + Pc.waits (if i = 0 then _ else _) = _
    split_ifs <;> rfl
  | passRounded hrel | passCollected hrel => exact Or.inr (Or.inr ⟨rfl, hrel, rfl, rfl, rfl⟩)

/-- **A step keeps a block in its place.** -/
theorem CtaStep.placed (h : CtaStep p short i ⟨x, s, out⟩ ⟨y, s', out'⟩) (hx : Placed p g x) :
    Placed p g y := by
  obtain ⟨hphase, hrows, hbounded⟩ := hx
  cases h with
  | short => exact ⟨hphase, hrows, trivial⟩
  | enter => exact ⟨hphase, drop_cons hrows.2, trivial⟩
  | passEntered =>
    simp only [Pc.offset] at hphase
    refine ⟨?_, ?_, ?_⟩
    · show _ = 6 * _ + Pc.offset (if i = 0 then _ else _)
      split_ifs <;> simp only [Pc.offset, startRound] <;> omega
    · unfold OnRows
      split_ifs <;> exact hrows
    · show Pc.Bounded (if i = 0 then _ else _)
      split_ifs
      · trivial
      · exact Nat.zero_lt_succ 3
  | reset => exact ⟨hphase, hrows, Nat.zero_lt_succ 3⟩
  | add | clear | arriveRound | read | claim | storeGt | arriveGt | tie =>
    exact ⟨hphase, hrows, hbounded⟩
  | passRounded | passCollected =>
    simp only [Pc.offset] at hphase
    exact ⟨by simp only [Pc.offset]; omega, hrows, hbounded⟩
  | select hlt => exact ⟨hphase, hrows, Nat.succ_lt_succ hlt⟩
  | @selectLast r round pfx rem seen todo phase iter s out hlast =>
    have hlt : round < 4 := hbounded
    obtain rfl : round = 3 := by omega
    exact ⟨hphase, hrows, trivial⟩
  | done =>
    simp only [Pc.offset] at hphase
    exact ⟨by simp only [Pc.offset]; omega, ⟨(List.getElem?_eq_some_iff.mp hrows.1).1, hrows.2⟩,
      trivial⟩

/-- **A step keeps what a block knows**, when what it reads is the row's histogram. -/
theorem CtaStep.knows (h : CtaStep p short i ⟨x, s, out⟩ ⟨y, s', out'⟩) (hx : Placed p g x)
    (hknows : Knows p i x.pc)
    (hread : ∀ r round pfx rem seen unread, x.pc = .scan r round pfx rem seen unread →
      ∀ bin < RADIX, s.hist (globalRound x.iter round % 3) bin = total p r round pfx bin) :
    Knows p i y.pc := by
  cases h with
  | short | enter => trivial
  | passEntered =>
    show Knows p i (if i = 0 then _ else _)
    split_ifs
    · trivial
    · exact knows_startRound rfl
  | reset => exact knows_startRound rfl
  | add =>
    obtain ⟨hsel, hadds, hrest⟩ := hknows
    exact ⟨hsel, hadds.erase _, hrest⟩
  | clear =>
    obtain ⟨hsel, hadds, hclears, hnil⟩ := hknows
    refine ⟨hsel, hadds, hclears.erase _, fun hi => ?_⟩
    rw [hnil hi]
    rfl
  | arriveRound | claim | storeGt | arriveGt | passCollected | tie => exact hknows
  | passRounded => exact ⟨hknows.1, fun bin hbin hnot => absurd (List.mem_range.mpr hbin) hnot⟩
  | @read r round pfx rem seen unread todo phase iter s out bin hmem =>
    obtain ⟨hsel, hseen⟩ := hknows
    refine ⟨hsel, fun bin' hbin' hnot => ?_⟩
    rcases eq_or_ne bin' bin with rfl | hne
    · rw [Function.update_self]
      exact hread r round pfx rem seen unread rfl bin' hbin'
    · rw [Function.update_of_ne hne]
      exact hseen bin' hbin' fun hmem' => hnot ((List.mem_erase_of_ne hne).mpr hmem')
  | @select r round pfx rem seen todo phase iter s out hlt =>
    obtain ⟨hsel, hseen⟩ := hknows
    exact knows_startRound (sel_succ hsel fun bin hbin => hseen bin hbin List.not_mem_nil)
  | @selectLast r round pfx rem seen todo phase iter s out hlast =>
    obtain ⟨hsel, hseen⟩ := hknows
    have hlt : round < 4 := hx.bounded
    obtain rfl : round = 3 := by omega
    exact congrArg Prod.fst (sel_succ hsel fun bin hbin => hseen bin hbin List.not_mem_nil)
  | done => trivial

/-- A block that waits with no access left keeps it so until it goes on. -/
theorem CtaStep.left_nil (h : CtaStep p short i ⟨x, s, out⟩ ⟨y, s', out'⟩)
    (hwait : x.arrived = x.phase + 1) (hleft : x.pc.left = []) (hphase : y.phase = x.phase) :
    y.pc.left = [] := by
  cases h with
  | add hmem =>
    rw [(List.append_eq_nil_iff.mp hleft).1] at hmem
    cases hmem
  | clear hmem =>
    rw [(List.append_eq_nil_iff.mp hleft).2] at hmem
    cases hmem
  | storeGt => rfl
  | passEntered | passRounded | passCollected => exact absurd hphase (Nat.succ_ne_self _)
  | _ => exact absurd hwait (Nat.lt_succ_self _).ne

/-- A step that leaves the slots alone changes nothing of what has been added and cleared. -/
def Silent (p : Params) (g i : Nat) (x y : Cta) : Prop :=
  (∀ k, ∀ bin < RADIX, added p g i y k bin = added p g i x k bin) ∧
    (i = 0 → ∀ k, ∀ bin < RADIX, (Cleared y k bin ↔ Cleared x k bin))

theorem silent_of_made (hmade : y.made = x.made) (hadded : ∀ bin, y.pc.added bin = x.pc.added bin)
    (hcleared : ∀ bin, y.pc.cleared bin = x.pc.cleared bin) : Silent p g i x y := by
  unfold Silent added Cleared
  simp only [hmade, hadded, hcleared, implies_true, and_true]

/-- A block that enters a round has nothing to add to the bins it leaves out. -/
theorem silent_startRound {r round pfx rem : Nat} (hy : Placed p g y) (hknows : Knows p i y.pc)
    (hpc : y.pc = startRound p i r round pfx rem) (hmade : y.made = x.made)
    (hadded : ∀ bin, x.pc.added bin = false) (hcleared : ∀ bin, x.pc.cleared bin = false) :
    Silent p g i x y := by
  constructor
  · intro k bin hbin
    unfold added
    rw [hmade, hadded]
    by_cases hk : k = x.made ∧ y.pc.added bin = true
    · -- the bin is left out, so nothing is due
      have hdue : due p g i k bin = 0 := by
        rw [hk.1, ← hmade, hy.due_eq hknows hpc]
        have hnot := hk.2
        rw [hpc] at hnot
        simp only [startRound, Pc.added, decide_eq_true_eq, List.mem_filter, List.mem_range,
          not_and] at hnot
        exact Nat.eq_zero_of_not_pos (hnot hbin)
      rw [hdue, ite_self, ite_self]
    · simp [hk]
  · intro hi k bin hbin
    have hnot : y.pc.cleared bin = false := by
      rw [hpc]
      simp [startRound, Pc.cleared, hi, hbin]
    unfold Cleared
    rw [hmade, hcleared, hnot]

/-- **What a step does to the slots**: nothing, one block's addition to a bin, or the clearing of
one. -/
theorem CtaStep.slots (h : CtaStep p short i ⟨x, s, out⟩ ⟨y, s', out'⟩) (hx : Placed p g x)
    (hy : Placed p g y) (hxk : Knows p i x.pc) (hyk : Knows p i y.pc) :
    (s'.hist = s.hist ∧ Silent p g i x y) ∨
    (∃ r round pfx rem adds clears a bin, x.pc = .round r round pfx rem adds clears a ∧ bin ∈ adds ∧
      y = { x with pc := .round r round pfx rem (adds.erase bin) clears a } ∧
      s' = s.add (x.made % 3) bin (due p g i x.made bin)) ∨
    (∃ r round pfx rem adds clears a bin, x.pc = .round r round pfx rem adds clears a ∧
      bin ∈ clears ∧ y = { x with pc := .round r round pfx rem adds (clears.erase bin) a } ∧
      s' = s.clear ((x.made + 1) % 3) bin) := by
  cases h with
  | short | enter | arriveRound | read | claim | storeGt | arriveGt | passCollected | tie =>
    exact Or.inl ⟨rfl, silent_of_made rfl (fun _ => rfl) fun _ => rfl⟩
  | @selectLast r round pfx rem seen todo phase iter s out hlast =>
    left
    refine ⟨rfl, silent_of_made ?_ (fun _ => rfl) fun _ => rfl⟩
    have hlt : round < 4 := hx.bounded
    simp only [Cta.made, Pc.rounds]
    omega
  | @passEntered r =>
    left
    refine ⟨rfl, ?_⟩
    by_cases hi : i = 0
    · refine silent_of_made ?_ (fun _ => ?_) fun _ => ?_ <;>
        simp [hi, Cta.made, Pc.rounds, Pc.added, Pc.cleared]
    · refine silent_startRound (r := r) hy hyk (if_neg hi) ?_ (fun _ => rfl) fun _ => rfl
      simp [hi, Cta.made, Pc.rounds, startRound]
  | reset => exact Or.inl ⟨rfl, silent_startRound hy hyk rfl rfl (fun _ => rfl) fun _ => rfl⟩
  | @add r round pfx rem adds clears a todo phase iter s out bin hmem =>
    right; left
    refine ⟨r, round, pfx, rem, adds, clears, a, bin, rfl, hmem, rfl, ?_⟩
    rw [hx.due_eq hxk rfl]
    simp only [Cta.made, Pc.rounds, globalRound, Nat.mul_comm]
  | @clear r round pfx rem adds clears a todo phase iter s out bin hmem =>
    right; right
    refine ⟨r, round, pfx, rem, adds, clears, a, bin, rfl, hmem, rfl, ?_⟩
    simp only [Cta.made, Pc.rounds, globalRound, Nat.mul_comm]
  | passRounded =>
    left
    refine ⟨rfl, fun k bin _ => ?_, fun _ k bin _ => ?_⟩
    · simp only [added, Cta.made, Pc.rounds, Pc.added, List.not_mem_nil, not_false_eq_true,
        decide_true, and_true, Bool.false_eq_true, and_false, or_false]
      exact if_congr (by omega) rfl rfl
    · simp only [Cleared, Cta.made, Pc.rounds, Pc.cleared, List.not_mem_nil, not_false_eq_true,
        decide_true, and_true, Bool.false_eq_true, and_false, or_false]
      omega
  | select =>
    left
    refine ⟨rfl, silent_startRound hy hyk rfl ?_ (fun _ => rfl) fun _ => rfl⟩
    simp only [Cta.made, Pc.rounds, startRound]
  | done =>
    left
    refine ⟨rfl, silent_of_made ?_ (fun _ => rfl) fun _ => rfl⟩
    simp only [Cta.made, Pc.rounds]
    omega

end Block

/-! ## The blocks of a group

Round `k` uses slot `k % 3`. The slot is cleared for it by the first block in the round before, and
cleared again for round `k + 3` in round `k + 2`; in between it holds what has been added in round
`k`. That no addition and no clearing comes late is `behind`, which is where quiet steps are needed.
-/

section Blocks

variable {x : Nat → Cta} {y : Cta} {s s' : Group}

namespace Barriers

variable (h : Barriers p g x s)

include h

/-- A block that has gone on from a barrier has seen every block arrive. -/
theorem phase_le {j : Nat} (hi : i < p.ctasPerGroup) (hj : j < p.ctasPerGroup) :
    (x i).phase ≤ (x j).arrived :=
  h.meets.skew i hi j hj

/-- **A step of a block keeps the barriers of its group.** -/
theorem step (hi : i < p.ctasPerGroup) {out out' : Nat → Nat → Int}
    (hstep : CtaStep p short i ⟨x i, s, out⟩ ⟨y, s', out'⟩) :
    Barriers p g (Function.update x i y) s' := by
  have harrived : Cta.arrived ∘ Function.update x i y =
      Function.update (Cta.arrived ∘ x) i y.arrived := Function.comp_update _ _ _ _
  have hphase : Cta.phase ∘ Function.update x i y = Function.update (Cta.phase ∘ x) i y.phase :=
    Function.comp_update _ _ _ _
  have hself : ∀ f : Nat → Nat, Function.update f i (f i) = f := fun f =>
    Function.update_eq_self i f
  refine ⟨fun j hj => ?_, ?_, ?_⟩
  · rcases eq_or_ne j i with rfl | hne
    · rw [Function.update_self]
      exact hstep.placed (h.placed j hj)
    · rw [Function.update_of_ne hne]
      exact h.placed j hj
  · rw [harrived, hphase]
    rcases hstep.barrier with ⟨ha, hp, -⟩ | ⟨hx, ha, hp, -⟩ | ⟨hx, hrel, ha, hp, -⟩
    · rw [ha, hp, ← Function.comp_apply (f := Cta.arrived), ← Function.comp_apply (f := Cta.phase),
        hself, hself]
      exact h.meets
    · rw [ha, hp, ← Function.comp_apply (f := Cta.phase), hself]
      exact h.meets.arrive hi hx
    · rw [ha, hp, ← Function.comp_apply (f := Cta.arrived), hself]
      refine h.meets.pass hi hx ?_
      rw [← h.arrival]
      exact hrel
  · have hcount := count_update (Cta.arrived ∘ x) hi y.arrived
    have harr := h.arrival
    rw [harrived]
    simp only [Function.comp_apply] at hcount
    rcases hstep.barrier with ⟨ha, -, hs⟩ | ⟨hx, ha, -, hs⟩ | ⟨-, -, ha, -, hs⟩ <;> omega

end Barriers

theorem Barriers.congr {x' : Nat → Cta} (h : Barriers p g x s)
    (heq : ∀ i < p.ctasPerGroup, x' i = x i) : Barriers p g x' s := by
  obtain ⟨hplaced, ⟨hpassed, harrived, hskew⟩, harrival⟩ := h
  refine ⟨fun i hi => heq i hi ▸ hplaced i hi,
    ⟨fun i hi => ?_, fun i hi => ?_, fun i hi j hj => ?_⟩, ?_⟩
  · simpa only [Function.comp_apply, heq i hi] using hpassed i hi
  · simpa only [Function.comp_apply, heq i hi] using harrived i hi
  · simpa only [Function.comp_apply, heq i hi, heq j hj] using hskew i hi j hj
  · refine harrival.trans (Finset.sum_congr rfl fun i hi => ?_)
    simp only [Function.comp_apply, heq i (Finset.mem_range.mp hi)]

namespace Inv

variable (h : Inv p g x s)

include h

/-- The first block has cleared what another one uses. -/
theorem cleared (hi : i < p.ctasPerGroup) {k : Nat} (hk : roundPhase k ≤ (x i).phase) (bin : Nat) :
    Cleared (x 0) k bin :=
  cleared_of_reached (h.placed 0 p.ctas_pos) hk (h.phase_le hi p.ctas_pos)
    (h.behind i hi 0 p.ctas_pos) bin

/-- **The slot of a round** holds what has been added in this round. -/
theorem slot (hi : i < p.ctasPerGroup) {r round pfx rem : Nat} {adds clears : List Nat} {a : Bool}
    (hpc : (x i).pc = .round r round pfx rem adds clears a) {bin : Nat} (hbin : bin < RADIX) :
    s.hist ((x i).made % 3) bin =
      ∑ j ∈ Finset.range p.ctasPerGroup, added p g j (x j) (x i).made bin := by
  have hphase := (h.placed i hi).round_phase hpc
  have hge := h.phase_le p.ctas_pos hi
  obtain ⟨-, hle⟩ := arrived_le (x i)
  refine h.hist _ bin hbin (h.cleared hi hphase.ge bin) ?_
  exact not_cleared (h.placed 0 p.ctas_pos) (by omega) bin

/-- **What a block reads** is the histogram of the whole row. -/
theorem read (hi : i < p.ctasPerGroup) {r round pfx rem : Nat} {seen : Nat → Nat}
    {unread : List Nat} (hpc : (x i).pc = .scan r round pfx rem seen unread) {bin : Nat}
    (hbin : bin < RADIX) :
    s.hist (globalRound (x i).iter round % 3) bin = total p r round pfx bin := by
  obtain ⟨hphase, harrived⟩ := (h.placed i hi).scan_phase hpc
  have hge := h.phase_le p.ctas_pos hi
  rw [h.hist _ bin hbin (h.cleared hi (by omega) bin)
    (not_cleared (h.placed 0 p.ctas_pos) (by omega) bin)]
  refine Finset.sum_congr rfl fun j hj => ?_
  have hj' := Finset.mem_range.mp hj
  rw [← (h.placed i hi).due_scan (h.knows i hi) hpc]
  by_cases hmade : globalRound (x i).iter round < (x j).made
  · exact if_pos (Or.inl hmade)
  -- a block that is behind waits with nothing left to add
  · have hpl := h.placed j hj'
    have hskew := h.phase_le hi hj'
    obtain ⟨-, hle⟩ := arrived_le (x j)
    have hjphase := (hpl.made_le _).mp (not_lt.mp hmade)
    have heq : (x j).made = globalRound (x i).iter round := by
      by_contra hne
      have := (hpl.made_le (globalRound (x i).iter round - 1)).mp (by omega)
      have := roundPhase_lt (show globalRound (x i).iter round - 1 < globalRound (x i).iter round
        by omega)
      omega
    obtain ⟨r', round', pfx', rem', adds, clears, hpcj⟩ :=
      hpl.round_of_waits (by rw [heq]; omega) (by omega)
    have hleft := h.behind i hi j hj' (by omega)
    rw [hpcj] at hleft
    refine if_pos (Or.inr ⟨heq.symm, ?_⟩)
    rw [hpcj, (List.append_eq_nil_iff.mp hleft).1]
    rfl

/-! A step of block `i`. -/

variable (hi : i < p.ctasPerGroup)

include hi

theorem hist_silent (hhist : s'.hist = s.hist) (hsilent : Silent p g i (x i) y) :
    ∀ k, ∀ bin < RADIX, Cleared (Function.update x i y 0) k bin →
      ¬Cleared (Function.update x i y 0) (k + 3) bin →
      s'.hist (k % 3) bin =
        ∑ j ∈ Finset.range p.ctasPerGroup, added p g j (Function.update x i y j) k bin := by
  intro k bin hbin hc hnc
  have hclear : ∀ k, Cleared (Function.update x i y 0) k bin ↔ Cleared (x 0) k bin := fun k => by
    rcases eq_or_ne 0 i with rfl | hne
    · rw [Function.update_self]
      exact hsilent.2 rfl k bin hbin
    · rw [Function.update_of_ne hne]
  rw [hhist, h.hist k bin hbin ((hclear _).mp hc) fun h' => hnc ((hclear _).mpr h')]
  refine Finset.sum_congr rfl fun j _ => ?_
  rcases eq_or_ne j i with rfl | hne
  · rw [Function.update_self, hsilent.1 k bin hbin]
  · rw [Function.update_of_ne hne]

/-- The one round that the slot of a block's round is used for is the block's own. -/
theorem round_of_slot {r round pfx rem : Nat} {adds clears : List Nat} {a : Bool}
    (hpc : (x i).pc = .round r round pfx rem adds clears a) {k bin : Nat}
    (hc : Cleared (x 0) k bin) (hnc : ¬Cleared (x 0) (k + 3) bin) (hmod : k % 3 = (x i).made % 3) :
    k = (x i).made := by
  have hphase := (h.placed i hi).round_phase hpc
  have hge := h.phase_le p.ctas_pos hi
  obtain ⟨-, hle⟩ := arrived_le (x i)
  rcases Nat.lt_trichotomy k (x i).made with hlt | heq | hgt
  · have hk3 : roundPhase (k + 3) ≤ roundPhase (x i).made := by
      rcases (show k + 3 ≤ (x i).made by omega).eq_or_lt with heq | hlt'
      · rw [heq]
      · exact (roundPhase_lt hlt').le
    exact absurd (h.cleared hi (by omega) bin) hnc
  · exact heq
  · obtain ⟨j, rfl⟩ : ∃ j, k = j + 3 := ⟨k - 3, by omega⟩
    have hj : roundPhase (x i).made ≤ roundPhase j := by
      rcases (show (x i).made ≤ j by omega).eq_or_lt with heq | hlt'
      · rw [heq]
      · exact (roundPhase_lt hlt').le
    exact absurd hc (not_cleared (h.placed 0 p.ctas_pos) (by omega) bin)

/-- An addition, in the one round that the slot is used for. -/
theorem hist_add {r round pfx rem : Nat} {adds clears : List Nat} {a : Bool} {bin₀ : Nat}
    (hpc : (x i).pc = .round r round pfx rem adds clears a) (hmem : bin₀ ∈ adds)
    (hy : y = { x i with pc := .round r round pfx rem (adds.erase bin₀) clears a })
    (hs : s' = s.add ((x i).made % 3) bin₀ (due p g i (x i).made bin₀)) :
    ∀ k, ∀ bin < RADIX, Cleared (Function.update x i y 0) k bin →
      ¬Cleared (Function.update x i y 0) (k + 3) bin →
      s'.hist (k % 3) bin =
        ∑ j ∈ Finset.range p.ctasPerGroup, added p g j (Function.update x i y j) k bin := by
  intro k bin hbin hc hnc
  have hmade : y.made = (x i).made := by
    rw [hy]
    unfold Cta.made
    rw [hpc]
    rfl
  have hclear : ∀ k, Cleared (Function.update x i y 0) k bin ↔ Cleared (x 0) k bin := fun k => by
    rcases eq_or_ne 0 i with rfl | hne
    · rw [Function.update_self]
      unfold Cleared
      rw [hmade, hy, hpc]
      rfl
    · rw [Function.update_of_ne hne]
  rw [hclear] at hc hnc
  have hadds : adds.Nodup := by
    have hknows := h.knows i hi
    rw [hpc] at hknows
    exact hknows.2.1
  -- what the block has added, before and after
  have hstep : added p g i y k bin = added p g i (x i) k bin +
      if k = (x i).made ∧ bin = bin₀ then due p g i (x i).made bin₀ else 0 := by
    unfold added
    rw [hmade, hy, hpc]
    by_cases hk : k = (x i).made
    · subst hk
      rcases eq_or_ne bin bin₀ with rfl | hne
      · simp [Pc.added, hmem, hadds.not_mem_erase]
      · simp [Pc.added, hne, List.mem_erase_of_ne hne]
    · simp [hk]
  rw [hs, Group.add_hist, h.hist k bin hbin hc hnc,
    ← Finset.add_sum_erase _ _ (Finset.mem_range.mpr hi),
    ← Finset.add_sum_erase (Finset.range p.ctasPerGroup) _ (Finset.mem_range.mpr hi),
    Function.update_self, hstep]
  have hrest : ∑ j ∈ (Finset.range p.ctasPerGroup).erase i,
        added p g j (Function.update x i y j) k bin =
      ∑ j ∈ (Finset.range p.ctasPerGroup).erase i, added p g j (x j) k bin :=
    Finset.sum_congr rfl fun j hj => by rw [Function.update_of_ne (Finset.ne_of_mem_erase hj)]
  rw [hrest]
  by_cases hk : k % 3 = (x i).made % 3
  · obtain rfl := h.round_of_slot hi hpc hc hnc hk
    simp only [true_and]
    omega
  · rw [if_neg fun h' => hk h'.1, if_neg fun h' => hk (by rw [h'.1])]
    omega

/-- Nobody has added in a round that the first block still clears for. -/
theorem added_next {r round pfx rem : Nat} {adds clears : List Nat} {a : Bool} {bin : Nat}
    (h0 : 0 < p.ctasPerGroup) (hpc : (x 0).pc = .round r round pfx rem adds clears a)
    (hmem : bin ∈ clears) : added p g i (x i) ((x 0).made + 1) bin = 0 := by
  have hphase := (h.placed 0 h0).round_phase hpc
  have hskew := h.phase_le hi h0
  obtain ⟨-, hle⟩ := arrived_le (x 0)
  have hlt := roundPhase_lt (show (x 0).made < (x 0).made + 1 by omega)
  unfold added
  refine if_neg ?_
  rintro (hbefore | ⟨hin, hadd⟩)
  · have := ((h.placed i hi).lt_made _).mp hbefore
    omega
  · cases hpci : (x i).pc <;> rw [hpci] at hadd <;>
      simp only [Pc.added, Bool.false_eq_true] at hadd
    have := (h.placed i hi).round_phase hpci
    rw [← hin] at this
    -- the first block is behind, with an access left
    have hleft := h.behind i hi 0 h0 (by omega)
    rw [hpc] at hleft
    rw [(List.append_eq_nil_iff.mp hleft).2] at hmem
    cases hmem

/-- A clearing, for a round that nobody has reached. -/
theorem hist_clear {r round pfx rem : Nat} {adds clears : List Nat} {a : Bool} {bin₀ : Nat}
    (hpc : (x i).pc = .round r round pfx rem adds clears a) (hmem : bin₀ ∈ clears)
    (hy : y = { x i with pc := .round r round pfx rem adds (clears.erase bin₀) a })
    (hs : s' = s.clear (((x i).made + 1) % 3) bin₀) :
    ∀ k, ∀ bin < RADIX, Cleared (Function.update x i y 0) k bin →
      ¬Cleared (Function.update x i y 0) (k + 3) bin →
      s'.hist (k % 3) bin =
        ∑ j ∈ Finset.range p.ctasPerGroup, added p g j (Function.update x i y j) k bin := by
  intro k bin hbin hc hnc
  have hknows := h.knows i hi
  rw [hpc] at hknows
  obtain ⟨-, -, hnodup, hfirst⟩ := hknows
  -- only the first block has anything to clear
  obtain rfl : i = 0 := by
    by_contra hne
    rw [hfirst hne] at hmem
    cases hmem
  have hmade : y.made = (x 0).made := by
    rw [hy]
    unfold Cta.made
    rw [hpc]
    rfl
  rw [Function.update_self] at hc hnc
  have hclear : ∀ k, Cleared y k bin ↔
      Cleared (x 0) k bin ∨ (k = (x 0).made + 1 ∧ bin = bin₀) := fun k => by
    unfold Cleared
    rw [hmade, hy, hpc]
    rcases eq_or_ne bin bin₀ with rfl | hne
    · simp [Pc.cleared, hmem, hnodup.not_mem_erase]
    · simp [Pc.cleared, hne, List.mem_erase_of_ne hne]
  have hadded : ∀ j, added p g j (Function.update x 0 y j) k bin = added p g j (x j) k bin :=
    fun j => by
      rcases eq_or_ne j 0 with rfl | hne
      · rw [Function.update_self]
        unfold added
        rw [hmade, hy, hpc]
        rfl
      · rw [Function.update_of_ne hne]
  rw [hs, Group.clear_hist, Finset.sum_congr rfl fun j _ => hadded j]
  rw [hclear] at hc hnc
  rw [not_or] at hnc
  have hmadek : ∀ k, Cleared (x 0) k bin → k ≤ (x 0).made + 1 := fun k hk =>
    hk.elim (fun h' => by omega) fun h' => h'.1.le
  by_cases hslot : k % 3 = ((x 0).made + 1) % 3 ∧ bin = bin₀
  · obtain ⟨hmod, rfl⟩ := hslot
    rw [if_pos ⟨hmod, rfl⟩]
    have hle : k ≤ (x 0).made + 1 := hc.elim (hmadek k) fun h' => h'.1.le
    have hk : k = (x 0).made + 1 := by
      by_contra hne
      rcases (show k + 3 ≤ (x 0).made + 1 by omega).eq_or_lt with heq | hlt
      · exact hnc.2 ⟨heq, rfl⟩
      · exact hnc.1 (Or.inl (by omega))
    subst hk
    exact (Finset.sum_eq_zero fun j hj =>
      h.added_next (Finset.mem_range.mp hj) hi hpc hmem).symm
  · rw [if_neg hslot]
    refine h.hist k bin hbin ?_ hnc.1
    refine hc.resolve_right fun h' => hslot ⟨?_, h'.2⟩
    rw [h'.1]

/-- A block that is behind has no access left, after the step. -/
theorem behind_step {out out' : Nat → Nat → Int}
    (hstep : CtaStep p short i ⟨x i, s, out⟩ ⟨y, s', out'⟩)
    (hquiet : y.phase ≠ (x i).phase →
      ∀ j < p.ctasPerGroup, (x j).phase = (x i).phase → (x j).pc.left = []) :
    ∀ k < p.ctasPerGroup, ∀ j < p.ctasPerGroup,
      (Function.update x i y j).phase < (Function.update x i y k).phase →
      (Function.update x i y j).pc.left = [] := by
  have hpass : y.phase = (x i).phase ∨ y.phase = (x i).phase + 1 := by
    rcases hstep.barrier with ⟨-, hp, -⟩ | ⟨-, -, hp, -⟩ | ⟨-, -, -, hp, -⟩
    · exact Or.inl hp
    · exact Or.inl hp
    · exact Or.inr hp
  intro k hk j hj hlt
  by_cases hki : k = i
  · -- the block that steps is ahead
    subst hki
    rw [Function.update_self] at hlt
    have hne : j ≠ k := by
      rintro rfl
      rw [Function.update_self] at hlt
      exact lt_irrefl _ hlt
    rw [Function.update_of_ne hne] at hlt ⊢
    rcases hpass with hp | hp
    · exact h.behind k hk j hj (hp ▸ hlt)
    · rcases (show (x j).phase ≤ (x k).phase by omega).eq_or_lt with heq | hlt'
      · exact hquiet (by omega) j hj heq
      · exact h.behind k hk j hj hlt'
  rw [Function.update_of_ne hki] at hlt
  by_cases hji : j = i
  · -- the block that steps is behind: it waits
    subst hji
    rw [Function.update_self] at hlt ⊢
    have hskew := h.phase_le hk hj
    obtain ⟨-, hle⟩ := arrived_le (x j)
    have hbehind := h.behind k hk j hj (by omega)
    exact hstep.left_nil (by omega) hbehind (hpass.resolve_right fun hp => by omega)
  · rw [Function.update_of_ne hji] at hlt ⊢
    exact h.behind k hk j hj hlt

/-- **A quiet step of a block keeps the invariant of its group.** -/
theorem step {out out' : Nat → Nat → Int} (hstep : CtaStep p short i ⟨x i, s, out⟩ ⟨y, s', out'⟩)
    (hquiet : y.phase ≠ (x i).phase →
      ∀ j < p.ctasPerGroup, (x j).phase = (x i).phase → (x j).pc.left = []) :
    Inv p g (Function.update x i y) s' := by
  have hy := hstep.placed (h.placed i hi)
  have hyk : Knows p i y.pc := hstep.knows (h.placed i hi) (h.knows i hi)
    fun _ _ _ _ _ _ hpc _ hbin => h.read hi hpc hbin
  refine ⟨h.toBarriers.step hi hstep, fun j hj => ?_, h.behind_step hi hstep hquiet, ?_⟩
  · rcases eq_or_ne j i with rfl | hne
    · rw [Function.update_self]
      exact hyk
    · rw [Function.update_of_ne hne]
      exact h.knows j hj
  · rcases hstep.slots (h.placed i hi) hy (h.knows i hi) hyk with ⟨hs, hsilent⟩ |
      ⟨r, round, pfx, rem, adds, clears, a, bin, hpc, hmem, hy, hs⟩ |
      ⟨r, round, pfx, rem, adds, clears, a, bin, hpc, hmem, hy, hs⟩
    · exact h.hist_silent hi hs hsilent
    · exact h.hist_add hi hpc hmem hy hs
    · exact h.hist_clear hi hpc hmem hy hs

end Inv

theorem Inv.congr {x' : Nat → Cta} (h : Inv p g x s) (heq : ∀ i < p.ctasPerGroup, x' i = x i) :
    Inv p g x' s := by
  refine ⟨h.toBarriers.congr heq, fun i hi => ?_, fun i hi j hj hlt =>
    ?_, fun k bin hbin hc hnc => ?_⟩
  · rw [heq i hi]
    exact h.knows i hi
  · rw [heq i hi, heq j hj] at hlt
    rw [heq j hj]
    exact h.behind i hi j hj hlt
  · rw [heq 0 p.ctas_pos] at hc hnc
    refine (h.hist k bin hbin hc hnc).trans (Finset.sum_congr rfl fun i hi => ?_)
    rw [heq i (Finset.mem_range.mp hi)]

end Blocks

/-! ## The grid

The groups share nothing but the output, so an invariant of every group is an invariant of the grid.
-/

section Grid

variable {S : p.Schedule} {out₀ : Nat → Nat → Int} {t t' : State} {quiet : Prop}

/-- The blocks of a group. -/
def State.blocks (p : Params) (t : State) (g i : Nat) : Cta := t.cta (g * p.ctasPerGroup + i)

theorem block_lt (hg : g < p.numGroups) (hi : i < p.ctasPerGroup) :
    g * p.ctasPerGroup + i < p.totalCtas :=
  Scatter.digits_lt hg hi

theorem block_div (hi : i < p.ctasPerGroup) : (g * p.ctasPerGroup + i) / p.ctasPerGroup = g := by
  rw [Nat.add_comm, Nat.add_mul_div_right _ _ p.ctas_pos, Nat.div_eq_of_lt hi, Nat.zero_add]

theorem block_mod (hi : i < p.ctasPerGroup) : (g * p.ctasPerGroup + i) % p.ctasPerGroup = i := by
  rw [Nat.add_comm, Nat.add_mul_mod_self_right, Nat.mod_eq_of_lt hi]

theorem blocks_self (c : Nat) : t.blocks p (c / p.ctasPerGroup) (c % p.ctasPerGroup) = t.cta c := by
  unfold State.blocks
  rw [Nat.div_add_mod']

theorem inv_launch (hg : g < p.numGroups) :
    Inv p g ((launch p S out₀).blocks p g) ((launch p S out₀).group g) := by
  refine ⟨⟨fun i hi => ⟨rfl, ⟨Nat.zero_le _, ?_⟩, trivial⟩, ⟨fun _ _ => le_rfl,
    fun _ _ => Nat.zero_le _, fun _ _ _ _ => le_rfl⟩, ?_⟩, fun _ _ => trivial, fun _ _ _ _ _ => rfl,
    fun k bin _ _ _ => ?_⟩
  · show (S.tasks _).filterMap Task.radix? = _
    rw [S.radix (block_lt hg hi), block_div hi]
    rfl
  · exact (Finset.sum_eq_zero fun _ _ => rfl).symm
  · refine (Finset.sum_eq_zero fun i _ => ?_).symm
    exact if_neg (by rintro (h | ⟨-, h⟩) <;> cases h)

/-- A step of the grid is a step of one block of one group. -/
theorem Step.blocks (hstep : Step p short t t') :
    ∃ g₀ < p.numGroups, ∃ i < p.ctasPerGroup, ∃ y s',
      CtaStep p short i ⟨t.blocks p g₀ i, t.group g₀, t.out⟩ ⟨y, s', t'.out⟩ ∧
      (∀ j < p.ctasPerGroup, t'.blocks p g₀ j = Function.update (t.blocks p g₀) i y j) ∧
      t'.group g₀ = s' ∧
      ∀ g, g ≠ g₀ → (∀ j < p.ctasPerGroup, t'.blocks p g j = t.blocks p g j) ∧
        t'.group g = t.group g := by
  obtain ⟨c, hc, hblock⟩ := hstep
  rename_i l
  have hi : c % p.ctasPerGroup < p.ctasPerGroup := Nat.mod_lt _ p.ctas_pos
  rw [← blocks_self (p := p)] at hblock
  refine ⟨c / p.ctasPerGroup, Params.group_lt hc, c % p.ctasPerGroup, hi, l.cta, l.group, hblock,
    fun j hj => ?_, Function.update_self _ _ _, fun g hg => ⟨fun j hj => ?_, ?_⟩⟩
  · show Function.update t.cta c l.cta (_ + j) = _
    rcases eq_or_ne j (c % p.ctasPerGroup) with rfl | hne
    · rw [Nat.div_add_mod', Function.update_self, Function.update_self]
    · rw [Function.update_of_ne hne, Function.update_of_ne]
      · rfl
      · intro heq
        exact hne ((block_mod hj).symm.trans (congrArg (· % p.ctasPerGroup) heq))
  · show Function.update t.cta c l.cta _ = _
    rw [Function.update_of_ne]
    · rfl
    · rintro rfl
      exact hg (block_div hj).symm
  · exact Function.update_of_ne hg _ _

theorem barriers_step (hstep : Step p short t t')
    (h : ∀ g < p.numGroups, Barriers p g (t.blocks p g) (t.group g)) :
    ∀ g < p.numGroups, Barriers p g (t'.blocks p g) (t'.group g) := by
  intro g hg
  obtain ⟨g₀, hg₀, i, hi, y, s', hblock, hblocks, hgroup, hothers⟩ := hstep.blocks
  rcases eq_or_ne g g₀ with rfl | hne
  · rw [hgroup]
    exact ((h g hg).step hi hblock).congr hblocks
  · obtain ⟨hb, hs⟩ := hothers g hne
    rw [hs]
    exact (h g hg).congr hb

/-- **The barriers of every group**, in every reachable state. -/
theorem reachable_barriers (h : Reachable p short quiet S out₀ t) :
    ∀ g < p.numGroups, Barriers p g (t.blocks p g) (t.group g) := by
  induction h with
  | launch => exact fun g hg => (inv_launch hg).toBarriers
  | step _ hstep _ ih => exact barriers_step hstep ih

theorem inv_step (hstep : Step p short t t') (hquiet : Quiet p t t')
    (h : ∀ g < p.numGroups, Inv p g (t.blocks p g) (t.group g)) :
    ∀ g < p.numGroups, Inv p g (t'.blocks p g) (t'.group g) := by
  intro g hg
  obtain ⟨g₀, hg₀, i, hi, y, s', hblock, hblocks, hgroup, hothers⟩ := hstep.blocks
  rcases eq_or_ne g g₀ with rfl | hne
  · rw [hgroup]
    refine ((h g hg).step hi hblock fun hphase j hj heq => ?_).congr hblocks
    have hself := hblocks i hi
    rw [Function.update_self] at hself
    refine hquiet _ (block_lt hg hi) _ (block_lt hg hj) ?_ ?_ heq
    · rw [block_div hi, block_div hj]
    · rw [← hself] at hphase
      exact hphase
  · obtain ⟨hb, hs⟩ := hothers g hne
    rw [hs]
    exact (h g hg).congr hb

/-- **The invariant of every group**, in every state of a quiet launch. -/
theorem quiet_inv (h : Reachable p short quiet S out₀ t) (hq : quiet) :
    ∀ g < p.numGroups, Inv p g (t.blocks p g) (t.group g) := by
  induction h with
  | launch => exact fun g hg => inv_launch hg
  | step _ hstep hquiet ih => exact inv_step hstep (hquiet hq) ih

end Grid

end Ringside.TopkRowspread

import Ringside.RecoverSsm.Fused

/-!
# What becomes of a deferred entry

A fused commit defers the states of its entries. Behind it an entry is taken by the split kernel, by
a flush of absent requests, by the flush of the next preparation, or by the row of the next verify
that it is handed to. This file says that it is one of these places, whatever the batches are.

* What a place takes of an entry is a number of tokens: those that it recovers the state for
  (`splitLen`, `takenLens`, `verifyLen`). `Once` is one of them the whole length, and all others
  nothing.
* Calls are those of `Fused`, in the order of the model runner: a commit, any number of flushes of
  absent requests, a preparation, and the verify that its pending rows are handed to.
* `Apart`: the pending entries end in blocks of their own. Two of them in one block would be one
  row's, and a row takes one.

Results:
* `handed_before`: which row has an entry, where the entries end in blocks of their own; by the
  entries before it, as the kernel's loop goes.
* `once_taken`: one of the calls behind a commit takes a pending entry.
* `disposed_once`: with the split kernel before them, one of the places takes an entry, all that its
  commit planned.
-/

namespace Ringside.RecoverSsm

variable {σ β ρ : Type}

/-- All of `len` in one place, and nothing in any other. -/
inductive Once (len : Nat) : List Nat → Prop where
  | here {l : List Nat} (h : ∀ x ∈ l, x = 0) : Once len (len :: l)
  | later {l : List Nat} (h : Once len l) : Once len (0 :: l)

section Places

variable (recover : ρ → Nat → σ → σ) (nullBlockId : Int)

/-- What the split kernel takes of an entry, where it is launched. -/
def splitLen (c : Context σ β ρ) (b : Batch) (e : Nat) : Nat :=
  if c.rule1HostSkip ∧ b.align.isSome ∧ b.requestIndices.isNone then 0
  else
    let plan := planRow nullBlockId c.specQueryLen b e
    (splitEntry nullBlockId c.specQueryLen b plan.commitLen plan.boundaryStateIdx e).1

/-- What the verify takes of an entry, through the row that has it as its pending entry. -/
def verifyLen (c : Context σ β ρ) (numRows e : Nat) : Nat :=
  if ∃ row < numRows, c.pendEntry row = (e : Int) then c.commitLens e else 0

/-- What the calls behind a commit take of an entry: flushes of absent requests, then the next
preparation and its verify. -/
def takenLens (stateIndices : Option (Nat → Int)) (numRows e : Nat) : Context σ β ρ →
    List (Nat → Nat) → List Nat
  | c, [] =>
    let prepared := prepareFused recover nullBlockId c stateIndices numRows
    [prepared.flushLens e, verifyLen prepared numRows e]
  | c, keepRows :: rest =>
    let flushed := flushAbsent recover nullBlockId c keepRows
    flushed.flushLens e :: takenLens stateIndices numRows e flushed rest

end Places

/-- The pending entries end in blocks of their own. -/
def Apart (c : Context σ β ρ) : Prop :=
  ∀ e < c.nPrev, ∀ e' < c.nPrev, c.commitLens e ≠ 0 → c.commitLens e' ≠ 0 →
    c.finalStateIndices e = c.finalStateIndices e' → e = e'

section Handed

variable {nullBlockId : Int} {c : Context σ β ρ} {rows : Nat → Int} {n e : Nat}

/-- A row that is found verifies from the block. -/
theorem foundRow_spec {idx : Int} (h : 0 ≤ foundRow rows n idx) :
    (foundRow rows n idx).toNat < n ∧ rows (foundRow rows n idx).toNat = idx := by
  unfold foundRow at h ⊢
  induction n with
  | zero => exact absurd h (by simp)
  | succ n ih =>
    rw [List.range_succ, List.foldl_append] at h ⊢
    simp only [List.foldl_cons, List.foldl_nil] at h ⊢
    by_cases hrow : rows n = idx
    · rw [if_pos hrow]
      exact ⟨Nat.lt_succ_self n, hrow⟩
    · rw [if_neg hrow] at h ⊢
      exact ⟨(ih h).1.trans (Nat.lt_succ_self n), (ih h).2⟩

/-- Whether an entry is handed to a row. -/
def Handed (nullBlockId : Int) (c : Context σ β ρ) (rows : Nat → Int) (n e : Nat) : Prop :=
  c.commitLens e ≠ 0 ∧ 0 ≤ foundRow rows n (c.finalStateIndices e) ∧
    c.boundaryStateIndices e ≤ nullBlockId

instance : Decidable (Handed nullBlockId c rows n e) := inferInstanceAs (Decidable (_ ∧ _))

/-- **The rows after the entries before `m`**: a row has an entry exactly where that one is handed
to it. -/
theorem handed_before (hapart : Apart c) {m : Nat} (hm : m ≤ c.nPrev) (row : Nat) (e : Nat) :
    (List.range m).foldl (fun pendEntry e => if Handed nullBlockId c rows n e then
        Function.update pendEntry (foundRow rows n (c.finalStateIndices e)).toNat
          (e : Int) else pendEntry)
        (fun _ => -1) row = (e : Int) ↔
      e < m ∧ Handed nullBlockId c rows n e ∧
        (foundRow rows n (c.finalStateIndices e)).toNat = row := by
  induction m with
  | zero => exact ⟨fun h => absurd h (by simp), fun h => absurd h.1 (Nat.not_lt_zero e)⟩
  | succ m ih =>
    rw [List.range_succ, List.foldl_append]
    simp only [List.foldl_cons, List.foldl_nil]
    by_cases hand : Handed nullBlockId c rows n m
    · rw [if_pos hand]
      by_cases hrow : row = (foundRow rows n (c.finalStateIndices m)).toNat
      · subst hrow
        rw [Function.update_self]
        refine ⟨fun h => ?_, fun ⟨hlt, he, hsame⟩ => ?_⟩
        · have : m = e := by exact_mod_cast h
          subst this
          exact ⟨Nat.lt_succ_self m, hand, rfl⟩
        · have hfinal : c.finalStateIndices e = c.finalStateIndices m := by
            rw [← (foundRow_spec he.2.1).2, ← (foundRow_spec hand.2.1).2, hsame]
          rw [hapart e (by omega) m (by omega) he.1 hand.1 hfinal]
      · rw [Function.update_of_ne hrow, ih (by omega)]
        refine ⟨fun h => ⟨by omega, h.2⟩, fun ⟨hlt, he, hsame⟩ => ⟨?_, he, hsame⟩⟩
        have : e ≠ m := fun heq => hrow (heq ▸ hsame.symm)
        omega
    · rw [if_neg hand, ih (by omega)]
      refine ⟨fun h => ⟨by omega, h.2⟩, fun ⟨hlt, he, hsame⟩ => ⟨?_, he, hsame⟩⟩
      have : e ≠ m := fun heq => hand (heq ▸ he)
      omega

end Handed

section Disposal

variable {recover : ρ → Nat → σ → σ} {nullBlockId : Int} {c c' : Context σ β ρ} {b : Batch}
  {stateIndices : Option (Nat → Int)} {numRows e : Nat}

theorem Once.zero {len : Nat} {l : List Nat} (h : Once len l) (hlen : len = 0) :
    ∀ x ∈ l, x = 0 := by
  induction h with
  | here h => exact List.forall_mem_cons.mpr ⟨hlen, h⟩
  | later _ ih => exact List.forall_mem_cons.mpr ⟨rfl, ih⟩

/-- An entry without tokens is nowhere, one that is handed is the verify's, any other one is
flushed. -/
theorem once_prepared {p : Prop} [Decidable p] (len : Nat) :
    Once len [if len = 0 then 0 else if p then 0 else len, if p then len else 0] := by
  by_cases hzero : len = 0
  · subst hzero
    rw [if_pos rfl, ite_self]
    exact .here fun x hx => List.mem_singleton.mp hx
  · rw [if_neg hzero]
    by_cases hp : p
    · rw [if_pos hp, if_pos hp]
      exact .later (.here fun x hx => absurd hx List.not_mem_nil)
    · rw [if_neg hp, if_neg hp]
      exact .here fun x hx => List.mem_singleton.mp hx

/-- What a preparation flushes of an entry. -/
theorem prepareFused_flushLens (hactive : c.pendingActive = true) (he : e < c.nPrev) :
    let rows := if 0 < numRows then stateIndices.getD c.pendSrc else c.pendSrc
    let n := if stateIndices.isSome then numRows else 0
    (prepareFused recover nullBlockId c stateIndices numRows).flushLens e =
      if c.commitLens e = 0 then 0 else if Handed nullBlockId c rows n e then 0
        else c.commitLens e := by
  unfold prepareFused
  dsimp only
  rw [if_pos hactive]
  exact if_pos he

/-- A verify takes an entry that is handed to a row, and no other. -/
theorem verifyLen_prepared (hapart : Apart c) (hactive : c.pendingActive = true)
    (he : e < c.nPrev) :
    let rows := if 0 < numRows then stateIndices.getD c.pendSrc else c.pendSrc
    let n := if stateIndices.isSome then numRows else 0
    verifyLen (prepareFused recover nullBlockId c stateIndices numRows) numRows e =
      if Handed nullBlockId c rows n e then c.commitLens e else 0 := by
  intro rows n
  have hn : n ≤ numRows := by
    by_cases hsome : stateIndices.isSome = true
    · exact (if_pos hsome).le
    · exact (if_neg hsome).le.trans (Nat.zero_le numRows)
  have hentry : ∀ row, (prepareFused recover nullBlockId c stateIndices numRows).pendEntry
    row = (e : Int) ↔ e < c.nPrev ∧ Handed nullBlockId c rows n e ∧
      (foundRow rows n (c.finalStateIndices e)).toNat = row := by
    intro row
    rw [← handed_before hapart le_rfl row e]
    unfold prepareFused
    dsimp only
    rw [if_pos hactive]
    rfl
  have hlens : (prepareFused recover nullBlockId c stateIndices numRows).commitLens =
    c.commitLens := by
    unfold prepareFused
    dsimp only
    rw [if_pos hactive]
    rfl
  unfold verifyLen
  rw [hlens]
  refine if_congr ⟨fun ⟨row, _, hrow⟩ => ((hentry row).mp hrow).2.1, fun hand => ?_⟩ rfl rfl
  exact ⟨_, (foundRow_spec hand.2.1).1.trans_le hn, (hentry _).mpr ⟨he, hand, rfl⟩⟩

/-- What a flush of absent requests leaves of an entry. -/
theorem flushAbsent_lens {keepRows : Nat → Nat} (hactive : c.pendingActive = true)
    (he : e < c.nPrev) :
    (flushAbsent recover nullBlockId c keepRows).flushLens e = c.commitLens e ∧
        (flushAbsent recover nullBlockId c keepRows).commitLens e = 0 ∨
      (flushAbsent recover nullBlockId c keepRows).flushLens e = 0 ∧
        (flushAbsent recover nullBlockId c keepRows).commitLens e = c.commitLens e := by
  unfold flushAbsent
  rw [if_pos hactive]
  have hflush : (flushPending recover nullBlockId (absentBatch c keepRows)).flushLens e =
      if 0 < c.commitLens e ∧ keepRows (c.rowOf e) = 0 then c.commitLens e else 0 := if_pos he
  have hcommit : (flushPending recover nullBlockId (absentBatch c keepRows)).commitLens e =
      if 0 < c.commitLens e ∧ keepRows (c.rowOf e) = 0 then 0 else c.commitLens e := if_pos he
  rw [hflush, hcommit]
  by_cases hkeep : 0 < c.commitLens e ∧ keepRows (c.rowOf e) = 0
  · rw [if_pos hkeep, if_pos hkeep]
    exact .inl ⟨rfl, rfl⟩
  · rw [if_neg hkeep, if_neg hkeep]
    exact .inr ⟨rfl, rfl⟩

/-- A flush of absent requests keeps what the entries are. -/
theorem flushAbsent_keeps {keepRows : Nat → Nat} (hactive : c.pendingActive = true) :
    (flushAbsent recover nullBlockId c keepRows).nPrev = c.nPrev ∧
      (flushAbsent recover nullBlockId c keepRows).pendingActive = true ∧
      (flushAbsent recover nullBlockId c keepRows).finalStateIndices = c.finalStateIndices := by
  unfold flushAbsent
  rw [if_pos hactive]
  exact ⟨rfl, hactive, rfl⟩

theorem Apart.flushAbsent {keepRows : Nat → Nat} (hapart : Apart c)
    (hactive : c.pendingActive = true) :
    Apart (flushAbsent recover nullBlockId c keepRows) := by
  obtain ⟨hprev, -, hfinal⟩ := @flushAbsent_keeps _ _ _ recover nullBlockId c keepRows hactive
  have hlive : ∀ e < c.nPrev, (RecoverSsm.flushAbsent recover nullBlockId c
    keepRows).commitLens e ≠ 0 → c.commitLens e ≠ 0 := by
    intro e he hne
    obtain ⟨-, hzero⟩ | ⟨-, hsame⟩ := @flushAbsent_lens _ _ _ recover nullBlockId c e
      keepRows hactive he
    · exact absurd hzero hne
    · exact hsame ▸ hne
  intro e he e' he' hne hne' heq
  rw [hprev] at he he'
  rw [hfinal] at heq
  exact hapart e he e' he' (hlive e he hne) (hlive e' he' hne') heq

/-- **One of the calls behind a commit takes a pending entry.** -/
theorem once_taken {len : Nat} {keeps : List (Nat → Nat)} (hapart : Apart c)
    (hactive : c.pendingActive = true)
    (he : e < c.nPrev) (hlen : c.commitLens e = len) :
    Once len (takenLens recover nullBlockId stateIndices numRows e c keeps) := by
  induction keeps generalizing c len with
  | nil =>
    unfold takenLens
    dsimp only
    rw [prepareFused_flushLens hactive he, verifyLen_prepared hapart hactive he, hlen]
    exact once_prepared len
  | cons keepRows keeps ih =>
    unfold takenLens
    dsimp only
    obtain ⟨hprev, hactive', -⟩ := @flushAbsent_keeps _ _ _ recover nullBlockId c keepRows hactive
    have hrest := fun l => @ih (flushAbsent recover nullBlockId c keepRows) l
      (hapart.flushAbsent hactive) hactive' (hprev ▸ he)
    obtain ⟨hflush, hcommit⟩ | ⟨hflush, hcommit⟩ :=
      @flushAbsent_lens _ _ _ recover nullBlockId c e keepRows hactive he
    · rw [hflush, hlen]
      exact .here ((hrest 0 hcommit).zero rfl)
    · rw [hflush]
      exact .later (hrest len (hcommit.trans hlen))

/-- The split kernel takes all of an entry or nothing. -/
theorem splitEntry_cases {specQueryLen commitLen : Nat} {boundaryStateIdx : Int} :
    (splitEntry nullBlockId specQueryLen b commitLen boundaryStateIdx e).1 = commitLen ∧
        (splitEntry nullBlockId specQueryLen b commitLen boundaryStateIdx e).2.1 = 0 ∨
      (splitEntry nullBlockId specQueryLen b commitLen boundaryStateIdx e).1 = 0 ∧
        (splitEntry nullBlockId specQueryLen b commitLen boundaryStateIdx e).2.1 = commitLen := by
  unfold splitEntry
  dsimp only
  split_ifs
  · exact .inl ⟨rfl, rfl⟩
  · exact .inr ⟨rfl, rfl⟩

/-- What a fused commit leaves pending behind its plan. -/
theorem foldBatch_deferred (hfused : c.fused = true)
    (h : foldBatch recover nullBlockId c b = .ok c') :
    c'.nPrev = b.batch ∧ c'.pendingActive = true ∧ c'.finalStateIndices = c.finalStateIndices ∧
      ∀ e < b.batch, c'.commitLens e =
        if c.rule1HostSkip ∧ b.align.isSome ∧ b.requestIndices.isNone then c.commitLens e
        else
          (splitEntry nullBlockId c.specQueryLen b (c.commitLens e) (c.boundaryStateIndices e)
            e).2.1 := by
  unfold foldBatch at h
  rw [if_pos hfused] at h
  by_cases hmode : b.align.isSome ∧ ¬c.alignMode
  · rw [if_pos hmode] at h
    cases h
  rw [if_neg hmode] at h
  by_cases hskip : c.rule1HostSkip ∧ b.align.isSome ∧ b.requestIndices.isNone
  · rw [if_pos hskip] at h
    cases h
    exact ⟨rfl, rfl, rfl, fun e _ => (if_pos hskip).symm⟩
  · rw [if_neg hskip] at h
    cases h
    have hsplit : (splitBatch recover nullBlockId c b).finalStateIndices = c.finalStateIndices ∧
        (splitBatch recover nullBlockId c b).commitLens = launch b.batch (fun e =>
          (splitEntry nullBlockId c.specQueryLen b (c.commitLens e) (c.boundaryStateIndices e)
            e).2.1) c.commitLens := by
      unfold splitBatch
      dsimp only
      split <;> exact ⟨rfl, rfl⟩
    refine ⟨rfl, rfl, hsplit.1, fun e he => ?_⟩
    rw [if_neg hskip]
    exact (congrFun hsplit.2 e).trans (if_pos he)

/-- **Every deferred entry is taken once**: by the split kernel, by a flush, or by the row of the
next verify, however many flushes of absent requests come before it. -/
theorem disposed_once {keeps : List (Nat → Nat)} (hfused : c.fused = true)
    (hcommit : commit recover nullBlockId c b = .ok c') (he : e < b.batch)
    (hblocks : ∀ e < b.batch, ∀ e' < b.batch,
      (planRow nullBlockId c.specQueryLen b e).commitLen ≠ 0 →
      (planRow nullBlockId c.specQueryLen b e').commitLen ≠ 0 →
      (planRow nullBlockId c.specQueryLen b e).finalStateIdx =
      (planRow nullBlockId c.specQueryLen b e').finalStateIdx →
      e = e') :
    Once (planRow nullBlockId c.specQueryLen b e).commitLen
      (splitLen nullBlockId c b e :: takenLens recover nullBlockId stateIndices numRows e
        c' keeps) := by
  unfold commit at hcommit
  rw [if_neg (Nat.ne_zero_of_lt he)] at hcommit
  cases hcheck : checkBatch c b with
  | error message =>
    rw [hcheck] at hcommit
    cases hcommit
  | ok =>
    rw [hcheck] at hcommit
    have hfused' : (planBatch nullBlockId c b).fused = true := hfused
    obtain ⟨hprev, hactive, hfinal, hlens⟩ := foldBatch_deferred hfused' hcommit
    have hplan : ∀ e < b.batch, (planBatch nullBlockId c b).commitLens e =
      (planRow nullBlockId c.specQueryLen b e).commitLen ∧
        (planBatch nullBlockId c b).boundaryStateIndices e =
        (planRow nullBlockId c.specQueryLen b e).boundaryStateIdx ∧
        c'.finalStateIndices e = (planRow nullBlockId c.specQueryLen b e).finalStateIdx :=
      fun e he => ⟨if_pos he, if_pos he, hfinal ▸ if_pos he⟩
    have hsplit : ∀ e < b.batch,
        splitLen nullBlockId c b e = (planRow nullBlockId c.specQueryLen b e).commitLen ∧
        c'.commitLens e = 0 ∨ splitLen nullBlockId c b e = 0 ∧ c'.commitLens e =
          (planRow nullBlockId c.specQueryLen b e).commitLen := by
      intro e he
      rw [hlens e he, (hplan e he).1, (hplan e he).2.1]
      unfold splitLen
      by_cases hskip : c.rule1HostSkip ∧ b.align.isSome ∧ b.requestIndices.isNone
      · have hskip' : (planBatch nullBlockId c b).rule1HostSkip ∧ b.align.isSome ∧
          b.requestIndices.isNone := hskip
        rw [if_pos hskip, if_pos hskip']
        exact .inr ⟨rfl, rfl⟩
      · have hskip' : ¬((planBatch nullBlockId c b).rule1HostSkip ∧ b.align.isSome ∧
          b.requestIndices.isNone) := hskip
        rw [if_neg hskip, if_neg hskip']
        exact splitEntry_cases
    have hapart : Apart c' := by
      have hlive : ∀ e < b.batch, c'.commitLens e ≠ 0 →
        (planRow nullBlockId c.specQueryLen b e).commitLen ≠ 0 := by
        intro e he hne
        obtain ⟨-, hzero⟩ | ⟨-, hsame⟩ := hsplit e he
        · exact absurd hzero hne
        · exact hsame ▸ hne
      intro e he e' he' hne hne' heq
      rw [hprev] at he he'
      rw [(hplan e he).2.2, (hplan e' he').2.2] at heq
      exact hblocks e he e' he' (hlive e he hne) (hlive e' he' hne') heq
    have htaken : ∀ len, c'.commitLens e = len →
      Once len (takenLens recover nullBlockId stateIndices numRows e c' keeps) :=
      fun len hlen => once_taken hapart hactive (hprev ▸ he) hlen
    obtain ⟨hsplit, hlen⟩ | ⟨hsplit, hlen⟩ := hsplit e he
    · rw [hsplit]
      exact .here ((htaken 0 hlen).zero rfl)
    · rw [hsplit]
      exact .later (htaken _ hlen)

/-- One request with 5 tokens computed in block 3, two of them accepted: the row that verifies from
block 3 takes them. -/
theorem one_row_once :
    let c : Context Nat Nat Nat :=
      ⟨8, 4, 1, 3, true, true, fun _ => 0, fun _ _ h => h, fun _ _ => 0, fun _ => 0, fun _ =>
        0, fun _ => 0, fun _ => 0,
        fun _ => 0, fun _ => -1, fun _ => 0, none, fun _ => 0, 0, false, false, false⟩
    let recover : Nat → Nat → Nat → Nat := fun records len state => records + len + state
    let c' := defer { splitBatch recover 0 (planBatch 0 c (oneRow 2)) (oneRow 2) with
      pendMap := some .pendRow } (oneRow 2)
    Once (planRow 0 4 (oneRow 2) 0).commitLen
        (splitLen 0 c (oneRow 2) 0 :: takenLens recover 0 (some fun _ => 3) 1 0 c' [fun _ => 1]) ∧
      (planRow 0 4 (oneRow 2) 0).commitLen = 2 := by
  intro c recover c'
  have hcommit : commit recover 0 c (oneRow 2) = .ok c' := rfl
  refine ⟨disposed_once rfl hcommit Nat.one_pos fun e he e' he' _ _ _ => ?_, by decide⟩
  have hbatch : (oneRow 2).batch = 1 := rfl
  omega

end Disposal

end Ringside.RecoverSsm

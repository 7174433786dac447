import Mathlib.Logic.Function.Basic
import Mathlib.Tactic

/-!
# The plan of a RecoverSSM commit (`models/glm5next/nvidia/ops/recoverssm.py`)

Model of `_prepare_commit_plan_kernel` and `_compact_conv_state_kernel`. For each row of a
speculative batch the plan says how many tokens are committed, which block gets the final state and,
where the accepted tokens reach a block boundary, which block gets the boundary state. The
compaction then moves the convolution history of the row's block.

* A row's block table is a function of the column; indices at or below `nullBlockId` name no block.
* A plan's row does not depend on the other rows, so it is a function of the entry (`planRow`). The
  programs of the launch store to rows of their own.
* `Align` is what a commit gets in align mode; without it there is no boundary state, and the final
  state stays in the running block.
* `conv idx d h` is dimension `d` of a block's window at `h`. A program loads both histories of its
  entry before it stores.

Results:
* `planRow_of_valid`: the plan of a row with a state and a token to commit.
* `next_boundary_unique`: the next multiple of the block size is the only one that a window reaches.
-/

namespace Ringside.RecoverSsm

/-- What a commit gets in align mode. -/
structure Align where
  blockTable : Nat → Nat → Int
  blockTableWidth : Nat
  numComputedTokens : Nat → Nat
  mambaBlockSize : Nat

/-- The arguments of a commit. -/
structure Batch where
  batch : Nat
  numAcceptedTokens : Nat → Int
  stateIndices : Nat → Int
  queryStartLoc : Nat → Nat
  requestIndices : Option (Nat → Nat)
  align : Option Align

/-- The batch row of an entry. -/
def Batch.row (b : Batch) (e : Nat) : Nat := b.requestIndices.elim e fun indices => indices e

/-- `query_len`. -/
def Batch.queryLen (b : Batch) (e : Nat) : Nat := b.queryStartLoc (e + 1) - b.queryStartLoc e

/-- One request with 5 tokens computed in block 3, blocks of 16 tokens and a window of four. -/
def oneRow (accepted : Int) : Batch where
  batch := 1
  numAcceptedTokens := fun _ => accepted
  stateIndices := fun _ => 3
  queryStartLoc := fun i => 4 * i
  requestIndices := none
  align := some ⟨fun _ column => if column = 0 then 3 else 0, 8, fun _ => 5, 16⟩

/-- What the plan says of an entry. -/
structure PlanRow where
  commitLen : Nat
  finalStateIdx : Int
  boundaryStateIdx : Int
  boundaryRecoveryLen : Nat
  deriving DecidableEq

section Kernels

variable (nullBlockId : Int) (specQueryLen : Nat) (b : Batch)

/-- `commit_len` of an entry. -/
def Batch.accepted (e : Nat) : Nat :=
    min (min (b.numAcceptedTokens (b.row e)).toNat (b.queryLen e)) specQueryLen

/-- `_prepare_commit_plan_kernel`. -/
def planRow (e : Nat) : PlanRow :=
  let sourceStateIdx := b.stateIndices e
  let commitLen := b.accepted specQueryLen e
  let (finalStateIdx, boundaryStateIdx, boundaryRecoveryLen) : Int × Int × Nat :=
    match b.align with
    | some a =>
      let numComputed := a.numComputedTokens (b.row e)
      let finalNumComputed := numComputed + commitLen
      let finalStateCol := min ((finalNumComputed - 1) / a.mambaBlockSize) (a.blockTableWidth - 1)
      let nextBoundary := (numComputed / a.mambaBlockSize + 1) * a.mambaBlockSize
      let crossesBoundary := nextBoundary ≤ finalNumComputed
      (a.blockTable (b.row e) finalStateCol,
        if crossesBoundary then a.blockTable (b.row e) (nextBoundary / a.mambaBlockSize - 1)
          else nullBlockId, nextBoundary - numComputed)
    | none => (sourceStateIdx, nullBlockId, 0)
  if nullBlockId < sourceStateIdx ∧ 0 < commitLen then
    ⟨commitLen, finalStateIdx, boundaryStateIdx, boundaryRecoveryLen⟩
  else ⟨0, nullBlockId, nullBlockId, 0⟩

variable {β : Type} (alignMode : Bool) (convDim convHistoryLen : Nat)

/-- A masked store of a history. -/
def storeHistory (conv : Int → Nat → Nat → β) (idx : Int) (values : Nat → Nat → β) : Int →
    Nat → Nat → β :=
  Function.update conv idx fun d h => if d < convDim ∧ h < convHistoryLen then values d h
    else conv idx d h

/-- `_compact_conv_state_kernel` for an entry and a layer: `conv idx d h` is dimension `d` of a
block's window at `h`. Both histories are loaded before either is stored. -/
def compactConv (sourceStateIdx : Int) (p : PlanRow) (conv : Int → Nat → Nat → β) : Int →
    Nat → Nat → β :=
  if sourceStateIdx ≤ nullBlockId then conv
  else if p.commitLen = 0 then conv
  else if p.finalStateIdx ≤ nullBlockId then conv
  else
    let finalValues := fun d h => conv sourceStateIdx d (p.commitLen - 1 + h)
    let boundaryValues := fun d h => conv sourceStateIdx d (p.boundaryRecoveryLen - 1 + h)
    let conv :=
      if alignMode ∧ nullBlockId < p.boundaryStateIdx then
        storeHistory convDim convHistoryLen conv p.boundaryStateIdx boundaryValues
      else conv
    storeHistory convDim convHistoryLen conv p.finalStateIdx finalValues

end Kernels

/-! ## Rows with a state -/

section Rows

variable {nullBlockId : Int} {specQueryLen : Nat} {b : Batch} {e : Nat}

theorem accepted_le : b.accepted specQueryLen e ≤ b.queryLen e :=
    (min_le_left _ _).trans (min_le_right _ _)

theorem accepted_le_spec : b.accepted specQueryLen e ≤ specQueryLen := min_le_right _ _

/-- **The plan of a row that has a state and commits a token**, in align mode. -/
theorem planRow_of_valid {a : Align} (ha : b.align = some a) (hidx : nullBlockId < b.stateIndices e)
    (hpos : 0 < b.accepted specQueryLen e) :
    planRow nullBlockId specQueryLen b e =
      { commitLen := b.accepted specQueryLen e
        finalStateIdx := a.blockTable (b.row e)
          (min ((a.numComputedTokens (b.row e) + b.accepted specQueryLen e - 1) / a.mambaBlockSize)
            (a.blockTableWidth - 1))
        boundaryStateIdx :=
          if (a.numComputedTokens (b.row e) / a.mambaBlockSize + 1) * a.mambaBlockSize ≤
              a.numComputedTokens (b.row e) + b.accepted specQueryLen e then
            a.blockTable (b.row e)
              ((a.numComputedTokens (b.row e) / a.mambaBlockSize + 1) * a.mambaBlockSize /
                a.mambaBlockSize - 1)
          else nullBlockId
        boundaryRecoveryLen :=
          (a.numComputedTokens (b.row e) / a.mambaBlockSize + 1) * a.mambaBlockSize -
            a.numComputedTokens (b.row e) } := by
  unfold planRow
  rw [ha]
  exact if_pos ⟨hidx, hpos⟩

/-- A row without a state, or with nothing to commit, is planned empty. -/
theorem planRow_of_invalid
    (h : ¬ (nullBlockId < b.stateIndices e ∧ 0 < b.accepted specQueryLen e)) :
    planRow nullBlockId specQueryLen b e = ⟨0, nullBlockId, nullBlockId, 0⟩ := by
  unfold planRow
  exact if_neg h

end Rows

/-! ## Block boundaries -/

section Boundary

variable {B nc a m : Nat}

theorem lt_next_boundary (hB : 0 < B) : nc < (nc / B + 1) * B := by
  rw [Nat.succ_mul]
  exact Nat.lt_div_mul_add hB

/-- The next boundary is the least multiple behind `nc`. -/
theorem next_boundary_le (hm : B ∣ m) (h : nc < m) : (nc / B + 1) * B ≤ m := by
  obtain ⟨k, rfl⟩ := hm
  rw [Nat.mul_comm B k] at h ⊢
  exact Nat.mul_le_mul_right B (Nat.div_lt_of_lt_mul (by rwa [Nat.mul_comm]))

/-- **A window of at most a block reaches no other multiple** of the block size than the next one.
-/
theorem next_boundary_unique (hB : 0 < B) (hm : B ∣ m) (h : nc < m) (hle : m ≤ nc + a)
    (ha : a ≤ B) :
    m = (nc / B + 1) * B := by
  refine le_antisymm ?_ (next_boundary_le hm h)
  by_contra hgt
  have hstep : (nc / B + 1) * B + B ≤ m := by
    have hd : B ∣ m - (nc / B + 1) * B := Nat.dvd_sub hm (Nat.dvd_mul_left B _)
    have := Nat.le_of_dvd (by omega) hd
    omega
  have := @lt_next_boundary _ nc hB
  omega

end Boundary

end Ringside.RecoverSsm

import Ringside.MambaBlocks
import Ringside.RecoverSsm.Plan

/-!
# The columns of a commit plan

The state after `p` tokens belongs in column `cdiv(p, B) - 1` of a request's row. The plan sends the
final state and the boundary state there, and the scheduler has allocated both columns. The running
column is where the window was verified from, so source and destination are often the same block:
the compaction then moves the convolution history in place.

* The plan is the kernel's (`Plan.planRow`); the row that it reads is what the block manager
  allocated (`MambaBlocks.allocateNewBlocks`) for the tokens of the step.
* The compaction loads both histories of a block before it stores either, so in place each of its
  columns gets what another one held before the launch.

Results:
* `column_boundary`: the column that a boundary completes.
* `compact_in_place`: in place, the history is the window from the last accepted token on.
* `compact_one`: one accepted token moves nothing.
* `commit_columns`: where the plan of a row sends its states, and that the columns are allocated.
* `compact_moves`: in place, two accepted tokens move the history.

Out of scope: which block of the pool a column holds, and who else reads it.
-/

namespace Ringside.RecoverSsm

open Ringside.Checkpoint (cdiv column cdiv_mono cdiv_pos cdiv_mul)
open Ringside.MambaBlocks

section Columns

variable {B p q : Nat}

/-- The plan rounds down what is one short. -/
theorem column_eq (hB : 0 < B) (h : 0 < p) : column B p = (p - 1) / B := by
  unfold column cdiv
  rw [show p + B - 1 = p - 1 + B by omega, Nat.add_div_right _ hB]
  rfl

/-- **The column that a boundary completes.** -/
theorem column_boundary (hB : 0 < B) (h : B ∣ p) : column B p = p / B - 1 := by
  obtain ⟨k, rfl⟩ := h
  rw [column, Nat.mul_comm, cdiv_mul hB, Nat.mul_div_cancel _ hB]

/-- A column of fewer tokens is allocated when more are. -/
theorem column_lt (hB : 0 < B) (hp : 0 < p) (h : p ≤ q) : column B p < cdiv q B := by
  have h1 := cdiv_pos hB hp
  have h2 := @cdiv_mono B _ _ h
  unfold column
  omega

end Columns

/-! ## The compaction in place

Source and destination of the history may be the same block; what is stored is what that block held
before the launch.
-/

section Compact

variable {β : Type} {nullBlockId sourceStateIdx : Int} {alignMode : Bool}
    {convDim convHistoryLen d h : Nat}
  {plan : PlanRow} {conv : Int → Nat → Nat → β}

/-- **In place the history is the window from the last accepted token on**, as it was before the
launch. -/
theorem compact_in_place (hsource : nullBlockId < sourceStateIdx)
    (hsame : plan.finalStateIdx = sourceStateIdx)
    (hlen : plan.commitLen ≠ 0) (hd : d < convDim) (hh : h < convHistoryLen) :
    compactConv nullBlockId alignMode convDim convHistoryLen sourceStateIdx plan
      conv sourceStateIdx d h =
      conv sourceStateIdx d (plan.commitLen - 1 + h) := by
  unfold compactConv
  rw [hsame, if_neg (not_le.mpr hsource), if_neg hlen, if_neg (not_le.mpr hsource)]
  simp only [storeHistory, Function.update_self, if_pos (And.intro hd hh)]

/-- Storing what is there changes nothing. -/
theorem storeHistory_same {idx : Int} {values : Nat → Nat → β}
    (h : ∀ d h, d < convDim → h < convHistoryLen → values d h = conv idx d h) :
    storeHistory convDim convHistoryLen conv idx values = conv := by
  unfold storeHistory
  rw [Function.update_eq_self_iff]
  funext d k
  split_ifs with hc
  · exact h d k hc.1 hc.2
  · rfl

/-- **One accepted token moves nothing in place.** -/
theorem compact_one (hsame : plan.finalStateIdx = sourceStateIdx) (hlen : plan.commitLen = 1)
    (hboundary : nullBlockId < plan.boundaryStateIdx →
      plan.boundaryStateIdx = sourceStateIdx ∧ plan.boundaryRecoveryLen = 1) :
    compactConv nullBlockId alignMode convDim convHistoryLen sourceStateIdx plan conv = conv := by
  have hself : ∀ d k, d < convDim → k < convHistoryLen →
    conv sourceStateIdx d (1 - 1 + k) = conv sourceStateIdx d k :=
    fun d k _ _ => by rw [Nat.sub_self, Nat.zero_add]
  unfold compactConv
  rw [hlen, hsame]
  by_cases hsource : sourceStateIdx ≤ nullBlockId
  · rw [if_pos hsource]
  rw [if_neg hsource, if_neg Nat.one_ne_zero, if_neg hsource]
  dsimp only
  by_cases hstore : alignMode ∧ nullBlockId < plan.boundaryStateIdx
  · obtain ⟨hb, hr⟩ := hboundary hstore.2
    rw [if_pos hstore, hb, hr, storeHistory_same hself, storeHistory_same hself]
  · rw [if_neg hstore, storeHistory_same hself]

end Compact

/-! ## The plan -/

section Plan

variable {nullBlockId : Int} {specQueryLen : Nat} {b : Batch} {e : Nat} {a : Align}
    {acc scheduled : Nat}
  {writable : Option Nat → Bool} {m m' : Manager} {returned : List (Option Nat)}

/-- What the plan of a row that accepts `acc` tokens keeps to; `columns` are allocated. -/
structure ColumnsRight (nullBlockId : Int) (a : Align) (row nc acc columns : Nat)
    (sourceStateIdx : Int) (p : PlanRow) :
    Prop where
  commit_len : p.commitLen = acc
  final : p.finalStateIdx = a.blockTable row (column a.mambaBlockSize (nc + acc))
  final_allocated : column a.mambaBlockSize (nc + acc) < columns
  boundary : ∀ m, a.mambaBlockSize ∣ m → nc < m → m ≤ nc + acc →
    p.boundaryStateIdx = a.blockTable row (column a.mambaBlockSize m) ∧
    p.boundaryRecoveryLen = m - nc ∧
      column a.mambaBlockSize m = m / a.mambaBlockSize - 1 ∧ column a.mambaBlockSize m < columns
  no_boundary : (∀ m, a.mambaBlockSize ∣ m → nc < m → nc + acc < m) →
    p.boundaryStateIdx = nullBlockId
  in_place : ∀ {β : Type} (convDim convHistoryLen : Nat) (conv : Int → Nat → Nat → β),
    p.finalStateIdx = sourceStateIdx →
      (∀ d < convDim, ∀ h < convHistoryLen,
        compactConv nullBlockId true convDim convHistoryLen sourceStateIdx p
        conv sourceStateIdx d h = conv sourceStateIdx d (acc - 1 + h)) ∧
      (acc = 1 → compactConv nullBlockId true convDim convHistoryLen sourceStateIdx p conv = conv)

/-- **The plan sends the states of a row to their columns**, which are allocated for the tokens of
the step. -/
theorem commit_columns (halign : b.align = some a) (hspec : specQueryLen ≤ a.mambaBlockSize)
    (hidx : nullBlockId < b.stateIndices e) (hq : b.queryLen e ≤ specQueryLen)
    (hacc : b.numAcceptedTokens (b.row e) = acc) (hpos : 1 ≤ acc) (hle : acc ≤ b.queryLen e)
    (hsize : m.blockSize = a.mambaBlockSize) (hscheduled : b.queryLen e ≤ scheduled)
    (halloc : allocateNewBlocks writable m (a.numComputedTokens (b.row e) + scheduled) =
      .ok (m', returned))
    (hwidth : m'.reqBlocks.length ≤ a.blockTableWidth) :
    ColumnsRight nullBlockId a (b.row e) (a.numComputedTokens (b.row e)) acc m'.reqBlocks.length
      (b.stateIndices e)
        (planRow nullBlockId specQueryLen b e) := by
  have hB : 0 < a.mambaBlockSize := by omega
  have haccepted : b.accepted specQueryLen e = acc := by
    unfold Batch.accepted
    rw [hacc, Int.toNat_natCast]
    omega
  have hcovers : cdiv (a.numComputedTokens (b.row e) + scheduled) a.mambaBlockSize ≤
    m'.reqBlocks.length :=
    hsize ▸ (Nat.le_add_right _ _).trans (allocate_covers halloc)
  rw [planRow_of_valid halign hidx (by omega), haccepted]
  generalize a.numComputedTokens (b.row e) = nc at *
  generalize m'.reqBlocks.length = columns at *
  have hcolumn : ∀ p, 0 < p → p ≤ nc + acc → column a.mambaBlockSize p < columns := fun p hp hle' =>
    (column_lt hB hp (by omega)).trans_le hcovers
  have hfinal : min ((nc + acc - 1) / a.mambaBlockSize) (a.blockTableWidth - 1) =
    column a.mambaBlockSize (nc + acc) := by
    have := hcolumn (nc + acc) (by omega) le_rfl
    rw [← column_eq hB (by omega)]
    omega
  have hnext := @lt_next_boundary _ nc hB
  have hdvd : a.mambaBlockSize ∣ (nc / a.mambaBlockSize + 1) * a.mambaBlockSize :=
    Nat.dvd_mul_left _ _
  rw [hfinal]
  constructor
  · rfl
  · rfl
  · exact hcolumn _ (by omega) le_rfl
  · intro p hp hlt hreach
    have hpnext := next_boundary_unique hB hp hlt hreach (by omega)
    have hcol := column_boundary hB hp
    refine ⟨?_, by rw [hpnext], hcol, hcolumn p (by omega) hreach⟩
    dsimp only
    rw [← hpnext, if_pos hreach, hcol]
  · intro hnone
    dsimp only
    rw [if_neg (not_le.mpr (hnone _ hdvd hnext))]
  · intro β convDim convHistoryLen conv hsame
    refine ⟨fun d hd h hh => ?_, fun hone => compact_one hsame hone fun hboundary => ?_⟩
    · have hlen : acc ≠ 0 := by omega
      exact compact_in_place hidx hsame hlen hd hh
    · -- one token that reaches the boundary lands on it
      dsimp only at hboundary hsame ⊢
      split_ifs at hboundary ⊢ with hreach
      · have hland : (nc / a.mambaBlockSize + 1) * a.mambaBlockSize = nc + acc := by omega
        rw [hland, ← hsame, ← column_boundary hB (hland ▸ hdvd)]
        exact ⟨rfl, by omega⟩
      · exact absurd hboundary (lt_irrefl _)

/-- What the manager holds of the request: block 3, and no scratch blocks. -/
def oneBlock : Manager := ⟨16, 0, [some 3], true, none, 0, none, [], [7, 8]⟩

/-- The plan of two accepted tokens. -/
theorem one_row_columns : ColumnsRight 0 ⟨fun _ column => if column = 0 then 3 else 0, 8, fun _ =>
    5, 16⟩ 0 5 2 1 3
      (planRow 0 4 (oneRow 2) 0) :=
  @commit_columns _ _ (oneRow 2) 0 _ _ 4 (fun _ => true) oneBlock _ [] rfl (by decide) (by decide)
    (by decide) rfl (by decide) (by decide) rfl (by decide) rfl (by decide)

/-- **In place, two accepted tokens move the history**: source and destination are block 3, and its
first column gets the second one's value. -/
theorem compact_moves : (planRow 0 4 (oneRow 2) 0).finalStateIdx = (oneRow 2).stateIndices 0 ∧
    compactConv 0 true 1 3 ((oneRow 2).stateIndices 0) (planRow 0 4 (oneRow 2) 0) (fun _ _ h => h) ≠
      fun _ _ h => h := by
  refine ⟨by decide, fun he => ?_⟩
  have hmoved : compactConv 0 true 1 3 3 (planRow 0 4 (oneRow 2) 0) (fun _ _ h => h) 3 0 0 = 0 :=
    congrFun (congrFun (congrFun he 3) 0) 0
  exact absurd hmoved (by decide)

end Plan

end Ringside.RecoverSsm

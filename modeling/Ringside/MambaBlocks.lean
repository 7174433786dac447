import Ringside.Checkpoint.Plan

/-!
# Block allocation of a Mamba request (`MambaManager.allocate_new_blocks`, align mode)

A request's row of blocks has one column for each block of its tokens, then the speculative scratch
blocks. Only the last columns hold blocks; the ones before are null, and scratch blocks move behind
the columns that a chunk skips.

* A block is an id, or `none` for the null block. `writable` is the pool's `is_block_writable`, any
  predicate; a scratch block that it refuses raises.
* `prepareRow` pads the row with null columns and relocates the scratch blocks; `relocate` is the
  loop over them, with `_relocate_speculative_block`.
* A partial hit replaces its block by a copy (`pendingCowCopies`).
* The free blocks of the pool are a list, taken from its front; an allocation that needs more than
  there are raises.
* What the branches of a partial hit do to block hashes, reference counts and connector offloads is
  left out; they do not read or change the row.
* The range of the relocation begins `num_speculative_blocks` before the row's end. With fewer
  blocks Python's would begin below 0, here it begins at 0; a request that has been allocated has
  that many (`allocate_covers`).

Results:
* `allocate_covers`: after an allocation the row has a column for every block of the tokens, and the
  scratch blocks behind them. Commit plans write to these columns (`RecoverSsm.Columns`).
-/

namespace Ringside.MambaBlocks

open Ringside.Checks
open Ringside.Checkpoint (cdiv column)

/-- What the manager holds of a request, and the free blocks of the pool. -/
structure Manager where
  blockSize : Nat
  numSpeculativeBlocks : Nat
  reqBlocks : List (Option Nat)
  /-- The request is in `_allocated_block_reqs`. -/
  blocksAllocated : Bool
  partialHit : Option (Nat × Nat)
  numCheckpointBlocks : Nat
  lastStateBlockIdx : Option Int
  pendingCowCopies : List (Nat × Nat)
  free : List Nat

/-- `get_new_blocks`. -/
def getNewBlocks (free : List Nat) (n : Int) : Except String (List Nat × List Nat) :=
  if (free.length : Int) < n then throw s!"Cannot get {n} free blocks from the pool"
  else return (free.take n.toNat, free.drop n.toNat)

/-- The loop over the scratch blocks, with `_relocate_speculative_block`. -/
def relocate (writable : Option Nat → Bool) (numSkippedBlocks : Int) :
    List Nat → List (Option Nat) → Except String (List (Option Nat))
  | [], reqBlocks => return reqBlocks
  | blockIdx :: rest, reqBlocks =>
    if (blockIdx : Int) < numSkippedBlocks then
      let block := (reqBlocks[blockIdx]?).getD none
      if ¬ writable block then
        throw "Speculative Mamba blocks must be exclusively owned and unhashed before relocation"
      else relocate writable numSkippedBlocks rest ((reqBlocks ++ [block]).set blockIdx none)
    else return reqBlocks

/-- The row after its null columns and its relocations. -/
def prepareRow (writable : Option Nat → Bool) (m : Manager) (numSkippedBlocks : Int) :
    Except String (List (Option Nat)) :=
  let prevBlockLen := m.reqBlocks.length
  let reqBlocks :=
    if prevBlockLen < numSkippedBlocks then
      let nullEnd := numSkippedBlocks - m.numCheckpointBlocks
      m.reqBlocks ++ List.replicate (nullEnd - prevBlockLen).toNat none
    else m.reqBlocks
  if m.blocksAllocated then
    relocate writable numSkippedBlocks ((List.range prevBlockLen).drop
      (prevBlockLen - m.numSpeculativeBlocks)) reqBlocks
  else return reqBlocks

/-- The running state's column before the call. -/
def Manager.lastState (m : Manager) : Option Int :=
  if m.blocksAllocated then some (m.reqBlocks.length - 1 - m.numSpeculativeBlocks)
  else if 0 < m.reqBlocks.length then some (m.reqBlocks.length - 1)
  else m.lastStateBlockIdx

/-- `allocate_new_blocks` in align mode: the manager after it, and the blocks it returns. -/
def allocateNewBlocks (writable : Option Nat → Bool) (m : Manager) (numTokens : Nat) :
    Except String (Manager × List (Option Nat)) :=
  let numRequiredBlocks := cdiv numTokens m.blockSize + m.numSpeculativeBlocks
  if numRequiredBlocks ≤ m.reqBlocks.length ∧ m.partialHit = none then
    return ({ m with blocksAllocated := true }, [])
  else do
    let numSkippedBlocks : Int := numRequiredBlocks - m.numSpeculativeBlocks - 1
    let reqBlocks ← prepareRow writable m numSkippedBlocks
    let numNewBlocks : Int := numRequiredBlocks - reqBlocks.length
    let numNewBlocks := if m.partialHit = none then numNewBlocks else max numNewBlocks 0 + 1
    let maxNewBlocks : Int := 1 + (if m.partialHit = none then 0 else 1) + m.numCheckpointBlocks +
      if m.blocksAllocated then 0 else m.numSpeculativeBlocks
    if ¬ numNewBlocks ≤ maxNewBlocks then throw "assert num_new_blocks <= max_new_blocks"
    else do
      let (newBlocks, free) ← getNewBlocks m.free numNewBlocks
      let returnedBlocks := reqBlocks.drop m.reqBlocks.length
      let after :=
        { m with
        blocksAllocated := true, partialHit := none, lastStateBlockIdx := m.lastState, free }
      match m.partialHit, newBlocks with
      | none, newBlocks =>
        let newBlocks := newBlocks.map some
        return ({ after with reqBlocks := reqBlocks ++ newBlocks }, returnedBlocks ++ newBlocks)
      | some _, [] => throw "list index out of range"
      | some (blockIdx, sourceBlock), cowBlock :: newBlocks =>
        if reqBlocks[blockIdx]? ≠ some (some sourceBlock) then
          throw "assert req_blocks[block_idx] is source_block"
        else
          let pendingCowCopies := m.pendingCowCopies ++ [(sourceBlock, cowBlock)]
          let newBlocks := newBlocks.map some
          if m.blocksAllocated then
            return ({ after with reqBlocks := reqBlocks ++ newBlocks, pendingCowCopies },
              returnedBlocks ++ newBlocks)
          else
            return ({ after with
              reqBlocks := reqBlocks.set blockIdx (some cowBlock) ++ newBlocks, pendingCowCopies },
              some cowBlock :: returnedBlocks ++ newBlocks)

section Length

variable {writable : Option Nat → Bool} {m m' : Manager} {numTokens : Nat}
    {returned : List (Option Nat)}

theorem getNewBlocks_length {free new rest : List Nat} {n : Int}
    (h : getNewBlocks free n = .ok (new, rest)) :
    new.length = n.toNat := by
  unfold getNewBlocks at h
  rw [checked_ok] at h
  obtain ⟨hn, h⟩ := h
  cases h
  rw [List.length_take]
  omega

/-- **After an allocation the row has a column for every block** of the tokens, and the scratch
blocks. -/
theorem allocate_covers (h : allocateNewBlocks writable m numTokens = .ok (m', returned)) :
    cdiv numTokens m.blockSize + m.numSpeculativeBlocks ≤ m'.reqBlocks.length := by
  unfold allocateNewBlocks at h
  dsimp only at h
  by_cases hfit : cdiv numTokens m.blockSize + m.numSpeculativeBlocks ≤ m.reqBlocks.length ∧
    m.partialHit = none
  · rw [if_pos hfit] at h
    cases h
    exact hfit.1
  rw [if_neg hfit, bind_ok] at h
  obtain ⟨reqBlocks, -, h⟩ := h
  rw [checked_ok, bind_ok] at h
  obtain ⟨-, ⟨newBlocks, free⟩, hnew, h⟩ := h
  have hlen := getNewBlocks_length hnew
  dsimp only at h
  cases hpart : m.partialHit with
  | none =>
    rw [hpart] at h hlen
    cases h
    rw [if_pos rfl] at hlen
    simp only [List.length_append, List.length_map, hlen]
    omega
  | some hit =>
    obtain ⟨blockIdx, sourceBlock⟩ := hit
    rw [hpart] at h hlen
    rw [if_neg nofun] at hlen
    cases newBlocks with
    | nil => cases h
    | cons cowBlock newBlocks =>
      dsimp only at h
      rw [checked_ok] at h
      obtain ⟨-, h⟩ := h
      rw [List.length_cons] at hlen
      split_ifs at h
      all_goals
        cases h
        simp only [List.length_append, List.length_map, List.length_set]
        omega

end Length

end Ringside.MambaBlocks

import Mathlib.Data.List.GetD
import Ringside.Checks
import Ringside.Races

/-!
# The conv-fused chunked prefill (`glm53_kda_conv.py`, `glm53_kda_ckpt.py`)

Model of `run_prefill_conv_fused_ckpt` with its three kernels (`_PrepareConvKernel`,
`_ConvStateKernel`, `export_conv_history`) and of `make_checkpoints`, which plans the checkpoints of
a call. A prefill call stages the rows of each 16-row tile with the three rows before them (the
halo), convolves and activates them, updates the convolution state of each sequence and exports the
history of each checkpoint.

* Memory is one map from addresses (`Addr`: the convolution state, the post-convolution rows of a
  tile, the rows of `v_out`) to elements. A kernel is the list of the programs of its grid, a
  program the list of its stores; a launch's programs store in any order (`Races.Outcome`), and the
  launches of a call follow one another.
* The convolution with its weights, activation and rounding is any function of a channel and four
  inputs: the theorems are about which inputs it gets, so they hold for every dtype and activation.
* `makeCheckpoints` is `make_checkpoints` with its checks and error texts; `checkPairs` and
  `checkSeqs` are its loops. `convRowsAt` gives the three rows of a checkpoint.
* The tables of the prologue place tile `posLocal` of sequence `posSeq`; what the prologue promises
  of them is a field of `Call`, not computed here.
* A call without checkpoints is one whose sequences have none, and a sequence without an initial
  state has the null index (`Call.initIndices`).
* `q` and `k` rows are those that the rest of the prepare kernel reads. The recurrence that follows
  stores to no convolution state and is left out.

Between calls (`Reach`) slots are copied and lost in any way, which covers block moves, eviction and
requests that resume: what is proved holds of whatever the slot table still names.

Results:
* `staged_apply`, `staged_eq`: the rows that a tile stages, whichever thread copied them, are the
  inputs of its sequence, from three before the tile up to its last row.
* `mem_prepareProgram`, `mem_stateProgram`, `stores_export`: what each kernel stores.
* `outputs_of_call`, `states_of_call`, `kept_of_call`: a call's outputs, its state slots and the
  slots of its checkpoints; no other slot changes.
* `Reach.carries`: after any run of calls every slot holds the last three inputs of the sequence
  behind it.
* `prefill_streams`: a call on any such memory convolves its sequences as streams, with the same
  result wherever the chunks are cut.

Out of scope: the prologue's construction of the tile tables, the gate and recurrence of KDA, and
bounds of the address arithmetic.
-/

namespace Ringside.KdaConv

open Ringside.Checks Ringside.Races Ringside.Scatter

/-- An address: the convolution state, a post-convolution row of a tile, a row of `v_out`. -/
inductive Addr where
  | conv (slot : Int) (col channel : Nat)
  | raw (tile head tensor row column : Nat)
  | vOut (row column : Nat)
  deriving DecidableEq

/-- What a layer's calls share. -/
structure Layer (α : Type) where
  heads : Nat
  nullStateIndex : Int
  /-- `_conv_silu` with the weights of a channel, rounded. -/
  convSilu : Nat → α → α → α → α → α
  zero : α

/-! ## Checkpoints

A checkpoint is an offset into the rows of its sequence and a slot. What goes to the slot are the
three rows before the offset, and the plan of a call is the list of these rows, each with its slot
and its place there. Accepted offsets are positive whole tiles, so the three rows are rows of the
chunk.
-/

/-- `MAX_CHECKPOINTS`. -/
def maxCheckpointsBound : Int := 8

/-- One element of `conv_rows`, `conv_slots` and `conv_cols`. -/
structure ConvRow where
  row : Int
  slot : Int
  col : Nat

/-- The plan of a call's checkpoints. -/
structure Checkpoints where
  slots : List (List Int)
  offsets : List (List Int)
  maxCheckpoints : Int
  convRows : List ConvRow

/-- The convolution rows of one checkpoint. -/
def convRowsAt (seqStarts : Option (List Int)) (s : Nat) (offset slot : Int) :
    Except String (List ConvRow) :=
  match seqStarts with
  | none => .error "seq_starts is required for the conv history"
  | some starts =>
    .ok ((List.range 3).map fun j : Nat => ⟨starts.getD s 0 + offset - 3 + j, slot, j⟩)

/-- The pairs of one sequence, with the slots that came before. -/
def checkPairs (nullSlot : Int) (seqStarts : Option (List Int)) (withConv : Bool) (s : Nat) :
    List Int → List (Int × Int) → Except String (List ConvRow)
  | _, [] => .ok []
  | seen, (offset, slot) :: rest =>
    if offset ≤ 0 ∨ offset % 16 ≠ 0 ∨ slot = nullSlot ∨ slot ∈ seen then
      .error s!"sequence {s}: bad checkpoint (offset {offset}, slot {slot})"
    else do
      let rows ← if withConv then convRowsAt seqStarts s offset slot else .ok []
      let rest ← checkPairs nullSlot seqStarts withConv s (slot :: seen) rest
      .ok (rows ++ rest)

/-- The sequences, from number `s` on. -/
def checkSeqs (m nullSlot : Int) (seqStarts : Option (List Int)) (withConv : Bool) :
    Nat → List (List (Int × Int)) → Except String (List ConvRow)
  | _, [] => .ok []
  | s, pairs :: rest =>
    if m < pairs.length then .error s!"sequence {s} has {pairs.length} checkpoints, more than {m}"
    else do
      let rows ← checkPairs nullSlot seqStarts withConv s [] pairs
      let rest ← checkSeqs m nullSlot seqStarts withConv (s + 1) rest
      .ok (rows ++ rest)

/-- `make_checkpoints`. -/
def makeCheckpoints (perSeq : List (List (Int × Int))) (m nullSlot : Int)
    (seqStarts : Option (List Int))
    (withConv : Bool) : Except String Checkpoints :=
  if ¬ (1 ≤ m ∧ m ≤ maxCheckpointsBound) then
    .error s!"max_checkpoints must be in 1..{maxCheckpointsBound}"
  else do
    let rows ← checkSeqs m nullSlot seqStarts withConv 0 perSeq
    .ok {
      slots := perSeq.map fun pairs => pairs.map Prod.snd ++
        List.replicate (m.toNat - pairs.length) nullSlot
      offsets := perSeq.map fun pairs => pairs.map Prod.fst ++
        List.replicate (m.toNat - pairs.length) 0
      maxCheckpoints := m
      convRows := rows
    }

section Plan

variable {nullSlot : Int} {starts : List Int} {rows : List ConvRow}

/-- An accepted pair is checked, and its three rows are planned. -/
theorem checkPairs_ok {s : Nat} {pairs : List (Int × Int)} {seen : List Int}
    (h : checkPairs nullSlot (some starts) true s seen pairs = .ok rows) :
    (∀ p ∈ pairs, 0 < p.1 ∧ p.1 % 16 = 0 ∧ p.2 ≠ nullSlot) ∧
      ∀ r, r ∈ rows ↔
        ∃ p ∈ pairs, ∃ j < 3, r = ⟨starts.getD s 0 + p.1 - 3 + (j : Nat), p.2, j⟩ := by
  induction pairs generalizing seen rows with
  | nil =>
    cases h
    simp
  | cons p pairs ih =>
    obtain ⟨hbad, h⟩ := checked_ok.mp h
    obtain ⟨rows₁, h₁, h⟩ := bind_ok.mp h
    obtain ⟨rows₂, h₂, h⟩ := bind_ok.mp h
    cases h₁
    cases h
    obtain ⟨hok, hmem⟩ := ih h₂
    refine ⟨List.forall_mem_cons.mpr ⟨by omega, hok⟩, fun r => ?_⟩
    rw [List.mem_append, hmem, List.exists_mem_cons_iff]
    refine or_congr ?_ Iff.rfl
    simp only [List.mem_map, List.mem_range, eq_comm]

/-- The rows that an accepted plan has. -/
theorem checkSeqs_ok {m : Int} {s₀ : Nat} {perSeq : List (List (Int × Int))}
    (h : checkSeqs m nullSlot (some starts) true s₀ perSeq = .ok rows) :
    (∀ s, ∀ p ∈ perSeq.getD s [], 0 < p.1 ∧ p.1 % 16 = 0 ∧ p.2 ≠ nullSlot) ∧
      ∀ r, r ∈ rows ↔ ∃ s, ∃ p ∈ perSeq.getD s [], ∃ j < 3,
      r = ⟨starts.getD (s₀ + s) 0 + p.1 - 3 + (j : Nat), p.2, j⟩ := by
  induction perSeq generalizing s₀ rows with
  | nil =>
    cases h
    simp
  | cons pairs perSeq ih =>
    obtain ⟨-, h⟩ := checked_ok.mp h
    obtain ⟨rows₁, h₁, h⟩ := bind_ok.mp h
    obtain ⟨rows₂, h₂, h⟩ := bind_ok.mp h
    cases h
    obtain ⟨hok₁, hmem₁⟩ := checkPairs_ok h₁
    obtain ⟨hok₂, hmem₂⟩ := ih h₂
    refine ⟨fun s => ?_, fun r => ?_⟩
    · cases s with
      | zero => exact hok₁
      | succ s => exact hok₂ s
    · rw [List.mem_append, hmem₁, hmem₂]
      constructor
      · rintro (⟨p, hp, j, hj, rfl⟩ | ⟨s, p, hp, j, hj, rfl⟩)
        · exact ⟨0, p, hp, j, hj, rfl⟩
        · refine ⟨s + 1, p, hp, j, hj, ?_⟩
          rw [Nat.add_right_comm, Nat.add_assoc]
      · rintro ⟨s, p, hp, j, hj, rfl⟩
        cases s with
        | zero => exact Or.inl ⟨p, hp, j, hj, rfl⟩
        | succ s =>
          refine Or.inr ⟨s, p, hp, j, hj, ?_⟩
          rw [Nat.add_right_comm, Nat.add_assoc]

end Plan

/-! ## A call

A kernel program is the list of stores that its threads make. `halo` is the case distinction of the
copy: behind a tile's first row the sequence's own rows, before it the rows of the tile before or,
in the first tile, those of the state. The loop then runs down a column in registers.
-/

/-- A prefill call. The rows of sequence `s` are those from `cuSeqlens s` up to `cuSeqlens (s + 1)`.
-/
structure Call (α : Type) (nullStateIndex : Int) where
  n : Nat
  seqCapacity : Nat
  cuSeqlens : Nat → Nat
  stateIndices : Nat → Int
  hasInitialState : Nat → Bool
  x : Nat → Nat → α
  windows : Nat
  windowTiles : Nat
  tilesCapacity : Nat
  errorCode : Int
  posSeq : Nat → Int
  posLocal : Nat → Nat
  /-- The checkpoints of each sequence: offset and slot. -/
  perSeq : List (List (Int × Int))
  maxCheckpoints : Int
  ckpt : Checkpoints
  n_le : n ≤ seqCapacity
  cu_mono : ∀ s < n, cuSeqlens s ≤ cuSeqlens (s + 1)
  /-- The prologue accepts the call. -/
  errorCode_eq : errorCode = 0
  /-- Its tables name tiles of the call, -/
  tile_of : ∀ tile < tilesCapacity, 0 ≤ posSeq tile →
    posSeq tile < n ∧ posLocal tile * 16 < cuSeqlens ((posSeq tile).toNat + 1) - cuSeqlens
    (posSeq tile).toNat
  /-- and all of them within the launched windows. -/
  exists_tile : ∀ s < n, ∀ l, l * 16 < cuSeqlens (s + 1) - cuSeqlens s →
    ∃ tile < windows * windowTiles, tile < tilesCapacity ∧ posSeq tile = s ∧ posLocal tile = l
  perSeq_length : perSeq.length = n
  ckpt_eq : makeCheckpoints perSeq maxCheckpoints nullStateIndex
    (some ((List.range n).map fun s => (cuSeqlens s : Int))) true = .ok ckpt
  /-- A checkpoint is inside its sequence's rows or at their end. -/
  offset_le : ∀ s, ∀ p ∈ perSeq.getD s [], p.1 ≤ (cuSeqlens (s + 1) - cuSeqlens s : Nat)
  /-- Checkpoint slots are blocks: the export's indexing wraps negative ones. -/
  slot_nonneg : ∀ s, ∀ p ∈ perSeq.getD s [], 0 ≤ p.2

section Kernels

variable {α : Type} (L : Layer α) (c : Call α L.nullStateIndex)

/-- `proj`. -/
def Layer.proj : Nat := L.heads * 128

/-- `conv_dim`: the channels of `q`, `k` and `v`. -/
def Layer.convDim : Nat := 3 * L.proj

/-- The channel of a column of a tensor's head. -/
def Layer.channel (tensor head column : Nat) : Nat := tensor * L.proj + head * 128 + column

variable {L}

/-- `initial_state_indices`: the state indices, null where there is no initial state. -/
def Call.initIndices (s : Nat) : Int := if c.hasInitialState s then c.stateIndices s
    else L.nullStateIndex

/-- The number of rows of a sequence. -/
def Call.length (s : Nat) : Nat := c.cuSeqlens (s + 1) - c.cuSeqlens s

/-- The element that is staged for column `column` of row `row` of a tensor: rows 0 to 2 are the
halo. -/
def Call.halo (m : Addr → α) (seq l start rows head tensor row column : Nat) : α :=
  let channel := L.channel tensor head column
  if row < 3 then
    if 0 < l then c.x (start + row - 3) channel
    else if c.initIndices seq ≠ L.nullStateIndex then m (.conv (c.initIndices seq) row channel)
    else L.zero
  else if rows ≤ row - 3 then L.zero
  else c.x (start + min (row - 3) (rows - 1)) channel

/-- The copies of one thread, eight elements each. -/
def Call.stage (m : Addr → α) (seq l start rows head thread : Nat) : List (Nat × α) :=
  (List.range 8).flatMap fun item =>
    let chunk := thread + item * 128
    if chunk < 3 * 19 * 16 then
      (List.range 8).map fun e => (chunk * 8 + e,
        c.halo m seq l start rows head (chunk / (19 * 16)) (chunk % (19 * 16) / 16)
        (chunk % (19 * 16) % 16 * 8 + e))
    else []

/-- `s_x` once all threads have copied. -/
def Call.staged (m : Addr → α) (seq l start rows head : Nat) : Nat → α :=
  stores ((List.range 128).flatMap (c.stage m seq l start rows head)) fun _ => L.zero

/-- The loop over the rows of a tile, down a column: `c₀`, `c₁` and `c₂` are the rows before row
`ct`. -/
def convLoop {β : Type} (conv : α → α → α → α → α) (s : Nat → α) (store : Nat → α → List β) :
    Nat → Nat → α → α → α → List β
  | 0, _, _, _, _ => []
  | n + 1, ct, c₀, c₁, c₂ =>
    let c₃ := s (ct + 3)
    store ct (conv c₀ c₁ c₂ c₃) ++ convLoop conv s store n (ct + 1) c₁ c₂ c₃

/-- What the loop stores of row `ct`: `q` and `k` rows past the tail are zero, `v` rows are not
stored. -/
def Call.storeRow (tile start rows head column tensor ct : Nat) (y : α) : List (Addr × α) :=
  if tensor < 2 then [(.raw tile head tensor ct column, if rows ≤ ct then L.zero else y)]
  else if ct < rows then [(.vOut (start + ct) (head * 128 + column), y)]
  else []

/-- `_PrepareConvKernel`: tile `localTile` of a window, for one head. -/
def Call.prepareProgram (m : Addr → α) (window localTile head : Nat) : List (Addr × α) :=
  let tile := window * c.windowTiles + localTile
  let seq := if tile < c.tilesCapacity then c.posSeq tile else -1
  let l := if tile < c.tilesCapacity then c.posLocal tile else 0
  if c.errorCode = 0 ∧ 0 ≤ seq then
    let start := c.cuSeqlens seq.toNat + l * 16
    let rows := min 16 (c.cuSeqlens (seq.toNat + 1) - start)
    let sX := c.staged m seq.toNat l start rows head
    (List.range 128).flatMap fun column => (List.range 3).flatMap fun tensor =>
      let s row := sX (tensor * 19 * 128 + row * 128 + column)
      convLoop (L.convSilu (L.channel tensor head column)) s
        (storeRow (L := L) tile start rows head column tensor)
        16 0 (s 0) (s 1) (s 2)
  else []

/-- `_ConvStateKernel`: 128 channels of a sequence. -/
def Call.stateProgram (m : Addr → α) (seq block : Nat) : List (Addr × α) :=
  if seq < c.n ∧ c.stateIndices seq ≠ L.nullStateIndex then
    (List.range 128).flatMap fun thread =>
      let channel := block * 128 + thread
      let old j := if c.initIndices seq ≠ L.nullStateIndex then
        m (.conv (c.initIndices seq) j channel) else L.zero
      -- a position in the three old rows and the rows of the call
      let new position := if 3 ≤ position then c.x (c.cuSeqlens seq + position - 3) channel
        else old position
      (List.range 3).map fun j => (.conv (c.stateIndices seq) j channel, new (c.length seq + j))
  else []

/-- `export_conv_history`. -/
def Call.exportConvHistory : Launch Addr α :=
  [c.ckpt.convRows.flatMap fun r => (List.range L.convDim).map fun ch =>
    (.conv r.slot r.col ch, c.x r.row.toNat ch)]

/-- `run_prefill_conv_fused_ckpt`: the prepares of the windows, the state update, the export. -/
def Call.launches : List ((Addr → α) → Launch Addr α) :=
  ((List.range c.windows).map fun window m =>
    grid c.windowTiles L.heads (c.prepareProgram m window)) ++
    [fun m => grid c.seqCapacity (L.convDim / 128) (c.stateProgram m), fun _ => c.exportConvHistory]

end Kernels

/-! ## The stream -/

section Stream

variable {α : Type}

/-- The rows of a sequence so far. -/
abbrev Rows (α : Type) := List (Nat → α)

/-- Input `i` of a sequence: zero before its start. -/
def input (zero : α) (l : Rows α) (i : Int) (ch : Nat) : α :=
  if 0 ≤ i then (l.getD i.toNat fun _ => zero) ch else zero

variable {zero : α} {l c : Rows α} {ch : Nat}

theorem input_neg {i : Int} (h : i < 0) : input zero l i ch = zero := if_neg (by omega)

theorem input_natCast (i : Nat) : input zero l i ch = (l.getD i fun _ => zero) ch :=
    if_pos (Int.natCast_nonneg i)

/-- What comes later does not change an input. -/
theorem input_append_left {i : Int} (h : i < l.length) :
    input zero (l ++ c) i ch = input zero l i ch := by
  rcases lt_or_ge i 0 with hneg | hnn
  · rw [input_neg hneg, input_neg hneg]
  · obtain ⟨k, rfl⟩ := Int.eq_ofNat_of_zero_le hnn
    rw [input_natCast, input_natCast, List.getD_append _ _ _ _ (by exact_mod_cast h)]

theorem input_append_right (t : Nat) : input zero (l ++ c) (l.length + t) ch =
    (c.getD t fun _ => zero) ch := by
  rw [← Nat.cast_add, input_natCast, List.getD_append_right _ _ _ _ (Nat.le_add_right _ _),
    Nat.add_sub_cancel_left]

/-- A state slot holds the last three inputs of a sequence. -/
def Carries (L : Layer α) (m : Addr → α) (slot : Int) (l : Rows α) : Prop :=
  ∀ j < 3, ∀ ch < L.convDim, m (.conv slot j ch) = input L.zero l (l.length - 3 + j) ch

/-- The output of token `i`: the function of its input and the three before it. -/
def output (L : Layer α) (l : Rows α) (i : Int) (ch : Nat) : α :=
  L.convSilu ch (input L.zero l (i - 3) ch) (input L.zero l (i - 2) ch) (input L.zero l (i - 1) ch)
    (input L.zero l i ch)

end Stream

/-! ## What the kernels store

Each kernel is read once, as the set of its stores: an address and a value are stored exactly when
they are an entry of a tile, a channel of a state or a row of a checkpoint. The copies of a
program's threads are disjoint, so what is staged does not depend on their order.
-/

section Stores

variable {α : Type} {L : Layer α} {c : Call α L.nullStateIndex} {m m' : Addr → α} {k : Addr} {v : α}
  {seq l start rows head : Nat}

/-- The copies of all threads: each element of the tile once. -/
theorem mem_stage {i : Nat} : (i, v) ∈ (List.range 128).flatMap (c.stage m seq l start rows head) ↔
    i < 3 * 19 * 128 ∧ v =
      c.halo m seq l start rows head (i / (19 * 128)) (i % (19 * 128) / 128) (i % 128) := by
  unfold Call.stage
  simp only [List.mem_flatMap, List.mem_range]
  constructor
  · rintro ⟨thread, -, item, -, hm⟩
    split_ifs at hm with hchunk
    · simp only [List.mem_map, List.mem_range, Prod.mk.injEq] at hm
      obtain ⟨e, he, hi, rfl⟩ := hm
      refine ⟨by omega, ?_⟩
      congr 1 <;> omega
    · cases hm
  · rintro ⟨hi, rfl⟩
    refine ⟨i / 8 % 128, Nat.mod_lt _ (by decide), i / 8 / 128, by omega, ?_⟩
    rw [Nat.mod_add_div', if_pos (by omega), List.mem_map]
    refine ⟨i % 8, List.mem_range.mpr (Nat.mod_lt _ (by decide)), ?_⟩
    refine Prod.ext (by omega) ?_
    dsimp only
    congr 1 <;> omega

/-- **What the convolution reads** was staged, whichever thread copied it. -/
theorem staged_apply {tensor row column : Nat} (ht : tensor < 3) (hr : row < 19)
    (hc : column < 128) :
    c.staged m seq l start rows head (tensor * 19 * 128 + row * 128 + column) =
      c.halo m seq l start rows head tensor row column := by
  have hstores : ∀ v, Stores ((List.range 128).map (c.stage m seq l start rows head))
      (tensor * 19 * 128 + row * 128 + column) v ↔
        v = c.halo m seq l start rows head tensor row column := by
    intro v
    have hiff : Stores ((List.range 128).map (c.stage m seq l start rows head))
      (tensor * 19 * 128 + row * 128 + column) v ↔
        (tensor * 19 * 128 + row * 128 + column, v) ∈ (List.range 128).flatMap
        (c.stage m seq l start rows head) := by
      unfold Stores
      rw [List.mem_flatMap]
      simp only [List.mem_map, exists_exists_and_eq_and]
    rw [hiff, mem_stage, and_iff_right (by omega)]
    have h₁ : (tensor * 19 * 128 + row * 128 + column) / (19 * 128) = tensor := by omega
    have h₂ : (tensor * 19 * 128 + row * 128 + column) % (19 * 128) / 128 = row := by omega
    have h₃ : (tensor * 19 * 128 + row * 128 + column) % 128 = column := by omega
    rw [h₁, h₂, h₃]
  unfold Call.staged
  rw [List.flatMap_def]
  exact outcome_serial.stored ((hstores _).mpr rfl) fun v hv => (hstores v).mp hv

/-- The registers of the loop are the three rows before. -/
theorem convLoop_eq {β : Type} (conv : α → α → α → α → α) (s : Nat → α) (store : Nat → α → List β)
    (n ct : Nat) :
    convLoop conv s store n ct (s ct) (s (ct + 1)) (s (ct + 2)) =
      (List.range' ct n).flatMap fun t => store t
        (conv (s t) (s (t + 1)) (s (t + 2)) (s (t + 3))) := by
  induction n generalizing ct with
  | zero => rfl
  | succ n ih =>
    rw [List.range'_succ, List.flatMap_cons, ← ih (ct + 1)]
    rfl

/-- The first row of a tile. -/
def Call.tileStart (c : Call α L.nullStateIndex) (tile : Nat) : Nat :=
  c.cuSeqlens (c.posSeq tile).toNat + c.posLocal tile * 16

/-- The number of rows of a tile. -/
def Call.tileRows (c : Call α L.nullStateIndex) (tile : Nat) : Nat :=
  min 16 (c.cuSeqlens ((c.posSeq tile).toNat + 1) - c.tileStart tile)

/-- What a tile stages. -/
def Call.tileHalo (c : Call α L.nullStateIndex) (m : Addr → α)
    (tile head tensor row column : Nat) : α :=
  c.halo m (c.posSeq tile).toNat (c.posLocal tile) (c.tileStart tile) (c.tileRows tile) head
    tensor row column

/-- What a tile computes for row `ct`. -/
def Call.tileConv (c : Call α L.nullStateIndex) (m : Addr → α)
    (tile head tensor ct column : Nat) : α :=
  L.convSilu (L.channel tensor head column) (c.tileHalo m tile head tensor ct column)
    (c.tileHalo m tile head tensor (ct + 1) column) (c.tileHalo m tile head tensor (ct + 2) column)
    (c.tileHalo m tile head tensor (ct + 3) column)

/-- **What a tile's program stores.** -/
theorem mem_prepareProgram {window localTile tile : Nat}
    (htile : tile = window * c.windowTiles + localTile) :
    (k, v) ∈ c.prepareProgram m window localTile head ↔
    (tile < c.tilesCapacity ∧ 0 ≤ c.posSeq tile) ∧
      ∃ column < 128, ∃ tensor < 3, ∃ ct < 16,
      (k, v) ∈ Call.storeRow (L := L) tile (c.tileStart tile) (c.tileRows tile)
        head column tensor ct (c.tileConv m tile head tensor ct column) := by
  unfold Call.prepareProgram
  rw [← htile, c.errorCode_eq]
  dsimp only
  by_cases hactive : tile < c.tilesCapacity ∧ 0 ≤ c.posSeq tile
  · rw [if_pos hactive.1, if_pos hactive.1, if_pos ⟨rfl, hactive.2⟩, and_iff_right hactive]
    simp only [List.mem_flatMap, List.mem_range]
    refine exists_congr fun column => and_congr_right fun hc => exists_congr fun tensor =>
      and_congr_right fun ht => ?_
    rw [convLoop_eq, List.mem_flatMap]
    refine exists_congr fun ct => ?_
    rw [List.mem_range'_1]
    constructor
    · rintro ⟨⟨-, hct⟩, hm⟩
      refine ⟨by omega, ?_⟩
      rwa [staged_apply ht (by omega) hc, staged_apply ht (by omega) hc,
        staged_apply ht (by omega) hc, staged_apply ht (by omega) hc] at hm
    · rintro ⟨hct, hm⟩
      refine ⟨⟨Nat.zero_le _, by omega⟩, ?_⟩
      rwa [staged_apply ht (by omega) hc, staged_apply ht (by omega) hc,
        staged_apply ht (by omega) hc, staged_apply ht (by omega) hc]
  · have hidle : ¬ ((0 : Int) = 0 ∧ 0 ≤ if tile < c.tilesCapacity then c.posSeq tile else -1) := by
      rintro ⟨-, hseq⟩
      split_ifs at hseq with hcap
      · exact hactive ⟨hcap, hseq⟩
      · omega
    rw [if_neg hidle]
    simp only [List.not_mem_nil, hactive, false_and]

/-- What the state update of a sequence stores. -/
theorem mem_stateProgram {s block : Nat} : (k, v) ∈ c.stateProgram m s block ↔
    (s < c.n ∧ c.stateIndices s ≠ L.nullStateIndex) ∧ ∃ ch, ch / 128 = block ∧ ∃ j < 3,
      k = .conv (c.stateIndices s) j ch ∧
        v = if 3 ≤ c.length s + j then c.x (c.cuSeqlens s + (c.length s + j) - 3) ch
          else if c.initIndices s ≠ L.nullStateIndex then
            m (.conv (c.initIndices s) (c.length s + j) ch)
          else L.zero := by
  unfold Call.stateProgram
  by_cases hlive : s < c.n ∧ c.stateIndices s ≠ L.nullStateIndex
  · rw [if_pos hlive, and_iff_right hlive]
    simp only [List.mem_flatMap, List.mem_map, List.mem_range, Prod.mk.injEq]
    constructor
    · rintro ⟨thread, hthread, j, hj, rfl, rfl⟩
      exact ⟨block * 128 + thread, by omega, j, hj, rfl, rfl⟩
    · rintro ⟨ch, rfl, j, hj, rfl, rfl⟩
      refine ⟨ch % 128, Nat.mod_lt _ (by decide), j, hj, ?_⟩
      rw [Nat.div_add_mod']
      exact ⟨rfl, rfl⟩
  · rw [if_neg hlive]
    simp only [List.not_mem_nil, hlive, false_and]

/-- A checkpoint of the call: an offset and a slot of sequence `s`. -/
def Call.Exports (c : Call α L.nullStateIndex) (s : Nat) (offset slot : Int) : Prop :=
    (offset, slot) ∈ c.perSeq.getD s []

theorem Call.Exports.bounds {s : Nat} {offset slot : Int} (h : c.Exports s offset slot) :
    s < c.n ∧ slot ≠ L.nullStateIndex ∧ ∃ p : Nat, offset = p ∧ 16 ≤ p ∧ p ≤ c.length s := by
  obtain ⟨-, hck⟩ := checked_ok.mp c.ckpt_eq
  obtain ⟨rows, hrows, -⟩ := bind_ok.mp hck
  obtain ⟨hpos, hmod, hslot⟩ := (checkSeqs_ok hrows).1 s _ h
  have hle := c.offset_le s _ h
  refine ⟨?_, hslot, offset.toNat, by omega, by omega, ?_⟩
  · by_contra hs
    rw [Call.Exports, List.getD_eq_default _ _ (by rw [c.perSeq_length]; omega)] at h
    cases h
  · unfold Call.length
    omega

/-- What the export stores. -/
theorem stores_export : Stores c.exportConvHistory k v ↔ ∃ s offset slot, c.Exports s offset slot ∧
    ∃ j < 3, ∃ ch < L.convDim,
    k = .conv slot j ch ∧ v = c.x (c.cuSeqlens s + offset.toNat - 3 + j) ch := by
  have hck := c.ckpt_eq
  obtain ⟨-, hck⟩ := checked_ok.mp hck
  obtain ⟨rows, hrows, hck⟩ := bind_ok.mp hck
  have hconv : c.ckpt.convRows = rows := congrArg Checkpoints.convRows (Except.ok.inj hck).symm
  unfold Call.exportConvHistory
  rw [stores_single, List.mem_flatMap, hconv]
  simp only [(checkSeqs_ok hrows).2, List.mem_map, List.mem_range, Prod.mk.injEq]
  -- the first row of a checkpoint is a row of the call
  have hrow : ∀ {s : Nat} {offset slot : Int} (j : Nat), c.Exports s offset slot →
      (((List.range c.n).map fun s => (c.cuSeqlens s : Int)).getD (0 + s)
      0 + offset - 3 + j).toNat = c.cuSeqlens s + offset.toNat - 3 + j := by
    intro s offset slot j h
    obtain ⟨hs, -, p, rfl, hp, -⟩ := h.bounds
    rw [Nat.zero_add, List.getD_eq_getElem _ _ (by simpa using hs), List.getElem_map,
      List.getElem_range]
    omega
  constructor
  · rintro ⟨r, ⟨s, ⟨offset, slot⟩, hp, j, hj, rfl⟩, ch, hch, rfl, rfl⟩
    refine ⟨s, offset, slot, hp, j, hj, ch, hch, rfl, ?_⟩
    rw [hrow j hp]
  · rintro ⟨s, offset, slot, hp, j, hj, ch, hch, rfl, rfl⟩
    refine ⟨_, ⟨s, (offset, slot), hp, j, hj, rfl⟩, ch, hch, rfl, ?_⟩
    rw [hrow j hp]

end Stores

/-! ## The inputs of a sequence

From here on positions are those of the whole sequence. `Finds` says where a call stands in it: the
rows before the call, and a state slot with the last three of them. Then a row of the call, a row of
the tile before and a row of the state are all the same thing, an input at a position.
-/

section Inputs

variable {α : Type} {L : Layer α} {c : Call α L.nullStateIndex} {m : Addr → α}
    {s : Nat} {b : Rows α}

/-- The rows of a sequence in the call. -/
def Call.chunk (c : Call α L.nullStateIndex) (s : Nat) : Rows α :=
  (List.range (c.length s)).map fun t => c.x (c.cuSeqlens s + t)

@[simp]
theorem length_chunk : (c.chunk s).length = c.length s := by
  unfold Call.chunk
  rw [List.length_map, List.length_range]

/-- The rows of the sequence that the state a call finds comes from: none without an initial state.
-/
def Call.Finds (c : Call α L.nullStateIndex) (m : Addr → α) (s : Nat) (b : Rows α) : Prop :=
  if c.initIndices s = L.nullStateIndex then b = [] else Carries L m (c.initIndices s) b

/-- A row of the call is an input of its sequence. -/
theorem input_chunk {t : Nat} (ht : t < c.length s) (ch : Nat) :
    input L.zero (b ++ c.chunk s) (b.length + t) ch = c.x (c.cuSeqlens s + t) ch := by
  rw [input_append_right, List.getD_eq_getElem _ _ (by simpa using ht)]
  unfold Call.chunk
  rw [List.getElem_map, List.getElem_range]

/-- **What a call reads in place of a row before its own** is the input there. -/
theorem input_before (hb : c.Finds m s b) {row ch : Nat} (hrow : row < 3) (hch : ch < L.convDim) :
    (if c.initIndices s ≠ L.nullStateIndex then m (.conv (c.initIndices s) row ch) else L.zero) =
      input L.zero (b ++ c.chunk s) (b.length + row - 3) ch := by
  rw [input_append_left (by omega)]
  unfold Call.Finds at hb
  split_ifs with hinit
  · rw [if_neg hinit] at hb
    rw [hb row hrow ch hch]
    congr 1
    omega
  · rw [if_pos (not_not.mp hinit)] at hb
    rw [hb, input_neg (by simp only [List.length_nil]; omega)]

theorem channel_lt {tensor head column : Nat} (ht : tensor < 3) (hh : head < L.heads)
    (hc : column < 128) :
    L.channel tensor head column < L.convDim := by
  unfold Layer.channel Layer.convDim
  have hhead : head * 128 + column < L.proj := digits_lt hh hc
  calc tensor * L.proj + head * 128 + column = tensor * L.proj + (head * 128 + column) :=
    Nat.add_assoc _ _ _
    _ < 3 * L.proj := digits_lt ht hhead

/-- **The rows a tile stages are the inputs of its sequence**, from three before the tile up to its
last row. -/
theorem staged_eq (hb : c.Finds m s b) {tile l row tensor head column : Nat}
    (hseq : c.posSeq tile = s) (hl : c.posLocal tile = l) (hrow : l * 16 + row < c.length s + 3)
    (hrow' : row < 19) (ht : tensor < 3) (hh : head < L.heads) (hc : column < 128) :
    c.tileHalo m tile head tensor row column =
      input L.zero (b ++ c.chunk s) (b.length + (l * 16 + row) - 3)
        (L.channel tensor head column) := by
  have hs : (c.posSeq tile).toNat = s := by rw [hseq, Int.toNat_natCast]
  have hlen : c.length s = c.cuSeqlens (s + 1) - c.cuSeqlens s := rfl
  unfold Call.tileHalo Call.tileRows Call.tileStart Call.halo
  rw [hs, hl]
  dsimp only
  -- a row of the call
  have hrows : 3 ≤ l * 16 + row → input L.zero (b ++ c.chunk s) (b.length + (l * 16 + row) - 3)
    (L.channel tensor head column) =
      c.x (c.cuSeqlens s + (l * 16 + row - 3)) (L.channel tensor head column) := by
    intro h3
    rw [← input_chunk (b := b) (by omega)]
    congr 1
    omega
  split_ifs with h3 h0 hinit hpast
  · rw [hrows (by omega)]
    congr 1
    omega
  · obtain rfl : l = 0 := by omega
    have hbefore := input_before hb h3 (channel_lt ht hh hc)
    rw [if_pos hinit] at hbefore
    rw [hbefore]
    congr 1
    omega
  · obtain rfl : l = 0 := by omega
    have hbefore := input_before hb h3 (channel_lt ht hh hc)
    rw [if_neg hinit] at hbefore
    rw [hbefore]
    congr 1
    omega
  · omega
  · rw [hrows (by omega)]
    congr 1
    omega

/-- **What a tile computes for a row** is the output of its token. -/
theorem tileConv_eq (hb : c.Finds m s b) {tile l ct tensor head column : Nat}
    (hseq : c.posSeq tile = s)
    (hl : c.posLocal tile = l) (hct : ct < 16) (hrow : l * 16 + ct < c.length s) (ht : tensor < 3)
    (hh : head < L.heads) (hc : column < 128) :
    c.tileConv m tile head tensor ct column =
      output L (b ++ c.chunk s) (b.length + (l * 16 + ct : Nat))
        (L.channel tensor head column) := by
  unfold Call.tileConv output
  rw [staged_eq hb hseq hl (by omega) (by omega) ht hh hc,
    staged_eq hb hseq hl (by omega) (by omega) ht hh hc,
    staged_eq hb hseq hl (by omega) (by omega) ht hh hc,
    staged_eq hb hseq hl (by omega) (by omega) ht hh hc]
  congr 2 <;> omega

end Inputs

/-! ## A call's launches

The prepares read the projections and the state and store elsewhere, so their order does not matter.
The state update comes behind them and the export behind that. The two share an address only where a
checkpoint at the end of a chunk goes to the state slot of its own sequence, and store the same
value there.
-/

section Calls

variable {α : Type} {L : Layer α} {c : Call α L.nullStateIndex} {m m₁ m' : Addr → α}
    {s : Nat} {b : Rows α}

/-- The prepares of all windows. -/
def Call.prepares (c : Call α L.nullStateIndex) (m : Addr → α) : Launch Addr α :=
  (List.range c.windows).flatMap fun window =>
    grid c.windowTiles L.heads (c.prepareProgram m window)

/-- The state update. -/
def Call.stateUpdate (c : Call α L.nullStateIndex) (m : Addr → α) : Launch Addr α :=
  grid c.seqCapacity (L.convDim / 128) (c.stateProgram m)

theorem prepareProgram_congr (h : ∀ slot j ch, m₁ (.conv slot j ch) = m (.conv slot j ch)) :
    c.prepareProgram m₁ = c.prepareProgram m := by
  have hhalo : c.halo m₁ = c.halo m := by
    funext seq l start rows head tensor row column
    unfold Call.halo
    simp only [h]
  unfold Call.prepareProgram Call.staged Call.stage
  rw [hhalo]

/-- What the prepares store: each row of each tile. -/
theorem stores_prepares {k : Addr} {v : α} : Stores (c.prepares m) k v ↔
    ∃ tile < c.windows * c.windowTiles, (tile < c.tilesCapacity ∧ 0 ≤ c.posSeq tile) ∧
    ∃ head < L.heads,
      ∃ column < 128, ∃ tensor < 3, ∃ ct < 16,
      (k, v) ∈ Call.storeRow (L := L) tile (c.tileStart tile) (c.tileRows tile)
        head column tensor ct (c.tileConv m tile head tensor ct column) := by
  have hwindows : Stores (c.prepares m) k v ↔
      ∃ window < c.windows,
        Stores (grid c.windowTiles L.heads (c.prepareProgram m window)) k v := by
    unfold Stores Call.prepares
    simp only [List.mem_flatMap, List.mem_range]
    constructor
    · rintro ⟨p, ⟨window, hw, hp⟩, hm⟩
      exact ⟨window, hw, p, hp, hm⟩
    · rintro ⟨window, hw, p, hp, hm⟩
      exact ⟨p, ⟨window, hw, hp⟩, hm⟩
  rw [hwindows]
  simp only [stores_grid, mem_prepareProgram rfl]
  constructor
  · rintro ⟨window, hw, x, hx, head, hh, hactive, hm⟩
    exact ⟨window * c.windowTiles + x, digits_lt hw hx, hactive, head, hh, hm⟩
  · rintro ⟨tile, htile, hactive, head, hh, hm⟩
    obtain ⟨window, hw, x, hx, heq⟩ := exists_divMod (P := fun window x =>
      window * c.windowTiles + x = tile) |>.mp
      ⟨tile, htile, Nat.div_add_mod' _ _⟩
    subst heq
    exact ⟨window, hw, x, hx, head, hh, hactive, hm⟩

theorem prepares_conv {slot : Int} {j ch : Nat} {v : α} :
    ¬ Stores (c.prepares m) (.conv slot j ch) v := by
  intro hs
  obtain ⟨tile, -, -, head, -, column, -, tensor, -, ct, -, hm⟩ := stores_prepares.mp hs
  unfold Call.storeRow at hm
  by_cases ht : tensor < 2
  · rw [if_pos ht] at hm
    cases List.mem_singleton.mp hm
  · rw [if_neg ht] at hm
    split at hm
    · cases List.mem_singleton.mp hm
    · cases hm

theorem stores_stateUpdate {k : Addr} {v : α} : Stores (c.stateUpdate m) k v ↔ ∃ s < c.n,
    c.stateIndices s ≠ L.nullStateIndex ∧
    ∃ ch < L.convDim, ∃ j < 3, k = .conv (c.stateIndices s) j ch ∧
      v = if 3 ≤ c.length s + j then c.x (c.cuSeqlens s + (c.length s + j) - 3) ch
        else if c.initIndices s ≠ L.nullStateIndex then
          m (.conv (c.initIndices s) (c.length s + j) ch)
        else L.zero := by
  have hblock : ∀ ch, ch / 128 < L.convDim / 128 ↔ ch < L.convDim := by
    intro ch
    have hdim : L.convDim = 3 * L.heads * 128 := by
      unfold Layer.convDim Layer.proj
      rw [Nat.mul_assoc]
    rw [hdim, Nat.mul_div_cancel _ (by decide), Nat.div_lt_iff_lt_mul (by decide)]
  unfold Call.stateUpdate
  simp only [stores_grid, mem_stateProgram]
  constructor
  · rintro ⟨s, -, block, hb, ⟨hs, hlive⟩, ch, rfl, hrest⟩
    exact ⟨s, hs, hlive, ch, (hblock ch).mp hb, hrest⟩
  · rintro ⟨s, hs, hlive, ch, hch, hrest⟩
    exact ⟨s, hs.trans_le c.n_le, ch / 128, (hblock ch).mpr hch, ⟨hs, hlive⟩, ch, rfl, hrest⟩

/-- **A call**: the prepares at once, the state update, the export. -/
theorem runs_launches (h : Runs c.launches m m') : ∃ m₁ m₂, Outcome (c.prepares m) m m₁ ∧
    Outcome (c.stateUpdate m₁) m₁ m₂ ∧ Outcome c.exportConvHistory m₂ m' := by
  unfold Call.launches at h
  obtain ⟨m₁, hprepare, m₂, hstate, m₃, hexport, hdone⟩ := runs_append.mp h
  refine ⟨m₁, m₂, ?_, hstate, show Outcome _ _ m' from (show m' = m₃ from hdone) ▸ hexport⟩
  -- the prepares read the states, which none of them stores to
  have hall := runs_outcome (fun k => ∃ slot j ch, k = .conv slot j ch) ?_ ?_ hprepare
  · rwa [List.flatMap_map] at hall
  · simp only [List.mem_map]
    rintro _ ⟨window, -, rfl⟩ m₂ hkept
    dsimp only
    rw [prepareProgram_congr fun slot j ch => hkept _ ⟨slot, j, ch, rfl⟩]
  · simp only [List.mem_map]
    rintro _ ⟨window, hw, rfl⟩ _ ⟨slot, j, ch, rfl⟩ v ⟨p, hp, hm⟩
    exact prepares_conv ⟨p, List.mem_flatMap.mpr ⟨window, hw, hp⟩, hm⟩

/-- No two sequences share a state slot, no two checkpoints a slot, and only the one at its end may
go to the state slot of its sequence. -/
structure Call.Distinct (c : Call α L.nullStateIndex) : Prop where
  states : ∀ s < c.n, ∀ s' < c.n, c.stateIndices s ≠ L.nullStateIndex →
    c.stateIndices s = c.stateIndices s' → s = s'
  exports : ∀ s s' offset offset' slot, c.Exports s offset slot → c.Exports s' offset' slot →
    s = s' ∧ offset = offset'
  atEnd : ∀ s offset slot, ∀ s' < c.n, c.Exports s offset slot → c.stateIndices s' = slot → s = s' ∧
    offset = c.length s

/-- A slot that the call stores to. -/
def Call.Names (c : Call α L.nullStateIndex) (slot : Int) : Prop :=
  (∃ s < c.n, c.stateIndices s = slot ∧ slot ≠ L.nullStateIndex) ∨ ∃ s offset,
    c.Exports s offset slot

/-- The rows of the call are disjoint. -/
theorem seq_unique {s s' : Nat} (row : Nat) (hs : s < c.n) (hs' : s' < c.n)
    (h : c.cuSeqlens s ≤ row ∧ row < c.cuSeqlens (s + 1))
    (h' : c.cuSeqlens s' ≤ row ∧ row < c.cuSeqlens (s' + 1)) : s = s' := by
  have hmono : ∀ a b, a ≤ b → b ≤ c.n → c.cuSeqlens a ≤ c.cuSeqlens b := by
    intro a b hab
    induction b, hab using Nat.le_induction with
    | base => exact fun _ => le_rfl
    | succ b hab ih => exact fun hb => (ih (by omega)).trans (c.cu_mono b (by omega))
  by_contra hne
  rcases Nat.lt_or_gt_of_ne hne with hlt | hgt
  · have := hmono (s + 1) s' hlt (by omega)
    omega
  · have := hmono (s' + 1) s hgt (by omega)
    omega

/-- **The outputs of a sequence**, in every tile of its rows and in `v_out`. -/
theorem outputs_of_call (hrun : Runs c.launches m m') (hs : s < c.n) (hb : c.Finds m s b)
    {i head column : Nat}
    (hi : i < c.length s) (hh : head < L.heads) (hc : column < 128) :
    (∀ tile < c.windows * c.windowTiles, tile < c.tilesCapacity → c.posSeq tile = s →
      c.posLocal tile = i / 16 →
      ∀ tensor < 2, m' (.raw tile head tensor (i % 16) column) =
        output L (b ++ c.chunk s) (b.length + i) (L.channel tensor head column)) ∧
      m' (.vOut (c.cuSeqlens s + i) (head * 128 + column)) =
        output L (b ++ c.chunk s) (b.length + i) (L.channel 2 head column) := by
  obtain ⟨m₁, m₂, hprepare, hstate, hexport⟩ := runs_launches hrun
  have hlen : c.length s = c.cuSeqlens (s + 1) - c.cuSeqlens s := rfl
  -- what is no state is as the prepares left it
  have hkept : ∀ k : Addr, (∀ slot j ch, k ≠ .conv slot j ch) → m' k = m₁ k := by
    intro k hk
    rw [hexport.kept, hstate.kept]
    · rintro v hv
      obtain ⟨s, -, -, ch, -, j, -, rfl, -⟩ := stores_stateUpdate.mp hv
      exact hk _ _ _ rfl
    · rintro v hv
      obtain ⟨s, offset, slot, -, j, -, ch, -, rfl, -⟩ := stores_export.mp hv
      exact hk _ _ _ rfl
  have hsplit : i / 16 * 16 + i % 16 = i := Nat.div_add_mod' i 16
  -- the row that a tile of the sequence has for the token
  have htile : ∀ tile, c.posSeq tile = s → c.posLocal tile = i / 16 →
      c.tileStart tile + i % 16 = c.cuSeqlens s + i ∧ i % 16 < c.tileRows tile ∧ ∀ tensor < 3,
        c.tileConv m tile head tensor (i % 16) column =
          output L (b ++ c.chunk s) (b.length + i) (L.channel tensor head column) := by
    intro tile hseq hl
    have hstart : c.tileStart tile = c.cuSeqlens s + i / 16 * 16 := by
      unfold Call.tileStart
      rw [hseq, hl, Int.toNat_natCast]
    refine ⟨by omega, ?_, fun tensor ht => ?_⟩
    · unfold Call.tileRows
      rw [hstart, hseq, Int.toNat_natCast]
      omega
    · rw [tileConv_eq hb hseq hl (by omega) (by omega) ht hh hc, hsplit]
  refine ⟨fun tile htile' hcap hseq hl tensor ht => ?_, ?_⟩
  · obtain ⟨-, hrows, hvalue⟩ := htile tile hseq hl
    rw [hkept (.raw tile head tensor (i % 16) column) nofun]
    refine hprepare.stored (stores_prepares.mpr ⟨tile, htile', ⟨hcap, by omega⟩, head, hh, column,
      hc, tensor, by omega, i % 16, by omega, ?_⟩) fun v hv => ?_
    · unfold Call.storeRow
      rw [if_pos ht, if_neg (by omega), hvalue tensor (by omega), List.mem_singleton]
    · obtain ⟨tile', -, -, head', -, column', -, tensor', -, ct, -, hm⟩ := stores_prepares.mp hv
      unfold Call.storeRow at hm
      by_cases ht' : tensor' < 2
      · rw [if_pos ht'] at hm
        obtain ⟨hkey, rfl⟩ := Prod.mk.inj (List.mem_singleton.mp hm)
        simp only [Addr.raw.injEq] at hkey
        obtain ⟨rfl, rfl, rfl, rfl, rfl⟩ := hkey
        rw [if_neg (by omega), hvalue _ (by omega)]
      · rw [if_neg ht'] at hm
        split at hm
        · cases List.mem_singleton.mp hm
        · cases hm
  · rw [hkept (.vOut (c.cuSeqlens s + i) (head * 128 + column)) nofun]
    obtain ⟨tile, htile', hcap, hseq, hl⟩ := c.exists_tile s hs (i / 16) (by omega)
    obtain ⟨hrow, hrows, hvalue⟩ := htile tile hseq hl
    refine hprepare.stored (stores_prepares.mpr ⟨tile, htile', ⟨hcap, by omega⟩, head, hh, column,
      hc, 2, by omega, i % 16, by omega, ?_⟩) fun v hv => ?_
    · unfold Call.storeRow
      rw [if_neg (by omega), if_pos hrows, hvalue 2 (by omega), hrow, List.mem_singleton]
    · obtain ⟨tile', -, ⟨hcap', hseq'⟩, head', -, column', hc', tensor', ht', ct, hct, hm⟩ :=
        stores_prepares.mp hv
      unfold Call.storeRow at hm
      by_cases htwo : tensor' < 2
      · rw [if_pos htwo] at hm
        cases List.mem_singleton.mp hm
      · rw [if_neg htwo] at hm
        split at hm
        · obtain ⟨hkey, rfl⟩ := Prod.mk.inj (List.mem_singleton.mp hm)
          simp only [Addr.vOut.injEq] at hkey
          obtain ⟨hrow', hcol⟩ := hkey
          obtain ⟨rfl, rfl⟩ := digits_inj hc hc' hcol
          -- the row is one of the sequence's, so the tile is too
          obtain ⟨hn, hin⟩ := c.tile_of tile' hcap' hseq'
          have hstart : c.tileStart tile' = c.cuSeqlens (c.posSeq tile').toNat + c.posLocal
            tile' * 16 := rfl
          have hct' : ct < c.tileRows tile' := by assumption
          unfold Call.tileRows at hct'
          obtain rfl : s = (c.posSeq tile').toNat :=
            seq_unique (c.cuSeqlens s + i) hs (by omega) (by omega) (by omega)
          obtain rfl : tensor' = 2 := by omega
          obtain rfl : ct = i % 16 := by omega
          exact (htile tile' (by omega) (by omega)).2.2 2 (by omega)
        · cases hm

/-- **What the state update stores** is the last three inputs. -/
theorem state_value (hb : c.Finds m s b) {j ch : Nat} (hj : j < 3) (hch : ch < L.convDim) :
    (if 3 ≤ c.length s + j then c.x (c.cuSeqlens s + (c.length s + j) - 3) ch
      else if c.initIndices s ≠ L.nullStateIndex then
        m (.conv (c.initIndices s) (c.length s + j) ch)
      else L.zero) =
      input L.zero (b ++ c.chunk s) ((b ++ c.chunk s).length - 3 + j) ch := by
  rw [List.length_append, length_chunk]
  by_cases h3 : 3 ≤ c.length s + j
  · rw [if_pos h3, Nat.add_sub_assoc h3, ← input_chunk (b := b) (by omega)]
    congr 1
    omega
  · rw [if_neg h3, input_before hb (by omega) hch]
    congr 1
    omega

/-- **What the export stores** is the last three inputs before the checkpoint. -/
theorem export_value {offset slot : Int} (h : c.Exports s offset slot) {j : Nat}
    (hj : j < 3) (ch : Nat) :
    c.x (c.cuSeqlens s + offset.toNat - 3 + j) ch = input L.zero
      (b ++ (c.chunk s).take offset.toNat)
      ((b ++ (c.chunk s).take offset.toNat).length - 3 + j) ch := by
  obtain ⟨-, -, p, rfl, hp, hle⟩ := h.bounds
  have hlen : (b ++ (c.chunk s).take p).length = b.length + p := by
    rw [List.length_append, List.length_take, length_chunk, Nat.min_eq_left hle]
  rw [Int.toNat_natCast, hlen]
  -- the rest of the call's rows comes later
  rw [← input_append_left (c := (c.chunk s).drop p) (by rw [hlen]; omega), List.append_assoc,
    List.take_append_drop]
  have hrow : c.cuSeqlens s + p - 3 + j = c.cuSeqlens s + (p - 3 + j) := by omega
  rw [hrow, ← input_chunk (b := b) (by omega)]
  congr 1
  omega

/-- **The state slot of a sequence and the slots of its checkpoints** after a call. -/
theorem states_of_call (hd : c.Distinct) (hrun : Runs c.launches m m') (hb : c.Finds m s b) :
    (s < c.n → c.stateIndices s ≠ L.nullStateIndex →
    Carries L m' (c.stateIndices s) (b ++ c.chunk s)) ∧
      ∀ offset slot, c.Exports s offset slot →
      Carries L m' slot (b ++ (c.chunk s).take offset.toNat) := by
  obtain ⟨m₁, m₂, hprepare, hstate, hexport⟩ := runs_launches hrun
  have hconv : ∀ slot j ch, m₁ (.conv slot j ch) = m (.conv slot j ch) := fun slot j ch =>
    hprepare.kept fun v => prepares_conv
  have hexported : ∀ offset slot, c.Exports s offset slot →
    Carries L m' slot (b ++ (c.chunk s).take offset.toNat) := by
    intro offset slot h j hj ch hch
    refine hexport.stored (stores_export.mpr ⟨s, offset, slot, h, j, hj, ch, hch, rfl,
      (export_value h hj ch).symm⟩) ?_
    intro v hv
    obtain ⟨s', offset', slot', h', j', -, ch', -, hkey, rfl⟩ := stores_export.mp hv
    simp only [Addr.conv.injEq] at hkey
    obtain ⟨rfl, rfl, rfl⟩ := hkey
    obtain ⟨rfl, rfl⟩ := hd.exports _ _ _ _ _ h h'
    exact export_value h hj ch
  refine ⟨fun hs hlive => ?_, hexported⟩
  by_cases hboth : ∃ s' offset, c.Exports s' offset (c.stateIndices s)
  · -- the checkpoint at the end of the sequence
    obtain ⟨s', offset, h⟩ := hboth
    obtain ⟨rfl, rfl⟩ := hd.atEnd _ _ _ s hs h rfl
    have hall := hexported _ _ h
    rwa [Int.toNat_natCast, ← length_chunk, List.take_length] at hall
  · intro j hj ch hch
    rw [hexport.kept fun v hv => ?_]
    · refine hstate.stored (stores_stateUpdate.mpr ⟨s, hs, hlive, ch, hch, j, hj, rfl, ?_⟩)
        fun v hv => ?_
      · simp only [hconv]
        exact (state_value hb hj hch).symm
      · obtain ⟨s', hs', -, ch', -, j', -, hkey, rfl⟩ := stores_stateUpdate.mp hv
        simp only [Addr.conv.injEq] at hkey
        obtain ⟨hslot, rfl, rfl⟩ := hkey
        obtain rfl := hd.states s hs s' hs' hlive hslot
        simp only [hconv]
        exact state_value hb hj hch
    · obtain ⟨s', offset, slot, h, j', -, ch', -, hkey, -⟩ := stores_export.mp hv
      simp only [Addr.conv.injEq] at hkey
      exact hboth ⟨s', offset, hkey.1 ▸ h⟩

/-- **No other slot changes**, nor a row behind the third of any slot. -/
theorem kept_of_call (hrun : Runs c.launches m m') {slot : Int} {j ch : Nat}
    (h : ¬ c.Names slot ∨ 3 ≤ j) :
    m' (.conv slot j ch) = m (.conv slot j ch) := by
  obtain ⟨m₁, m₂, hprepare, hstate, hexport⟩ := runs_launches hrun
  rw [hexport.kept, hstate.kept, hprepare.kept fun v => prepares_conv]
  · intro v hv
    obtain ⟨s, hs, hlive, ch', -, j', hj', hkey, -⟩ := stores_stateUpdate.mp hv
    simp only [Addr.conv.injEq] at hkey
    obtain ⟨rfl, rfl, -⟩ := hkey
    rcases h with hno | hj
    · exact hno (Or.inl ⟨s, hs, rfl, hlive⟩)
    · omega
  · intro v hv
    obtain ⟨s, offset, slot', he, j', hj', ch', -, hkey, -⟩ := stores_export.mp hv
    simp only [Addr.conv.injEq] at hkey
    obtain ⟨rfl, rfl, -⟩ := hkey
    rcases h with hno | hj
    · exact hno (Or.inr ⟨s, offset, he⟩)
    · omega

end Calls

/-! ## Runs

`Reach` carries, beside the memory, which rows each slot is the state of. Between calls slots may be
copied, and lost. The invariant is that every slot holds the last three inputs of the rows it is
said to be the state of.
-/

section Run

variable {α : Type} {L : Layer α}

/-- The sequence so far behind each slot, where it has one. -/
abbrev History (α : Type) := Int → Option (Rows α)

/-- The rows of a sequence before the call: none without an initial state. -/
def Call.before (c : Call α L.nullStateIndex) (H : History α) (s : Nat) : Option (Rows α) :=
  if c.initIndices s = L.nullStateIndex then some [] else H (c.initIndices s)

/-- The sequence behind a slot after a call. -/
inductive Call.Leaves (c : Call α L.nullStateIndex) (H : History α) : Int → Rows α → Prop
  | state (s : Nat) (b : Rows α) : s < c.n → c.stateIndices s ≠ L.nullStateIndex →
      c.before H s = some b →
    Leaves c H (c.stateIndices s) (b ++ c.chunk s)
  | checkpoint (s : Nat) (b : Rows α) (offset slot : Int) : c.Exports s offset slot →
      c.before H s = some b →
    Leaves c H slot (b ++ (c.chunk s).take offset.toNat)
  | other (slot : Int) (l : Rows α) : ¬ c.Names slot → H slot = some l → Leaves c H slot l

/-- The memories that calls may leave, with the sequence behind each slot. Between calls slots are
copied and lost. -/
inductive Reach (L : Layer α) : History α → (Addr → α) → Prop
  | start (m : Addr → α) : Reach L (fun _ => none) m
  | call {H H' : History α} {m m' : Addr → α} (c : Call α L.nullStateIndex) :
      Reach L H m → c.Distinct →
    Runs c.launches m m' → (∀ slot l, H' slot = some l → c.Leaves H slot l) → Reach L H' m'
  | elsewhere {H H' : History α} {m m' : Addr → α} : Reach L H m →
    (∀ slot l, H' slot = some l → ∃ src, H src = some l ∧ ∀ j ch,
    m' (.conv slot j ch) = m (.conv src j ch)) → Reach L H' m'

variable {H : History α} {m m' : Addr → α} {c : Call α L.nullStateIndex}

/-- A call finds the sequences behind its initial states. -/
theorem finds_of_before (h : ∀ slot l, H slot = some l → Carries L m slot l) {s : Nat} {b : Rows α}
    (hb : c.before H s = some b) : c.Finds m s b := by
  unfold Call.before at hb
  unfold Call.Finds
  split_ifs at hb ⊢ with hinit
  · exact (Option.some.inj hb).symm
  · exact h _ _ hb

/-- **Every slot holds the last three inputs of the sequence behind it.** -/
theorem Reach.carries (h : Reach L H m) : ∀ slot l, H slot = some l → Carries L m slot l := by
  induction h with
  | start m => exact fun _ _ h => nomatch h
  | call c _ hd hrun hleaves ih =>
    intro slot l hslot
    cases hleaves slot l hslot with
    | state s b hs hlive hb => exact (states_of_call hd hrun (finds_of_before ih hb)).1 hs hlive
    | checkpoint s b offset slot he hb =>
      exact (states_of_call hd hrun (finds_of_before ih hb)).2 offset slot he
    | other slot l hno hl =>
      intro j hj ch hch
      rw [kept_of_call hrun (Or.inl hno)]
      exact ih slot l hl j hj ch hch
  | elsewhere _ hsrc ih =>
    intro slot l hslot j hj ch hch
    obtain ⟨src, hl, heq⟩ := hsrc slot l hslot
    rw [heq]
    exact ih src l hl j hj ch hch

/-- **The conv-fused prefill is the streaming convolution.** Take any run of calls and a further
call with distinct slots. For every sequence of it whose rows so far are `b`:

* each token's `q`, `k` and `v` are the function of its input and the three before it in `b` and the
  call's rows, in every tile that has its row and in `v_out`; such a tile is launched;
* the state slot is left with the last three inputs;
* each checkpoint's slot holds what a call whose rows end there would leave in its state slot.

No other slot changes. -/
theorem prefill_streams (h : Reach L H m) (hd : c.Distinct) (hrun : Runs c.launches m m') :
    (∀ s < c.n, ∀ b, c.before H s = some b →
      (∀ i < c.length s, ∀ head < L.heads, ∀ column < 128,
        (∃ tile < c.windows * c.windowTiles, tile < c.tilesCapacity ∧ c.posSeq tile = s ∧
        c.posLocal tile = i / 16) ∧
        (∀ tile < c.windows * c.windowTiles, tile < c.tilesCapacity → c.posSeq tile = s →
        c.posLocal tile = i / 16 → ∀ tensor < 2, m' (.raw tile head tensor (i % 16) column) =
            output L (b ++ c.chunk s) (b.length + i) (L.channel tensor head column)) ∧
        m' (.vOut (c.cuSeqlens s + i) (head * 128 + column)) =
          output L (b ++ c.chunk s) (b.length + i) (L.channel 2 head column)) ∧
      (c.stateIndices s ≠ L.nullStateIndex → Carries L m' (c.stateIndices s) (b ++ c.chunk s)) ∧
      ∀ offset slot, c.Exports s offset slot →
      Carries L m' slot (b ++ (c.chunk s).take offset.toNat) ∧
        ∀ (c₂ : Call α L.nullStateIndex) (m₂ : Addr → α), c₂.Distinct →
        Runs c₂.launches m m₂ → ∀ s₂ < c₂.n,
          c₂.stateIndices s₂ ≠ L.nullStateIndex → c₂.before H s₂ = some b →
          c₂.chunk s₂ = (c.chunk s).take offset.toNat →
          ∀ j < 3, ∀ ch < L.convDim, m' (.conv slot j ch) = m₂ (.conv (c₂.stateIndices s₂) j ch)) ∧
    ∀ slot j ch, ¬ c.Names slot ∨ 3 ≤ j → m' (.conv slot j ch) = m (.conv slot j ch) := by
  refine ⟨fun s hs b hb => ?_, fun slot j ch hno => kept_of_call hrun hno⟩
  have hfinds := finds_of_before h.carries hb
  obtain ⟨hstate, hexports⟩ := states_of_call hd hrun hfinds
  refine ⟨fun i hi head hh column hc => ⟨c.exists_tile s hs (i / 16) ?_,
    outputs_of_call hrun hs hfinds hi hh hc⟩,
    hstate hs, fun offset slot he => ⟨hexports offset slot he, ?_⟩⟩
  · exact (Nat.div_mul_le_self i 16).trans_lt hi
  · intro c₂ m₂ hd₂ hrun₂ s₂ hs₂ hlive hb₂ hchunk j hj ch hch
    have hthere := (states_of_call hd₂ hrun₂ (finds_of_before h.carries hb₂)).1 hs₂
      hlive j hj ch hch
    rw [hthere, hchunk]
    exact hexports offset slot he j hj ch hch

end Run

/-! ## One sequence of seventeen rows -/

/-- One head, and a convolution that keeps its four inputs apart. -/
def oneHead : Layer Nat where
  heads := 1
  nullStateIndex := 0
  convSilu _ a b c d := ((a * 100 + b) * 100 + c) * 100 + d
  zero := 0

theorem one_sequence : 1 ≤ 1 := le_rfl

/-- A chunk of a sequence, with a checkpoint behind its first tile. -/
def seventeenRows (hasInitialState : Bool) : Call Nat oneHead.nullStateIndex where
  n := 1
  seqCapacity := 1
  cuSeqlens s := 17 * s
  stateIndices _ := 1
  hasInitialState _ := hasInitialState
  x t _ := t + 10
  windows := 1
  windowTiles := 2
  tilesCapacity := 2
  errorCode := 0
  posSeq _ := 0
  posLocal tile := tile
  perSeq := [[(16, 2)]]
  maxCheckpoints := 1
  ckpt := ⟨[[2]], [[16]], 1, [⟨13, 2, 0⟩, ⟨14, 2, 1⟩, ⟨15, 2, 2⟩]⟩
  n_le := one_sequence
  cu_mono := by decide
  errorCode_eq := rfl
  tile_of := by decide
  exists_tile := by
    intro s hs l hl
    obtain rfl : s = 0 := by omega
    exact ⟨l, by omega, by omega, rfl, rfl⟩
  perSeq_length := rfl
  ckpt_eq := rfl
  offset_le := by
    rintro (- | s) p hp
    · cases List.mem_singleton.mp hp
      decide
    · cases hp
  slot_nonneg := by
    rintro (- | s) p hp
    · cases List.mem_singleton.mp hp
      decide
    · cases hp

theorem seventeenRows_distinct (hasInitialState : Bool) :
    (seventeenRows hasInitialState).Distinct where
  states := by
    intro s (hs : s < 1) s' (hs' : s' < 1) _ _
    omega
  exports := by
    rintro (- | s) (- | s') offset offset' slot h h'
    · cases List.mem_singleton.mp h
      cases List.mem_singleton.mp h'
      exact ⟨rfl, rfl⟩
    · cases h'
    · cases h
    · cases h
  atEnd := by
    rintro (- | s) offset slot s' - h hslot
    · cases List.mem_singleton.mp h
      cases hslot
    · cases h

/-- The second chunk's first token sees the last three rows of the first. -/
theorem seventeenRows_streams : ∃ m₁ m₂, Runs (seventeenRows false).launches (fun _ => 0) m₁ ∧
    Runs (seventeenRows true).launches m₁ m₂ ∧ m₂ (.vOut 0 0) = 24252610 ∧
    m₂ (.conv 2 0 0) = 23 := by
  obtain ⟨m₁, h₁⟩ := exists_runs (seventeenRows false).launches fun _ => 0
  obtain ⟨m₂, h₂⟩ := exists_runs (seventeenRows true).launches m₁
  let H : History Nat := fun slot => if slot = 1 then
    some ([] ++ (seventeenRows false).chunk 0) else none
  have hreach : Reach oneHead H m₁ := by
    refine .call _ (.start _) (seventeenRows_distinct false) h₁ fun slot l hl => ?_
    obtain ⟨rfl, hl⟩ := Option.ite_none_right_eq_some.mp hl
    cases hl
    exact .state 0 [] (by decide) (by decide) rfl
  obtain ⟨hout, -, hexport⟩ := (prefill_streams hreach (seventeenRows_distinct true) h₂).1 0
    (by decide) _ rfl
  refine ⟨m₁, m₂, h₁, h₂, (hout 0 (by decide) 0 (by decide) 0 (by decide)).2.2, ?_⟩
  exact (hexport 16 2 List.mem_cons_self).1 0 (by decide) 0 (by decide)

end Ringside.KdaConv

import Ringside.DenseFp8.Apply
import Ringside.MhcPrefill.Stack
import Ringside.Races
import Ringside.Shards

/-!
# The KDA FP8 hand-off (`kda_fp8_handoff.py`)

Each rank quantizes the rows it owns; the bytes and scales of all ranks are gathered, in two pieces
or in one buffer for each rank, and the in-projection runs on what was gathered. This file says that
the projection gets what quantizing the gathered rows would give it.

* Quantization and product are any row-local functions: a row's bytes and the four bytes of its
  scale (`RowQuant`), and a row of the product (`RowGemm`). The tuned kernels compute what the
  served one does, as the dense module says of them.
* A collective copies the ranks' buffers in rank order. What nobody wrote to a buffer is arbitrary
  (`buf`), and that a view of it is aligned to its type is not modelled.
* `Handed` is what `gather` returns in its three forms: two gathered tensors, or blocks with the
  first row of each, over the ring or not. `ridesRing` is the choice.
* `applyW8a8` is the projection without the hand-off, with its own row chunks.
* Of the checks on the owner rows only the shape is modelled.

Results:
* `unpack_pack`: the rows of a rank's block are those it packed, whatever lies behind them.
* `ownerBlocks_rows`: the blocks of the owners hold the rows once and in order.
* `gatherFp8_eq`: what is handed to the projection, whatever was in the buffers.
* `gemm_rows`, `project_blocks`: its product, whole or block by block.
* `handoff_exact`: the rows, once and in order, and the projection of what they were quantized from.
-/

namespace Ringside.DenseFp8

open Ringside.Races Ringside.Shards Ringside.MhcPrefill

/-! ## Slices of a product -/

section Slices

variable {Y : Type}

/-- `out[lo : lo + len(ys)] = ys`. -/
def assign (out : Nat → Y) (lo : Nat) (ys : List Y) : Nat → Y := fun i =>
  if lo ≤ i then (ys[i - lo]?).getD (out i) else out i

/-- Slices of one function leave it wherever one of them is. -/
theorem foldl_assign (F : Nat → Y) : ∀ (slices : List (Nat × List Y)) (out : Nat → Y),
    (∀ p ∈ slices, ∀ i < p.2.length,
    p.2[i]? = some (F (p.1 + i))) → ∀ {r : Nat},
    (out r = F r ∨ ∃ p ∈ slices, p.1 ≤ r ∧ r < p.1 + p.2.length) →
      slices.foldl (fun out p => assign out p.1 p.2) out r = F r
  | [], _, _, _, h => h.elim id fun ⟨_, hp, _⟩ => absurd hp List.not_mem_nil
  | p :: slices, out, hall, r, h => by
    obtain ⟨hp, hall⟩ := List.forall_mem_cons.mp hall
    rw [List.foldl_cons]
    refine foldl_assign F slices _ hall ?_
    unfold assign
    by_cases hin : p.1 ≤ r ∧ r < p.1 + p.2.length
    · left
      rw [if_pos hin.1, hp (r - p.1) (by omega), Option.getD_some, Nat.add_sub_cancel' hin.1]
    · rcases h with heq | ⟨q, hq, hin'⟩
      · left
        split_ifs with hle
        · rw [List.getElem?_eq_none (by omega), Option.getD_none, heq]
        · exact heq
      · rcases List.mem_cons.mp hq with rfl | hq
        · exact absurd hin' hin
        · exact Or.inr ⟨q, hq, hin'⟩

end Slices

/-! ## Rows

Quantization and product work row by row; which kernel multiplies depends on how many rows a call
has. That the choice does not show is an assumption on the kernels, named in `RowGemm`.
-/

/-- `scaled_fp8_quant` with a scale for each token: a row's FP8 bytes, and its scale's. -/
structure RowQuant (X B : Type) where
  hidden : Nat
  values : X → List B
  scale : X → List B
  values_length : ∀ x, (values x).length = hidden
  scale_length : ∀ x, (scale x).length = 4

/-- The scaled product with the layer's weight, by a tuned kernel or the served one. -/
structure RowGemm (B C Y : Type) where
  run : Option C → List B → List B → Y
  run_some : ∀ cfg q s, run (some cfg) q s = run none q s

section Rows

variable {X B C Y : Type}

/-- `buf.view(n, width)`. -/
def viewRows (width n : Nat) (buf : List B) : List (List B) :=
  (List.range n).map fun i => (buf.drop (i * width)).take width

/-- The rows of a product. -/
def RowGemm.rows (g : RowGemm B C Y) (cfg : Option C) (q s : List (List B)) : List Y :=
    List.zipWith (g.run cfg) q s

/-- A rule of `GLM53_DENSE_FP8_GEMM`. -/
structure GemmRule (C : Type) where
  family : Family
  minRows : Nat
  maxRows : Nat
  cfg : C

/-- `_fp8_gemm_choice`, without a bias. -/
def fp8GemmChoice (rules : List (GemmRule C)) (family : Family) (m n k : Nat) : Option C :=
  if n % 16 ≠ 0 ∨ k % 16 ≠ 0 then none
  else (rules.find? fun r => r.family = family ∧ r.minRows ≤ m ∧ m ≤ r.maxRows).map GemmRule.cfg

/-- The in-projection as the hand-off finds it. -/
structure Projection (C : Type) where
  layer : Layer
  family : Family
  n : Nat
  k : Nat
  rules : List (GemmRule C)
  /-- `GLM53_KDA_FP8_HANDOFF_TUNED` and its lower bound. -/
  tuned : Bool
  tunedMinRows : Nat

/-- `_tuned`; the served kernel where tuning is off. -/
def Projection.tunedChoice (p : Projection C) (rows : Nat) : Option C :=
  if p.tuned = false ∨ rows < p.tunedMinRows ∨ p.rules = [] then
    none else fp8GemmChoice p.rules p.family rows p.n p.k

/-- Does a call of `m` rows run in row chunks? -/
def Projection.Chunks (p : Projection C) (m : Nat) : Prop :=
  p.layer.chunkRows ≠ 0 ∧ p.layer.chunkRows < m ∧ p.layer.chunkMinRows ≤ m

instance Projection.decidableChunks (p : Projection C) (m : Nat) : Decidable (p.Chunks m) :=
  inferInstanceAs (Decidable (_ ∧ _ ∧ _))

variable (quant : RowQuant X B) (gemm : RowGemm B C Y) (p : Projection C) (empty : Nat → Y)

/-- The W8A8 branch of `apply`, on rows that it quantizes itself. -/
def applyW8a8 (x : List X) : List Y :=
  if p.Chunks x.length then
    (List.range x.length).map <| (strided 0 x.length p.layer.chunkRows).foldl (fun out i =>
      let xs := (x.drop i).take p.layer.chunkRows
      assign out i (gemm.rows (fp8GemmChoice p.rules p.family xs.length p.n p.k)
        (xs.map quant.values) (xs.map quant.scale)))
      empty
  else
    gemm.rows (fp8GemmChoice p.rules p.family x.length p.n p.k) (x.map quant.values)
      (x.map quant.scale)

/-- What `gather` hands over: the rows' bytes and scales, or blocks of them with their first row,
and the row count. -/
inductive Handed (B : Type) where
  | two (q s : List (List B))
  | blocks (bs : List (Nat × List (List B) × List (List B))) (rows : Nat)

/-- `project`. -/
def project : Handed B → List Y
  | .blocks bs rows =>
    (List.range rows).map <| bs.foldl (fun out b =>
      assign out b.1 (gemm.rows (p.tunedChoice b.2.1.length) b.2.1 b.2.2)) empty
  | .two q s =>
    if p.Chunks q.length then
      (List.range q.length).map <| (strided 0 q.length p.layer.chunkRows).foldl (fun out i =>
        let qs := (q.drop i).take p.layer.chunkRows
        assign out i (gemm.rows (p.tunedChoice qs.length) qs ((s.drop i).take p.layer.chunkRows)))
          empty
    else gemm.rows (p.tunedChoice q.length) q s

end Rows

/-! ## Gathering

A rank sends its buffer over the ring, or its values and its scales in two gathers, or its buffer in
one. A buffer may be longer than what is packed into it, and what stands behind is arbitrary.
-/

/-- The selectors of the hand-off. -/
structure Selectors where
  /-- `GLM53_KDA_FP8_HANDOFF_GATHER=two`. -/
  two : Bool
  /-- `GLM53_KDA_FP8_HANDOFF_RING`. -/
  ring : Bool
  ringMinRows : Nat

section Gather

variable {X B : Type} (quant : RowQuant X B) (sel : Selectors) (o : PrefillOwnership)

/-- `RING_ROW_BYTES`. -/
def ringRowBytes : Nat := 8192

/-- The bytes of a rank's values and scales. -/
def RowQuant.used (quant : RowQuant X B) (rows : Nat) : Nat := rows * quant.hidden + 4 * rows

/-- `ring_rows`: the ring rows that a rank's buffer fills. -/
def ringRows : Nat := (quant.used o.ownerRows + ringRowBytes - 1) / ringRowBytes

/-- The length of a rank's buffer in the block form. -/
def blockBytes : Nat := (quant.used o.ownerRows + 16 - 1) / 16 * 16

/-- A rank's buffer: the values, the scales, and what was in it behind them. -/
def pack (x : List X) (buf : List B) : List B :=
  x.flatMap quant.values ++ x.flatMap quant.scale ++ buf.drop (quant.used x.length)

/-- The blocks of the gathered buffers, `blk` bytes for each rank. -/
def unpack (blk : Nat) (recv : List B) : List (Nat × List (List B) × List (List B)) :=
  ((List.range 4).takeWhile fun b => 0 < o.rows - b * o.ownerRows).map fun b =>
    let n := min o.ownerRows (o.rows - b * o.ownerRows)
    let base := b * blk
    let fp8Bytes := o.ownerRows * quant.hidden
    (b * o.ownerRows,
      (viewRows quant.hidden o.ownerRows ((recv.drop base).take fp8Bytes)).take n,
      (viewRows 4 o.ownerRows ((recv.drop (base + fp8Bytes)).take (4 * o.ownerRows))).take n)

/-- Does the gather ride the ring, whose region holds `maxRows` rows? -/
def ridesRing (ringMaxRows : Option Nat) : Bool :=
  sel.ring && decide (sel.ringMinRows ≤ o.rows) && ringMaxRows.any fun maxRows =>
    decide (4 * ringRows quant o ≤ maxRows)

/-- `gather`, where rank `r` has the owner rows `x r` and the buffer `buf r`. -/
def gatherFp8 (available : Bool) (ringMaxRows : Option Nat) (x : Nat → List X)
    (buf : Nat → List B) :
    Except String (Handed B × PrefillOwnership) :=
  if available = false then .error "mHC communicator became unavailable; no local fallback"
  else if (x o.rank).length ≠ o.ownerRows then
    .error "KDA FP8 handoff requires contiguous BF16 owner rows"
  else
    let handed :=
      if ridesRing quant sel o ringMaxRows then
        .blocks (unpack quant o (ringRows quant o * ringRowBytes) (gather 4 fun r =>
          pack quant (x r) (buf r))) o.rows
      else if sel.two then
        .two ((viewRows quant.hidden o.paddedRows (gather 4 fun r =>
          (x r).flatMap quant.values)).take o.rows)
          ((viewRows 4 o.paddedRows (gather 4 fun r => (x r).flatMap quant.scale)).take o.rows)
      else
        .blocks
          (unpack quant o (blockBytes quant o) (gather 4 fun r => pack quant (x r) (buf r))) o.rows
    .ok (handed, { o with agCount := o.agCount + 1 })

end Gather

/-! ## What is handed over -/

section Bytes

variable {X B : Type} {quant : RowQuant X B} {o : PrefillOwnership} {x : Nat → List X}
    {buf : Nat → List B} {blk : Nat}

/-- Rows of one width are skipped as such. -/
theorem drop_flatMap {β : Type} {f : β → List B} {w : Nat} : ∀ {l : List β},
    (∀ a ∈ l, (f a).length = w) → ∀ i, (l.flatMap f).drop (i * w) = (l.drop i).flatMap f
  | [], _, i => by simp
  | a :: l, h, 0 => by simp
  | a :: l, h, i + 1 => by
    have ha := h a List.mem_cons_self
    rw [List.flatMap_cons, List.drop_succ_cons,
      ← drop_flatMap (fun a ha => h a (List.mem_cons_of_mem _ ha)) i, Nat.succ_mul,
      Nat.add_comm, ← List.drop_drop, ← ha, List.drop_left]

/-- A view of rows of one width. -/
theorem viewRows_flatMap {f : X → List B} {w n : Nat} (hf : ∀ a, (f a).length = w) {l : List X}
    (hl : l.length = n) :
    viewRows w n (l.flatMap f) = l.map f := by
  subst hl
  unfold viewRows
  refine List.ext_getElem (by rw [List.length_map, List.length_map, List.length_range])
    fun i hi hi' => ?_
  have hlen : i < l.length := by simpa using hi'
  rw [List.getElem_map, List.getElem_range, drop_flatMap fun a _ => hf a, List.getElem_map,
    List.drop_eq_getElem_cons hlen, List.flatMap_cons, ← hf l[i], List.take_left]

theorem length_flatMap_rows {f : X → List B} {w : Nat} (hf : ∀ a, (f a).length = w) (l : List X) :
    (l.flatMap f).length = l.length * w := by
  rw [List.length_flatMap, List.map_congr_left fun a _ => hf a, List.map_const',
    List.sum_replicate, smul_eq_mul]

theorem length_pack {l : List X} {b : List B} (hb : quant.used l.length ≤ b.length) :
    (pack quant l b).length = b.length := by
  unfold pack
  unfold RowQuant.used at *
  rw [List.length_append, List.length_append, length_flatMap_rows quant.values_length,
    length_flatMap_rows quant.scale_length, List.length_drop]
  omega

/-- The blocks of the hand-off, of what each rank quantized. -/
def ownerBlocks (quant : RowQuant X B) (o : PrefillOwnership) (x : Nat → List X) :
    List (Nat × List (List B) × List (List B)) :=
  ((List.range 4).takeWhile fun b => 0 < o.rows - b * o.ownerRows).map fun b =>
    let rows := (x b).take (min o.ownerRows (o.rows - b * o.ownerRows))
    (b * o.ownerRows, rows.map quant.values, rows.map quant.scale)

/-- **The rows of a rank's block are those it packed**, whatever lies behind them. -/
theorem unpack_pack (hx : ∀ r < 4, (x r).length = o.ownerRows)
    (hbuf : ∀ r < 4, (buf r).length = blk)
    (hblk : quant.used o.ownerRows ≤ blk) :
    unpack quant o blk (gather 4 fun r => pack quant (x r) (buf r)) = ownerBlocks quant o x := by
  unfold unpack ownerBlocks
  refine List.map_congr_left fun b hb => ?_
  have hb4 : b < 4 := List.mem_range.mp ((List.takeWhile_sublist _).subset hb)
  -- the buffers from rank `b` on
  obtain ⟨behind, hrecv⟩ : ∃ behind, (gather 4 fun r => pack quant (x r) (buf r)).drop (b * blk) =
      (x b).flatMap quant.values ++ ((x b).flatMap quant.scale ++ behind) := by
    have hlen : ∀ r ∈ List.range 4, (pack quant (x r) (buf r)).length = blk := fun r hr => by
      have hr := List.mem_range.mp hr
      rw [length_pack (by rw [hx r hr, hbuf r hr]; exact hblk), hbuf r hr]
    unfold gather
    rw [drop_flatMap hlen, List.drop_eq_getElem_cons (by simpa using hb4), List.flatMap_cons,
      List.getElem_range]
    unfold pack
    rw [List.append_assoc, List.append_assoc]
    exact ⟨_, rfl⟩
  have hvalues : ((x b).flatMap quant.values).length = o.ownerRows * quant.hidden := by
    rw [length_flatMap_rows quant.values_length, hx b hb4]
  have hscale : ((x b).flatMap quant.scale).length = 4 * o.ownerRows := by
    rw [length_flatMap_rows quant.scale_length, hx b hb4, Nat.mul_comm]
  dsimp only
  rw [← List.drop_drop, hrecv, List.map_take, List.map_take,
    ← viewRows_flatMap quant.values_length (hx b hb4),
    ← viewRows_flatMap quant.scale_length (hx b hb4), List.take_left' hvalues,
    List.drop_left' hvalues, List.take_left' hscale]

/-- **Shares taken up to the last row** are the rows. -/
theorem flatMap_takeWhile {β : Type} {f : Nat → List β} (rows : Nat) {q : Nat} : ∀ {w s : Nat},
    (∀ r, s ≤ r → r < s + w → (f r).length = q) →
    ((List.range' s w).takeWhile fun b => 0 < rows - b * q).flatMap
    (fun b => (f b).take (min q (rows - b * q))) =
      ((List.range' s w).flatMap f).take (rows - s * q)
  | 0, _, _ => by simp
  | w + 1, s, h => by
    have hs : (f s).length = q := h s le_rfl (by omega)
    rw [List.range'_succ, List.flatMap_cons, List.takeWhile_cons]
    by_cases hpos : 0 < rows - s * q
    · rw [if_pos (decide_eq_true hpos), List.flatMap_cons, flatMap_takeWhile rows fun r hr hr' =>
        h r (by omega) (by omega), List.take_append, hs, Nat.succ_mul, Nat.sub_add_eq]
      congr 1
      rcases Nat.le_total q (rows - s * q) with hle | hle
      · rw [Nat.min_eq_left hle, List.take_of_length_le (by omega),
          List.take_of_length_le (by omega)]
      · rw [Nat.min_eq_right hle]
    · rw [if_neg (by simpa using hpos), Nat.eq_zero_of_not_pos hpos, List.take_zero,
        List.flatMap_nil]

end Bytes

/-! ## The projection

A product of many rows is the list of the products of each, so it can be computed in slices, blocks
or chunks, as long as they cover the rows.
-/

section Projected

variable {X B C Y : Type} {quant : RowQuant X B} {gemm : RowGemm B C Y} {p : Projection C}
    {empty : Nat → Y}
  {o : PrefillOwnership} {x : Nat → List X} {l : List X}

/-- A row of the product, as the served kernel computes it. -/
def projectRow (quant : RowQuant X B) (gemm : RowGemm B C Y) (a : X) : Y :=
    gemm.run none (quant.values a) (quant.scale a)

/-- **The product of quantized rows** is that of each, with whichever kernel. -/
theorem gemm_rows (cfg : Option C) : gemm.rows cfg (l.map quant.values) (l.map quant.scale) =
    l.map (projectRow quant gemm) := by
  have hrun : ∀ a, gemm.run cfg (quant.values a) (quant.scale a) = projectRow quant gemm a := by
    intro a
    cases cfg with
    | none => rfl
    | some cfg => exact gemm.run_some cfg _ _
  unfold RowGemm.rows
  rw [List.zipWith_map, List.zipWith_self]
  exact List.map_congr_left fun a _ => hrun a

variable (quant gemm) in
/-- Slices that are rows of a product and cover it. -/
theorem slices_eq (empty : Nat → Y) (slices : List (Nat × List Y))
    (h : ∀ s ∈ slices, ∃ n, s.2 = ((l.drop s.1).take n).map (projectRow quant gemm))
    (hcover : ∀ r < l.length, ∃ s ∈ slices, s.1 ≤ r ∧ r < s.1 + s.2.length) :
    (List.range l.length).map (slices.foldl (fun out s => assign out s.1 s.2) empty) =
      l.map (projectRow quant gemm) := by
  refine List.ext_getElem (by rw [List.length_map, List.length_map, List.length_range])
    fun r hr _ => ?_
  have hr' : r < l.length := by simpa using hr
  rw [List.getElem_map, List.getElem_range, List.getElem_map]
  have hall := foldl_assign (fun r => ((l[r]?).map (projectRow quant gemm)).getD (empty r)) slices
    empty (fun s hs i hi => ?_)
    (Or.inr (hcover r hr'))
  · rw [hall, List.getElem?_eq_getElem hr', Option.map_some, Option.getD_some]
  · obtain ⟨n, hrows⟩ := h s hs
    rw [hrows, List.length_map, List.length_take, List.length_drop] at hi
    have hin : s.1 + i < l.length := by omega
    rw [hrows, List.getElem?_map, List.getElem?_take_of_lt (by omega), List.getElem?_drop,
      List.getElem?_eq_getElem hin]
    rfl

/-- The row chunks of a call. -/
theorem chunks_eq (choice : Nat → Option C) (hchunks : p.Chunks l.length) :
    (List.range l.length).map ((strided 0 l.length p.layer.chunkRows).foldl (fun out i =>
      assign out i (gemm.rows (choice ((l.drop i).take p.layer.chunkRows).length)
        (((l.drop i).take p.layer.chunkRows).map quant.values)
          (((l.drop i).take p.layer.chunkRows).map quant.scale))) empty) =
      l.map (projectRow quant gemm) := by
  have hpos : 0 < p.layer.chunkRows := Nat.pos_of_ne_zero hchunks.1
  simp only [gemm_rows]
  rw [← slices_eq quant gemm empty ((strided 0 l.length p.layer.chunkRows).map fun i =>
    (i, ((l.drop i).take p.layer.chunkRows).map (projectRow quant gemm))), List.foldl_map]
  · rintro s hs
    obtain ⟨i, -, rfl⟩ := List.mem_map.mp hs
    exact ⟨_, rfl⟩
  · intro r hr
    refine ⟨_, List.mem_map.mpr ⟨r / p.layer.chunkRows * p.layer.chunkRows,
      (mem_strided hpos).mpr ⟨Nat.zero_le _, ?_, ?_⟩, rfl⟩,
      Nat.div_mul_le_self _ _, ?_⟩
    · exact (Nat.div_mul_le_self _ _).trans_lt hr
    · rw [Nat.mul_mod_left, Nat.zero_mod]
    · have hmod := Nat.mod_lt r hpos
      have hdiv := Nat.div_add_mod' r p.layer.chunkRows
      rw [List.length_map, List.length_take, List.length_drop]
      omega

theorem applyW8a8_eq : applyW8a8 quant gemm p empty l = l.map (projectRow quant gemm) := by
  unfold applyW8a8
  split_ifs with hchunks
  · exact chunks_eq (fun m => fp8GemmChoice p.rules p.family m p.n p.k) hchunks
  · exact gemm_rows _

theorem project_two : project gemm p empty (.two (l.map quant.values) (l.map quant.scale)) =
    l.map (projectRow quant gemm) := by
  unfold project
  simp only [List.length_map, ← List.map_drop, ← List.map_take]
  split_ifs with hchunks
  · rw [← chunks_eq p.tunedChoice hchunks]
  · exact gemm_rows _

/-- The rows of the forward, as the BF16 gather returns them. -/
def fullRows (o : PrefillOwnership) (x : Nat → List X) : List X := (gather 4 x).take o.rows

theorem rows_le (o : PrefillOwnership) : o.rows ≤ 4 * o.ownerRows := by
  unfold PrefillOwnership.ownerRows
  omega

theorem length_fullRows (hx : ∀ r < 4, (x r).length = o.ownerRows) :
    (fullRows o x).length = o.rows := by
  unfold fullRows
  rw [List.length_take, length_gather hx, Nat.min_eq_left (rows_le o)]

/-- **Row `j` of owner `r`** is row `r * ownerRows + j` of the forward. -/
theorem getElem?_fullRows (hx : ∀ r < 4, (x r).length = o.ownerRows) {r j : Nat} (hr : r < 4)
    (hj : j < o.ownerRows)
    (hrow : r * o.ownerRows + j < o.rows) : (fullRows o x)[r * o.ownerRows + j]? = (x r)[j]? := by
  unfold fullRows
  rw [List.getElem?_take_of_lt hrow, getElem?_gather hx hr hj]

/-- The rows that a block has are those of the forward from its first row on. -/
theorem drop_fullRows (hx : ∀ r < 4, (x r).length = o.ownerRows) {b : Nat} (hb : b < 4) :
    (x b).take (min o.ownerRows (o.rows - b * o.ownerRows)) =
      ((fullRows o x).drop (b * o.ownerRows)).take
        (min o.ownerRows (o.rows - b * o.ownerRows)) := by
  refine List.ext_getElem? fun j => ?_
  rw [List.getElem?_take, List.getElem?_take]
  split_ifs with hj
  · rw [List.getElem?_drop, getElem?_fullRows hx hb (by omega) (by omega)]
  · rfl

/-- **The blocks of the owners**: the rows once and in order, with their values and scales. -/
theorem ownerBlocks_rows (hx : ∀ r < 4, (x r).length = o.ownerRows) :
    (ownerBlocks quant o x).flatMap (fun b => (List.range b.2.1.length).map (b.1 + ·)) =
    List.range o.rows ∧
      (ownerBlocks quant o x).flatMap (fun b => b.2.1) = (fullRows o x).map quant.values ∧
      (ownerBlocks quant o x).flatMap (fun b => b.2.2) = (fullRows o x).map quant.scale := by
  have hshares : ∀ {β : Type} (f : Nat → List β), (∀ r < 4, (f r).length = o.ownerRows) →
      ((List.range 4).takeWhile fun b => 0 < o.rows - b * o.ownerRows).flatMap
        (fun b => (f b).take (min o.ownerRows (o.rows - b * o.ownerRows))) =
          (gather 4 f).take o.rows := by
    intro β f hf
    have hall := flatMap_takeWhile o.rows (w := 4) (s := 0) fun r _ hr => hf r (by omega)
    rw [Nat.zero_mul, Nat.sub_zero, ← List.range_eq_range'] at hall
    exact hall
  unfold ownerBlocks
  simp only [List.flatMap_map, List.length_map, ← List.map_flatMap]
  rw [hshares x hx]
  refine ⟨?_, rfl, rfl⟩
  have hrange := hshares (fun b => (List.range o.ownerRows).map (b * o.ownerRows + ·))
    fun r _ => by simp
  have hall : gather 4 (fun b => (List.range o.ownerRows).map (b * o.ownerRows + ·)) =
    List.range (4 * o.ownerRows) := by
    have hlen : ∀ r < 4, ((List.range o.ownerRows).map (r * o.ownerRows + ·)).length =
      o.ownerRows := fun r _ => by simp
    have htake := take_gather (l := List.range (4 * o.ownerRows)) hlen (by simp) fun r hr
      j hj hlt => by
      rw [List.getElem?_map, List.getElem?_range hj, List.getElem?_range (by simpa using hlt)]
      rfl
    rwa [List.length_range, List.take_of_length_le (length_gather hlen).le] at htake
  rw [hall, List.take_range, Nat.min_eq_left (rows_le o)] at hrange
  rw [← hrange]
  refine List.flatMap_congr fun b hb => ?_
  have hb4 : b < 4 := List.mem_range.mp ((List.takeWhile_sublist _).subset hb)
  rw [List.length_take, hx b hb4, ← List.map_take, List.take_range]

/-- **The product block by block** is that of all rows. -/
theorem project_blocks (hx : ∀ r < 4, (x r).length = o.ownerRows) :
    project gemm p empty (.blocks (ownerBlocks quant o x) o.rows) =
      (fullRows o x).map (projectRow quant gemm) := by
  have hlen := length_fullRows hx
  unfold project ownerBlocks
  simp only [List.foldl_map, gemm_rows]
  have hslices := slices_eq quant gemm (l := fullRows o x) empty
    (((List.range 4).takeWhile fun b => 0 < o.rows - b * o.ownerRows).map fun b =>
      (b * o.ownerRows, ((x b).take (min o.ownerRows (o.rows - b * o.ownerRows))).map
        (projectRow quant gemm)))
    (fun s hs => ?_) fun r hr => ?_
  · rw [List.foldl_map, hlen] at hslices
    exact hslices
  · obtain ⟨b, hb, rfl⟩ := List.mem_map.mp hs
    have hb4 : b < 4 := List.mem_range.mp ((List.takeWhile_sublist _).subset hb)
    exact ⟨_, congrArg (List.map _) (drop_fullRows hx hb4)⟩
  · have hcovered : r ∈ (ownerBlocks quant o x).flatMap fun b =>
      (List.range b.2.1.length).map (b.1 + ·) := by
      rw [(ownerBlocks_rows hx).1, List.mem_range, ← hlen]
      exact hr
    unfold ownerBlocks at hcovered
    rw [List.flatMap_map, List.mem_flatMap] at hcovered
    obtain ⟨b, hb, hin⟩ := hcovered
    obtain ⟨i, hi, rfl⟩ := List.mem_map.mp hin
    rw [List.mem_range, List.length_map] at hi
    exact ⟨_, List.mem_map.mpr ⟨b, hb, rfl⟩, Nat.le_add_right _ _, by
      rw [List.length_map]; exact Nat.add_lt_add_left hi _⟩

end Projected

/-! ## The hand-off

The owners' shares, cut to the rows that exist, are the rows of the forward in order. The rest is
that packing, gathering and unpacking is the identity on what was packed.
-/

section Handoff

variable {X B C Y : Type} (quant : RowQuant X B) (gemm : RowGemm B C Y) (p : Projection C)
    (sel : Selectors)
  (o : PrefillOwnership) (ringMaxRows : Option Nat)

/-- The rows that are handed over, in the order of the hand-off. -/
def Handed.covered : Handed B → List Nat
  | .two q _ => List.range q.length
  | .blocks bs _ => bs.flatMap fun b => (List.range b.2.1.length).map (b.1 + ·)

/-- Their bytes. -/
def Handed.values : Handed B → List (List B)
  | .two q _ => q
  | .blocks bs _ => bs.flatMap fun b => b.2.1

/-- Their scales. -/
def Handed.scales : Handed B → List (List B)
  | .two _ s => s
  | .blocks bs _ => bs.flatMap fun b => b.2.2

/-- The length of a rank's buffer. -/
def bufferBytes : Nat := if ridesRing quant sel o ringMaxRows then ringRows quant o * ringRowBytes
    else blockBytes quant o

/-- What a rank's buffer holds fits it. -/
theorem used_le : quant.used o.ownerRows ≤ bufferBytes quant sel o ringMaxRows := by
  unfold bufferBytes ringRows ringRowBytes blockBytes
  split_ifs <;> omega

/-- The pieces or blocks that the gather hands over. -/
def handedOf (x : Nat → List X) : Handed B :=
  if ridesRing quant sel o ringMaxRows = false ∧ sel.two = true then
    .two ((fullRows o x).map quant.values) ((fullRows o x).map quant.scale)
  else .blocks (ownerBlocks quant o x) o.rows

variable {quant sel o ringMaxRows}

/-- **What the gather returns**, whatever was in the buffers. -/
theorem gatherFp8_eq {x : Nat → List X} {buf : Nat → List B}
    (hx : ∀ r < 4, (x r).length = o.ownerRows)
    (hbuf : ∀ r < 4, (buf r).length = bufferBytes quant sel o ringMaxRows) :
    gatherFp8 quant sel o true ringMaxRows x buf = .ok (handedOf quant sel o ringMaxRows x,
      { o with agCount := o.agCount + 1 }) := by
  have hused := used_le quant sel o ringMaxRows
  have hpadded : (gather 4 x).length = o.paddedRows := length_gather hx
  have hpieces : ∀ {f : X → List B} {w : Nat}, (∀ a, (f a).length = w) →
      (viewRows w o.paddedRows (gather 4 fun r => (x r).flatMap f)).take o.rows =
      (fullRows o x).map f := by
    intro f w hf
    have hflat : (gather 4 fun r => (x r).flatMap f) = (gather 4 x).flatMap f :=
      List.flatMap_assoc.symm
    rw [hflat, viewRows_flatMap hf hpadded, ← List.map_take]
    rfl
  unfold bufferBytes at hbuf hused
  unfold gatherFp8 handedOf
  rw [if_neg (by simp), if_neg (not_not_intro (hx o.rank o.supported.2.2))]
  dsimp only
  by_cases hring : ridesRing quant sel o ringMaxRows = true
  · rw [if_pos hring] at hbuf hused
    rw [if_pos hring, if_neg (by simp [hring]), unpack_pack hx hbuf hused]
  · rw [if_neg hring] at hbuf hused
    rw [if_neg hring]
    by_cases htwo : sel.two = true
    · rw [if_pos htwo, if_pos ⟨by simpa using hring, htwo⟩, hpieces quant.values_length,
        hpieces quant.scale_length]
    · rw [if_neg htwo, if_neg (by simp [htwo]), unpack_pack hx hbuf hused]

variable (quant sel ringMaxRows) in
theorem handedOf_rows {x : Nat → List X} (hx : ∀ r < 4, (x r).length = o.ownerRows) :
    (handedOf quant sel o ringMaxRows x).covered = List.range o.rows ∧
      (handedOf quant sel o ringMaxRows x).values = (fullRows o x).map quant.values ∧
      (handedOf quant sel o ringMaxRows x).scales = (fullRows o x).map quant.scale := by
  unfold handedOf
  split_ifs
  · refine ⟨?_, rfl, rfl⟩
    exact congrArg List.range ((List.length_map _).trans (length_fullRows hx))
  · exact ownerBlocks_rows hx

theorem project_handedOf {x : Nat → List X} (empty : Nat → Y)
    (hx : ∀ r < 4, (x r).length = o.ownerRows) :
    project gemm p empty (handedOf quant sel o ringMaxRows x) =
      (fullRows o x).map (projectRow quant gemm) := by
  unfold handedOf
  split_ifs
  · exact project_two
  · exact project_blocks hx

/-- Owners that agree on the real rows hand over the same. -/
theorem handedOf_congr {x x' : Nat → List X} (hx : ∀ r < 4, (x r).length = o.ownerRows)
    (hx' : ∀ r < 4, (x' r).length = o.ownerRows)
    (hreal : ∀ r < 4, ∀ j < o.ownerRows, r * o.ownerRows + j < o.rows → (x r)[j]? = (x' r)[j]?) :
    handedOf quant sel o ringMaxRows x = handedOf quant sel o ringMaxRows x' := by
  have hlen := length_fullRows hx'
  have hfull : fullRows o x = fullRows o x' := by
    have htake := take_gather (l := fullRows o x') hx (by rw [hlen]; exact rows_le o) fun r hr
      j hj hlt => by
      rw [hlen] at hlt
      rw [getElem?_fullRows hx' hr hj hlt, hreal r hr j hj hlt]
    rwa [hlen] at htake
  have hblocks : ownerBlocks quant o x = ownerBlocks quant o x' := by
    unfold ownerBlocks
    refine List.map_congr_left fun b hb => ?_
    have hb4 : b < 4 := List.mem_range.mp ((List.takeWhile_sublist _).subset hb)
    dsimp only
    rw [drop_fullRows hx hb4, drop_fullRows hx' hb4, hfull]
  unfold handedOf
  rw [hfull, hblocks]

end Handoff

/-- **The hand-off of the KDA input.** Whatever form the gather takes, the owners' rows are handed
over once and in order, each with the bytes and the scale of its owner; rows of padding and what was
in the buffers have no part in it. The ring is ridden where its region holds the rows. The
projection of what is handed over is that of the gathered rows. -/
theorem handoff_exact {X B C Y : Type} (quant : RowQuant X B) (gemm : RowGemm B C Y)
    (p : Projection C) (sel : Selectors)
    (o : PrefillOwnership) (ringMaxRows : Option Nat) (x : Nat → List X) (buf : Nat → List B)
    (hx : ∀ r < 4, (x r).length = o.ownerRows)
    (hbuf : ∀ r < 4, (buf r).length = bufferBytes quant sel o ringMaxRows) :
    ∃ handed, gatherFp8 quant sel o true ringMaxRows x buf =
      .ok (handed, { o with agCount := o.agCount + 1 }) ∧
      handed.covered = List.range o.rows ∧
      (handed.values.length = o.rows ∧ handed.scales.length = o.rows) ∧
      (∀ r < 4, ∀ j < o.ownerRows, r * o.ownerRows + j < o.rows →
        handed.values[r * o.ownerRows + j]? = (x r)[j]?.map quant.values ∧
          handed.scales[r * o.ownerRows + j]? = (x r)[j]?.map quant.scale) ∧
      (∀ x' buf', (∀ r < 4, (x' r).length = o.ownerRows) →
        (∀ r < 4, (buf' r).length = bufferBytes quant sel o ringMaxRows) →
        (∀ r < 4, ∀ j < o.ownerRows, r * o.ownerRows + j < o.rows → (x r)[j]? = (x' r)[j]?) →
          gatherFp8 quant sel o true ringMaxRows x' buf' =
            gatherFp8 quant sel o true ringMaxRows x buf) ∧
      (ridesRing quant sel o ringMaxRows = true →
        ∃ maxRows, ringMaxRows = some maxRows ∧ 4 * ringRows quant o % 4 = 0 ∧
        4 * ringRows quant o ≤ maxRows) ∧
      ∀ empty empty', project gemm p empty handed = applyW8a8 quant gemm p empty'
        (fullRows o x) := by
  obtain ⟨hcovered, hvalues, hscales⟩ := handedOf_rows quant sel ringMaxRows hx
  refine ⟨_, gatherFp8_eq hx hbuf, hcovered, ?_, ?_, ?_, ?_, ?_⟩
  · rw [hvalues, hscales, List.length_map, List.length_map]
    exact ⟨length_fullRows hx, length_fullRows hx⟩
  · intro r hr j hj hlt
    rw [hvalues, hscales, List.getElem?_map, List.getElem?_map, getElem?_fullRows hx hr hj hlt]
    exact ⟨rfl, rfl⟩
  · intro x' buf' hx' hbuf' hreal
    rw [gatherFp8_eq hx hbuf, gatherFp8_eq hx' hbuf', handedOf_congr hx hx' hreal]
  · intro hrides
    unfold ridesRing at hrides
    rw [Bool.and_eq_true, Option.any_eq_true] at hrides
    obtain ⟨-, maxRows, hmax, hle⟩ := hrides
    exact ⟨maxRows, hmax, Nat.mul_mod_right _ _, of_decide_eq_true hle⟩
  · intro empty empty'
    rw [project_handedOf gemm p empty hx, applyW8a8_eq]

/-- Bytes that name their row. -/
def nameRow : RowQuant Nat Nat := ⟨4, fun a => [a, a, a, a], fun a => [a, 0, 0, 0], fun _ =>
    rfl, fun _ => rfl⟩

/-- A product that counts the bytes of a row. -/
def countBytes : RowGemm Nat Unit Nat := ⟨fun _ q s => q.length + s.length, fun _ _ _ => rfl⟩

theorem five_supported : 1 ≤ 5 ∧ 5 ≤ maxRows ∧ 1 < 4 := by decide

/-- Five rows, on the second of the owners. -/
def fiveRows : PrefillOwnership := ⟨1, 5, 0, 0, five_supported⟩

theorem two_owned : ∀ r < 4, [2 * r, 2 * r + 1].length = fiveRows.ownerRows := by decide

/-- The blocks of two rows, of which the last rank owns none and the third one. -/
theorem fiveRows_handoff : ∃ handed, gatherFp8 nameRow ⟨false, true, 4⟩ fiveRows true (some 8)
    (fun r => [2 * r, 2 * r + 1])
      (fun _ => List.replicate (bufferBytes nameRow ⟨false, true, 4⟩ fiveRows (some 8)) 7) =
        .ok (handed, { fiveRows with agCount := 1 }) ∧
    handed.covered = [0, 1, 2, 3, 4] := by
  obtain ⟨handed, heq, hcovered, -⟩ := handoff_exact nameRow countBytes ⟨⟨none, [], [], 0, 0⟩,
    .kdaIn, 16, 16, [], false, 0⟩
    ⟨false, true, 4⟩ fiveRows (some 8) (fun r => [2 * r, 2 * r + 1])
    (fun _ => List.replicate (bufferBytes nameRow ⟨false, true, 4⟩ fiveRows (some 8)) 7) two_owned
    fun _ _ => List.length_replicate
  exact ⟨handed, heq, hcovered⟩

end Ringside.DenseFp8

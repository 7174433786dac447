import Mathlib.Algebra.BigOperators.Intervals
import Mathlib.Analysis.SpecialFunctions.Pow.Real
import Mathlib.Tactic.IntervalCases
import Ringside.OnlineSoftmax
import Ringside.SparseMla.Gather

/-!
# Sparse MLA (`csrc/sparse_mla.cu`)

`sparse_fwd_kernel` walks the tiles of a token's index row with an online softmax.
`sparse_fwd_pipe_kernel` is its copy with the indices a tile ahead, bounded by the tiles that can
hold a valid column. Either runs in one pass or in splits that `combine_kernel` merges. This file
says that all of them return one attention, and models the host's choice among them.

* Arithmetic is exact: elements of a linearly ordered field; `exp2f` is any positive function that
  turns sums into products. What rounding makes of a reordered sum is not bounded here.
* A token: all heads of a block. An `mma` is taken for one element of its result, so fragments and
  lanes are left out, as are the `GLM53_ABLATE_*` builds. The butterfly of `__shfl_xor_sync` and the
  two ways of adding up the weights (`kTreeSum`) are modelled, since their order differs.
* A masked score (`-INFINITY`) is `none`; `fmaxf` and the maximum of a head are options too, so that
  a fully masked tile is the case the kernel guards.
* `Build` and `Config` are the `-DGLM53_M7*` flags and the template arguments; `Gemm1` is which
  chains they make of the first product.
* `chooseSplits`, `splitCost`, `liveTilesFor`, `launchVariant`, `launch` and `sparseFwdImpl` are the
  host functions, with the environment they read as a parameter (`Env`).

Results:
* `Gemm1.score_eq`: every way of cutting the first product into chains.
* `tileHead_eq`, `tileHead_masked`: a tile is one step of the online softmax, and a masked one none.
* `stands_kernel`: a pass stands for the valid columns of its tiles, masked or not, trimmed or not.
* `combine_empty`, `combine_eq`: splits that cover the tiles combine to the attention; a split
  without a live tile contributes nothing.
* `chooseSplits_best`, `chooseSplits_plan`: the automatic split count is the cheapest one, and the
  launch makes exactly that many splits, none of them empty.
* `launchVariant_eq`, `passes_agree`: every launch returns the attention over the valid columns.
* `sparseFwdImpl_eq`: so does the operation, under any environment, build, split count and mode.

Out of scope: the layout of fragments in registers, the memory the loads are overlapped with, and
the numerics of bf16 and fp8 (a cache row is taken after its conversion).
-/

namespace Ringside.SparseMla

open OnlineSoftmax

variable {α R : Type}

/-! ## The first product

The builds differ in the order in which the products of a score are added up, and in how many
chains. With exact sums every order gives the dot product.
-/

section Products

variable [Field R]

/-- `mma_m16n8k16`, for one element: sixteen products onto the accumulator. -/
def mma (a b : Nat → R) (k : Nat) (s : R) : R := s + ∑ t ∈ Finset.range 16, a (k + t) * b (k + t)

/-- `n` of them onto zero, from `k` in steps of `stride`. -/
def chain (a b : Nat → R) (k stride n : Nat) : R :=
    (List.range n).foldl (fun s i => mma a b (k + i * stride) s) 0

/-- The builds of GEMM1. -/
inductive Gemm1
  | plain
  | m7a
  | m7b
  | m7c
deriving DecidableEq

/-- The score of a row, as each build adds it up. -/
def Gemm1.score (a b : Nat → R) : Gemm1 → R
  | .plain => chain a b 0 16 32
  | .m7a => chain a b 0 32 16 + chain a b 16 32 16
  | .m7b => (chain a b 0 64 8 + chain a b 16 64 8) + (chain a b 32 64 8 + chain a b 48 64 8)
  -- one partial product for each warp, added when the softmax reads them
  | .m7c => (chain a b 0 16 8 + chain a b 128 16 8) + (chain a b 256 16 8 + chain a b 384 16 8)

def dot (a b : Nat → R) : R := ∑ d ∈ Finset.range kDim, a d * b d

theorem sum_digits (f : Nat → R) (n k : Nat) :
    ∑ d ∈ Finset.range (n * k), f d = ∑ i ∈ Finset.range n, ∑ t ∈ Finset.range k,
    f (i * k + t) := by
  induction n with
  | zero => simp
  | succ n ih => rw [Nat.succ_mul, Finset.sum_range_add, ih, Finset.sum_range_succ]

theorem foldl_add (f : Nat → R) (n : Nat) (s : R) :
    (List.range n).foldl (fun s i => s + f i) s = s + ∑ i ∈ Finset.range n, f i := by
  induction n with
  | zero => simp
  | succ n ih =>
    rw [List.range_succ, List.foldl_append, ih, Finset.sum_range_succ, ← add_assoc]; rfl

theorem chain_eq (a b : Nat → R) (k stride n : Nat) : chain a b k stride n =
    ∑ i ∈ Finset.range n, ∑ t ∈ Finset.range 16,
    a (k + i * stride + t) * b (k + i * stride + t) := by
  have h := foldl_add (fun i => ∑ t ∈ Finset.range 16,
    a (k + i * stride + t) * b (k + i * stride + t)) n 0
  rw [zero_add] at h
  exact h

/-- **Every build of GEMM1 computes the score.** -/
theorem Gemm1.score_eq (a b : Nat → R) (v : Gemm1) : v.score a b = dot a b := by
  -- the products of the 32 sixteen-wide steps
  let f : Nat → R := fun i => ∑ t ∈ Finset.range 16, a (i * 16 + t) * b (i * 16 + t)
  have hdot : dot a b = ∑ i ∈ Finset.range 32, f i := sum_digits (fun d => a d * b d) 32 16
  have hchain : ∀ k m n, chain a b (k * 16) (m * 16) n = ∑ i ∈ Finset.range n, f (i * m + k) := by
    intro k m n
    rw [chain_eq]
    refine Finset.sum_congr rfl fun i _ => ?_
    rw [show k * 16 + i * (m * 16) = (i * m + k) * 16 by ring]
  have hzero : ∀ i, f (i * 1 + 0) = f i := fun i => by rw [Nat.mul_one, Nat.add_zero]
  cases v with
  | plain =>
    rw [hdot, Gemm1.score, hchain 0 1 32]
    exact Finset.sum_congr rfl fun i _ => hzero i
  | m7a =>
    rw [hdot, Gemm1.score, hchain 0 2 16, hchain 1 2 16, ← Finset.sum_add_distrib,
      sum_digits f 16 2]
    exact Finset.sum_congr rfl fun i _ => by rw [Finset.sum_range_succ, Finset.sum_range_one]
  | m7b =>
    rw [hdot, Gemm1.score, hchain 0 4 8, hchain 1 4 8, hchain 2 4 8, hchain 3 4 8,
      ← Finset.sum_add_distrib,
      ← Finset.sum_add_distrib, ← Finset.sum_add_distrib, sum_digits f 8 4]
    refine Finset.sum_congr rfl fun i _ => ?_
    rw [Finset.sum_range_succ, Finset.sum_range_succ, Finset.sum_range_succ,
      Finset.sum_range_one, ← add_assoc]
  | m7c =>
    have hwarp : ∀ v, chain a b (v * 8 * 16) 16 8 = ∑ i ∈ Finset.range 8,
      f (v * 8 + i) := fun v => by
      rw [hchain (v * 8) 1 8]
      exact Finset.sum_congr rfl fun i _ => by rw [Nat.mul_one, Nat.add_comm]
    have hsum := sum_digits f 4 8
    rw [Finset.sum_range_succ _ 3, Finset.sum_range_succ _ 2, Finset.sum_range_succ _ 1,
      Finset.sum_range_one, add_assoc] at hsum
    rw [hdot, Gemm1.score, hwarp 0, hwarp 1, hwarp 2, hwarp 3]
    exact hsum.symm

theorem sum_filter (valid : Nat → Bool) (f : Nat → R) (n : Nat) :
    (((List.range n).filter valid).map f).sum = ∑ i ∈ Finset.range n, if valid i then
    f i else 0 := by
  induction n with
  | zero => simp
  | succ n ih =>
    rw [List.range_succ, List.filter_append, List.map_append, List.sum_append, ih,
      Finset.sum_range_succ]
    by_cases h : valid n <;> simp [h]

end Products

/-! ## Builds -/

/-- The `-DGLM53_M7*` flags of a build. -/
structure Build where
  m7a : Bool
  m7b : Bool
  m7c : Bool
  m7d : Bool
  m7e : Bool

/-- What a kernel is instantiated with. -/
structure Config extends Build where
  kHeads : Nat
  kQKV : Bool

namespace Config

variable (v : Config)

/-- `GLM53_M7A`, defined before M7d and M7e imply M7c. -/
def m7aOn : Bool := v.m7a || v.m7b || v.m7c

/-- `GLM53_M7C_ON`. -/
def m7cOn : Bool := v.m7c || v.m7d || v.m7e

/-- `kM7C`. -/
def kM7C : Bool := v.m7cOn && v.kHeads == 16

/-- `kTreeSum`. -/
def kTreeSum : Bool := if v.m7e && v.kHeads == 16 then !v.kQKV else v.m7aOn

def gemm1 : Gemm1 := if v.kM7C then .m7c else if v.m7b then .m7b
    else if v.m7aOn then .m7a else .plain

end Config

/-! ## The softmax of a tile

Eight threads hold the columns of a head. The maximum and the sum are taken in each thread first and
then by a butterfly across the threads, after which all of them hold the same value.
-/

/-- `kTPH`, the threads of a head. -/
def kTPH : Nat := 8

/-- `kCols`, the columns of a thread. -/
def kCols : Nat := kBI / kTPH

/-- The butterfly of `__shfl_xor_sync` over the threads of a head. -/
def shflXor (op : R → R → R) (v : Nat → R) : Nat → R :=
  [1, 2, 4].foldl (fun v off sub => op (v sub) (v (sub ^^^ off))) v

/-- **Every thread of the head ends with the same value.** -/
theorem shflXor_eq (op : R → R → R) [Std.Associative op] [Std.Commutative op] (v : Nat → R)
    {sub : Nat} (h : sub < kTPH) :
    shflXor op v sub =
      op (op (op (v 0) (v 1)) (op (v 2) (v 3))) (op (op (v 4) (v 5)) (op (v 6) (v 7))) := by
  have h8 : sub < 8 := h
  unfold shflXor
  interval_cases sub <;> simp only [List.foldl_cons, List.foldl_nil, Nat.reduceXor] <;> ac_rfl

section Softmax

variable [Field R] [LinearOrder R] (exp2f : R → R) (c : R)

/-- `fmaxf` with a score that may be masked. -/
def fmaxf (m : R) : Option R → R
  | none => m
  | some x => max m x

/-- What the softmax of a head leaves: `alpha`, `m_state`, `sum_state` and the weights `p_s`. -/
structure Softmaxed (R : Type) where
  alpha : R
  m : R
  sum : R
  p : Nat → R

/-- The online softmax of a head over a tile: eight threads with four columns each. -/
def softmax (treeSum : Bool) (score : Nat → R) (valid : Nat → Bool) (mPrev sumPrev : R) :
    Softmaxed R :=
  let row := fun i => if valid i then some (score i) else none
  let mCur := shflXor max fun sub => (List.range kCols).foldl
    (fun m j => fmaxf m (row (sub * kCols + j))) mPrev
  let p := fun i => (row i).elim 0 fun x => exp2f (x * c - mCur (i / kCols) * c)
  let part := if treeSum then
      shflXor (· + ·) (fun sub => (List.range kCols).foldl (fun s j => s + p (sub * kCols + j)) 0) 0
    else (List.range kBI).foldl (fun s i => s + p i) 0
  let a := exp2f ((mPrev - mCur 0) * c)
  ⟨a, mCur 0, sumPrev * a + part, p⟩

variable {exp2f c} {treeSum : Bool} {score : Nat → R} {valid : Nat → Bool} {mPrev sumPrev : R}

/-- The weights are relative to the maximum that the head keeps. -/
theorem softmax_p {i : Nat} (h : i < kBI) :
    (softmax exp2f c treeSum score valid mPrev sumPrev).p i =
    if valid i then exp2f (score i * c - (softmax exp2f c treeSum score valid mPrev sumPrev).m * c)
      else 0 := by
  have hsub : i / kCols < kTPH := Nat.div_lt_of_lt_mul h
  simp only [softmax, shflXor_eq max _ hsub, shflXor_eq max _ (show 0 < kTPH by decide)]
  by_cases hvalid : valid i
  · rw [if_pos hvalid, if_pos hvalid]
    rfl
  · rw [if_neg hvalid, if_neg hvalid]
    rfl

/-- **Either way of adding up the weights.** -/
theorem softmax_sum : (softmax exp2f c treeSum score valid mPrev sumPrev).sum =
    sumPrev * (softmax exp2f c treeSum score valid mPrev sumPrev).alpha +
      ∑ i ∈ Finset.range kBI, (softmax exp2f c treeSum score valid mPrev sumPrev).p i := by
  cases treeSum with
  | false =>
    simp only [softmax, if_neg Bool.false_ne_true, foldl_add, zero_add]
  | true =>
    simp only [softmax, if_pos, foldl_add, zero_add,
      shflXor_eq (· + · : R → R → R) _ (show 0 < kTPH by decide)]
    rw [show kBI = kTPH * kCols from rfl, sum_digits]
    simp only [kTPH, Finset.sum_range_succ, Finset.sum_range_zero, zero_add]
    ring

end Softmax

/-! ## A tile

Here the kernel's loop body becomes the step of `OnlineSoftmax`. The kernel takes the maximum over a
tile first and rescales once; the step takes the same items at that maximum.
-/

/-- What a launch is given for a token: `exp2f` and the constants, the arguments, and what registers
and shared memory hold at the start. -/
structure Args (α R : Type) where
  exp2f : R → R
  kLog2e : R
  kNegBig : R
  conv : α → R
  smScale : R
  Q : Nat → Nat → R
  KV : Nat → Nat → α
  idxRow : Nat → Int
  topk : Nat
  regs : Nat → Regs α
  ix : Nat → Nat → Int
  tile : Tile R

section Tile

variable [Field R] (v : Config) (x : Args α R)

/-- `c`, the scale of the scores. -/
def Args.c : R := x.smScale * x.kLog2e

/-- `q_s`: the rows of the padding heads are zero. -/
def qS (h d : Nat) : R := if h < v.kHeads then x.Q h d else 0

/-- The valid rows of a tile, as the softmax takes them in. -/
def tileItems (q : Nat → R) (t : Tile R) : List (Item R (Fin kDim)) :=
  ((List.range kBI).filter t.valid).map fun i => ⟨dot q fun d => t.kv (i, d), fun d => t.kv (i, d)⟩

/-- The row that an index names, for the queries of a head. -/
def item (h : Nat) (raw : Int) : Item R (Fin kDim) :=
  ⟨dot (x.Q h) fun d => x.conv (x.KV (clamp raw) d), fun d => x.conv (x.KV (clamp raw) d)⟩

/-- The first `n` columns of an index row, less the masked ones. -/
def items (h : Nat) (idxRow : Nat → Int) (n : Nat) : List (Item R (Fin kDim)) :=
  ((List.range n).filter fun i => 0 ≤ idxRow i).map fun i => item x h (idxRow i)

variable [LinearOrder R]

/-- The body of the loop, for a head: GEMM1, softmax, rescale, GEMM2. -/
def tileHead (q : Nat → R) (t : Tile R) (st : Partial R (Fin kDim)) : Partial R (Fin kDim) :=
  let s := softmax x.exp2f x.c v.kTreeSum (fun i => v.gemm1.score q fun d => t.kv (i, d))
    t.valid st.m st.sum
  ⟨s.m, s.sum, fun d => mma s.p (fun i => t.kv (i, d)) 16
    (mma s.p (fun i => t.kv (i, d)) 0 (st.acc d * s.alpha))⟩

/-- The body of the loop. -/
def body (t : Tile R) (st : Nat → Partial R (Fin kDim)) (h : Nat) : Partial R (Fin kDim) :=
    tileHead v x (qS v x h) t (st h)

variable {v x}

/-- **A tile is one step of the online softmax**, at the maximum that the head keeps. -/
theorem tileHead_eq (q : Nat → R) (t : Tile R) (st : Partial R (Fin kDim)) :
    tileHead v x q t st = absorb x.exp2f x.c (tileHead v x q t st).m st (tileItems q t) := by
  have hscore : (fun i => v.gemm1.score q fun d => t.kv (i, d)) = fun i => dot q fun d =>
    t.kv (i, d) :=
    funext fun i => Gemm1.score_eq _ _ _
  -- what the softmax leaves, and its weight of a column
  obtain ⟨s, hs⟩ : ∃ s, s = softmax x.exp2f x.c v.kTreeSum (fun i => dot q fun d => t.kv (i, d))
    t.valid st.m st.sum :=
    ⟨_, rfl⟩
  have halpha : s.alpha = x.exp2f ((st.m - s.m) * x.c) := by rw [hs]; rfl
  have hp : ∀ i < kBI, s.p i =
      if t.valid i then x.exp2f ((dot q fun d => t.kv (i, d)) * x.c - s.m * x.c)
        else 0 := fun i hi => by
    rw [hs]
    exact softmax_p hi
  have hsum : s.sum = st.sum * s.alpha + ∑ i ∈ Finset.range kBI, s.p i := by
    rw [hs]
    exact softmax_sum
  have htile : tileHead v x q t st = ⟨s.m, s.sum, fun d =>
      mma s.p (fun i => t.kv (i, d)) 16
        (mma s.p (fun i => t.kv (i, d)) 0 (st.acc d * s.alpha))⟩ := by
    unfold tileHead
    rw [hscore, ← hs]
  rw [htile]
  unfold absorb
  simp only [Partial.mk.injEq, true_and, tileItems, List.map_map, Function.comp_def]
  refine ⟨?_, funext fun d => ?_⟩
  · rw [hsum, halpha, sum_filter t.valid]
    exact congrArg _ (Finset.sum_congr rfl fun i hi => hp i (Finset.mem_range.mp hi))
  · have hmma : ∀ y, mma s.p (fun i => t.kv (i, d)) 16 (mma s.p (fun i => t.kv (i, d)) 0 y) =
        y + ∑ i ∈ Finset.range kBI, s.p i * t.kv (i, d) := fun y => by
      rw [show kBI = 16 + 16 from rfl, Finset.sum_range_add]
      simp only [mma, zero_add, add_assoc]
    rw [hmma, halpha, sum_filter t.valid]
    refine congrArg _ (Finset.sum_congr rfl fun i hi => ?_)
    rw [hp i (Finset.mem_range.mp hi), ite_mul, zero_mul]

omit [LinearOrder R] in
/-- The rows of a published tile are the valid columns it was loaded for. -/
theorem tileItems_eq {h : Nat} (hh : h < v.kHeads) {idxRow : Nat → Int} {tile : Nat} {t : Tile R}
    (hold : Holds x.conv x.KV idxRow tile t) :
    tileItems (qS v x h) t = items x h (fun i => idxRow (tile * kBI + i)) kBI := by
  have hq : qS v x h = x.Q h := funext fun d => if_pos hh
  unfold tileItems items
  rw [List.filter_congr fun i hi => hold.valid i (List.mem_range.mp hi), hq]
  refine List.map_congr_left fun i hi => ?_
  have hkv := hold.kv i (List.mem_range.mp (List.mem_filter.mp hi).1)
  unfold item dot
  refine congrArg₂ _ (Finset.sum_congr rfl fun d hd => ?_) (funext fun d => hkv d d.isLt)
  exact congrArg (x.Q h d * ·) (hkv d (Finset.mem_range.mp hd))

/-- **A masked tile is no step at all.** -/
theorem tileHead_masked (hw : Exponential x.exp2f) {q : Nat → R} {t : Tile R}
    (hmasked : ∀ i < kBI, t.valid i = false)
    (st : Partial R (Fin kDim)) : tileHead v x q t st = st := by
  have hone : x.exp2f 0 = 1 := by
    have h := hw.add 0 0
    rw [add_zero] at h
    exact (mul_eq_left₀ (hw.pos 0).ne').mp h.symm
  -- no score moves the maximum
  have hm : (tileHead v x q t st).m = st.m := by
    have hrow : ∀ sub < kTPH, (List.range kCols).foldl (fun m j =>
        fmaxf m (if t.valid (sub * kCols + j) then
          some (v.gemm1.score q fun d => t.kv (sub * kCols + j, d)) else none))
        st.m = st.m := by
      intro sub hsub
      refine (List.foldl_ext _ (fun m _ => m) _ fun m j hj => ?_).trans (List.foldl_fixed _)
      have hlt : sub * kCols + j < kBI := Scatter.digits_lt hsub (List.mem_range.mp hj)
      rw [hmasked _ hlt]
      rfl
    simp only [tileHead, softmax, shflXor_eq max _ (show 0 < kTPH by decide)]
    simp only [hrow 0 (by decide), hrow 1 (by decide), hrow 2 (by decide), hrow 3 (by decide),
      hrow 4 (by decide), hrow 5 (by decide), hrow 6 (by decide), hrow 7 (by decide), max_self]
  have hnil : tileItems q t = [] := by
    unfold tileItems
    rw [List.filter_eq_nil_iff.mpr fun i hi => by
      rw [hmasked i (List.mem_range.mp hi)]; exact Bool.false_ne_true]
    rfl
  rw [tileHead_eq, hm, hnil]
  simp [absorb, hone]

end Tile

/-! ## The columns of a row

What a pass is over is a list: the columns of the index row up to a bound, less the masked ones. A
bound behind which all columns are masked cuts nothing off, and the lists of the splits append to
the list of the row.
-/

section Columns

variable [Field R] {x : Args α R} {h : Nat}

theorem items_add (idxRow : Nat → Int) (n k : Nat) :
    items x h idxRow (n + k) = items x h idxRow n ++ items x h (fun i => idxRow (n + i)) k := by
  unfold items
  rw [List.range_add, List.filter_append, List.map_append, List.filter_map, List.map_map]
  rfl

theorem items_masked {idxRow : Nat → Int} {n : Nat} (hmasked : ∀ i < n, idxRow i < 0) :
    items x h idxRow n = [] := by
  unfold items
  rw [List.filter_eq_nil_iff.mpr fun i hi => by simpa using hmasked i (List.mem_range.mp hi)]
  rfl

/-- **Trimmed columns** that are masked. -/
theorem items_trim {idxRow : Nat → Int} {n k : Nat} (hle : n ≤ k)
    (hmasked : ∀ i, n ≤ i → i < k → idxRow i < 0) :
    items x h idxRow k = items x h idxRow n := by
  obtain ⟨j, rfl⟩ := Nat.exists_eq_add_of_le hle
  rw [items_add, items_masked fun i hi => hmasked _ (Nat.le_add_right _ _)
    (Nat.add_lt_add_left hi n), List.append_nil]

/-- The tiles of `n` splits, cut off at a bound. -/
theorem items_splits (idxRow : Nat → Int) (tps bound n : Nat) :
    ((List.range n).map fun s => items x h (fun i => idxRow (s * tps * kBI + i))
    (min tps (bound - s * tps) * kBI)).flatten = items x h idxRow (min (n * tps) bound * kBI) := by
  induction n with
  | zero => simp [items]
  | succ n ih =>
    rw [List.range_succ, List.map_append, List.flatten_append, ih, List.map_singleton,
      List.flatten_singleton]
    rcases Nat.lt_or_ge (n * tps) bound with hlt | hge
    · rw [Nat.min_eq_left hlt.le, ← items_add, ← Nat.add_mul,
        show n * tps + min tps (bound - n * tps) = min ((n + 1) * tps) bound by
          rw [Nat.succ_mul]; omega]
    · rw [Nat.sub_eq_zero_of_le hge, Nat.min_zero, Nat.zero_mul, items_masked fun i hi =>
        absurd hi (Nat.not_lt_zero i),
        List.append_nil, Nat.min_eq_right hge,
        Nat.min_eq_right (hge.trans (Nat.mul_le_mul_right tps n.le_succ))]

end Columns

/-! ## The kernels

That a partial result stands for a list of items is the invariant of both loops. The pipelined one
loads a tile while the one before is worked on, so it is shown to publish the tiles of the plain
one, and needs no invariant of its own. The combine kernel merges results that stand for parts.
-/

section Kernels

variable [Field R] [LinearOrder R] (g : Chunking) (v : Config) (x : Args α R)

/-- The accumulators, maximum and sum at the start. -/
def start : Partial R (Fin kDim) := ⟨x.kNegBig, 0, fun _ => 0⟩

/-- Registers and shared memory before the loop. -/
def entry : LoopState α R (Nat → Partial R (Fin kDim)) := ⟨x.regs, x.tile, fun _ => start x⟩

/-- `tile_begin`: a split begins at its tiles, the single pass at the first. -/
def tileBegin (kSplit : Bool) (split tps : Nat) : Nat := if kSplit then split * tps else 0

/-- `num_tiles`, of a row that is walked up to `bound`. -/
def numTiles (kSplit : Bool) (split tps bound : Nat) : Nat :=
  if kSplit then min tps (bound - tileBegin kSplit split tps) else bound

/-- `idx_row`, at the first tile of a split. -/
def splitRow (kSplit : Bool) (split tps : Nat) (i : Nat) : Int :=
    x.idxRow (tileBegin kSplit split tps * kBI + i)

/-- The loop of `sparse_fwd_kernel`, before tile `k`. -/
def plainLoop (kSplit : Bool) (split tps k : Nat) : LoopState α R (Nat → Partial R (Fin kDim)) :=
  plainAt g x.conv x.KV (splitRow x kSplit split tps) (numTiles kSplit split tps (x.topk / kBI))
    (body v x) (entry x) k

/-- `sparse_fwd_kernel`, up to its epilogue. -/
def sparseFwdKernel (kSplit : Bool) (split tps : Nat) : Nat → Partial R (Fin kDim) :=
  (plainLoop g v x kSplit split tps (numTiles kSplit split tps (x.topk / kBI))).state

/-- The loop of `sparse_fwd_pipe_kernel`, before tile `k`. -/
def pipeLoop (kSplit : Bool) (split tps live k : Nat) :
    LoopState α R (Nat → Partial R (Fin kDim)) :=
  (pipeAt g x.conv x.KV (splitRow x kSplit split tps) (numTiles kSplit split tps live) (body v x)
    x.ix (entry x) k).2

/-- `sparse_fwd_pipe_kernel`, up to its epilogue. -/
def sparseFwdPipeKernel (kSplit : Bool) (split tps live : Nat) : Nat → Partial R (Fin kDim) :=
  (pipeLoop g v x kSplit split tps live (numTiles kSplit split tps live)).state

/-- The epilogue of a single pass: exactly zero of a zero sum. -/
def epilogue (p : Partial R (Fin kDim)) (d : Fin kDim) : R :=
    p.acc d * (if 0 < p.sum then 1 / p.sum else 0)

/-- `combine_kernel`, for a head. -/
def combineKernel (parts : List (Partial R (Fin kDim))) : Fin kDim → R :=
  let m := parts.foldl (fun m p => max m p.m) x.kNegBig
  epilogue (parts.foldl (fun lo p =>
    let w := x.exp2f ((p.m - m) * x.c)
    ⟨m, lo.sum + p.sum * w, fun d => lo.acc d + p.acc d * w⟩) ⟨m, 0, fun _ => 0⟩)

/-- **What every pass is to return**: the weighted average of the rows that the valid columns name;
zero of none. -/
def attention (h : Nat) (d : Fin kDim) : R :=
    average x.exp2f x.c (items x h x.idxRow (x.topk / kBI * kBI)) d

variable {g v x} {h : Nat} (hw : Exponential x.exp2f)

include hw

/-- The loop stands for the tiles it has walked. -/
theorem stands_plainAt (hh : h < v.kHeads) (idxRow : Nat → Int) {n : Nat} : ∀ {k : Nat}, k ≤ n →
    Stands x.exp2f x.c ((plainAt g x.conv x.KV idxRow n (body v x) (entry x) k).state h)
    (items x h idxRow (k * kBI))
  | 0, _ => by
    rw [Nat.zero_mul]
    exact stands_nil _
  | k + 1, hle => by
    have ih := stands_plainAt hh idxRow (k := k) (Nat.le_of_succ_le hle)
    have hold : Holds x.conv x.KV idxRow k (plainAt g x.conv x.KV idxRow n (body v x) (entry x)
      (k + 1)).tile :=
      plainAt_holds hle
    have hitems := items_add (x := x) (h := h) idxRow (k * kBI) kBI
    rw [Nat.succ_mul, hitems, ← tileItems_eq hh hold]
    show Stands x.exp2f x.c (tileHead v x _ _ _) _
    rw [tileHead_eq]
    exact ih.absorb hw _

/-- **A pass stands for the valid columns of its tiles.** -/
theorem stands_kernel (hh : h < v.kHeads) (kSplit : Bool) (split tps : Nat) :
    Stands x.exp2f x.c (sparseFwdKernel g v x kSplit split tps h)
      (items x h (splitRow x kSplit split tps) (numTiles kSplit split tps (x.topk / kBI) * kBI)) :=
  stands_plainAt hw hh _ le_rfl

theorem stands_pipeKernel (hh : h < v.kHeads) (kSplit : Bool) (split tps live : Nat) :
    Stands x.exp2f x.c (sparseFwdPipeKernel g v x kSplit split tps live h)
      (items x h (splitRow x kSplit split tps) (numTiles kSplit split tps live * kBI)) := by
  unfold sparseFwdPipeKernel pipeLoop
  rw [pipeAt_eq _ le_rfl]
  exact stands_plainAt hw hh _ le_rfl

omit hw in
/-- **The pipelined loop publishes the tiles of the plain one**, as far as it goes. -/
theorem pipeLoop_tile {kSplit : Bool} {split tps live n : Nat} (hle : live ≤ x.topk / kBI)
    (hn : n < numTiles kSplit split tps live) {r : Nat} (hr : r < kBI) :
    (pipeLoop g v x kSplit split tps live (n + 1)).tile.valid r =
      (plainLoop g v x kSplit split tps (n + 1)).tile.valid r ∧
      ∀ d < kDim, (pipeLoop g v x kSplit split tps live (n + 1)).tile.kv (r, d) =
        (plainLoop g v x kSplit split tps (n + 1)).tile.kv (r, d) := by
  have hn' : n < numTiles kSplit split tps (x.topk / kBI) := by
    refine hn.trans_le ?_
    unfold numTiles
    split_ifs
    · exact min_le_min_left tps (Nat.sub_le_sub_right hle _)
    · exact hle
  unfold pipeLoop plainLoop
  rw [pipeAt_eq _ hn]
  have hholds : ∀ bound, n < bound → Holds x.conv x.KV (splitRow x kSplit split tps) n
      (plainAt g x.conv x.KV (splitRow x kSplit split tps) bound (body v x) (entry x)
        (n + 1)).tile :=
    fun _ hbound => plainAt_holds hbound
  have hpipe := hholds _ hn
  have hplain := hholds _ hn'
  exact ⟨(hpipe.valid r hr).trans (hplain.valid r hr).symm,
    fun d hd => (hpipe.kv r hr d hd).trans (hplain.kv r hr d hd).symm⟩

omit [LinearOrder R] hw in
theorem foldl_merge (m : R) (parts : List (Partial R (Fin kDim))) (lo : Partial R (Fin kDim)) :
    parts.foldl (fun lo p =>
      let w := x.exp2f ((p.m - m) * x.c)
      ⟨m, lo.sum + p.sum * w, fun d => lo.acc d + p.acc d * w⟩) ⟨m, lo.sum, lo.acc⟩ =
    (⟨m, lo.sum + (merge x.exp2f x.c m parts).sum, fun d =>
      lo.acc d + (merge x.exp2f x.c m parts).acc d⟩ :
      Partial R (Fin kDim)) := by
  induction parts generalizing lo with
  | nil => simp [merge]
  | cons p parts ih =>
    have h := ih ⟨m, lo.sum + p.sum * x.exp2f ((p.m - m) * x.c), fun d =>
      lo.acc d + p.acc d * x.exp2f ((p.m - m) * x.c)⟩
    rw [List.foldl_cons]
    refine h.trans ?_
    simp only [merge, List.map_cons, List.sum_cons, add_assoc]

omit hw in
/-- `combine_kernel` merges at the greatest maximum. -/
theorem combineKernel_eq (parts : List (Partial R (Fin kDim))) : combineKernel x parts =
    epilogue (merge x.exp2f x.c (parts.foldl (fun m p => max m p.m) x.kNegBig) parts) := by
  unfold combineKernel
  have h := foldl_merge (x := x) (parts.foldl (fun m p => max m p.m) x.kNegBig) parts
    ⟨0, 0, fun _ => 0⟩
  simp only [zero_add] at h
  exact congrArg epilogue h

omit hw in
/-- **A split without a live tile** contributes nothing, wherever it stands. -/
theorem combine_empty (xs ys : List (Partial R (Fin kDim))) :
    combineKernel x (xs ++ start x :: ys) = combineKernel x (xs ++ ys) := by
  have hge : ∀ (l : List (Partial R (Fin kDim))) (m : R), x.kNegBig ≤ m →
      x.kNegBig ≤ l.foldl (fun m p => max m p.m) m := fun l => by
    induction l with
    | nil => exact fun m hm => hm
    | cons p l ih => exact fun m hm => ih _ (hm.trans (le_max_left _ _))
  have hmax : (xs ++ start x :: ys).foldl (fun m p => max m p.m) x.kNegBig =
      (xs ++ ys).foldl (fun m p => max m p.m) x.kNegBig := by
    rw [List.foldl_append, List.foldl_append, List.foldl_cons]
    exact congrArg (fun m => ys.foldl (fun m p => max m p.m) m) (max_eq_left (hge xs _ le_rfl))
  rw [combineKernel_eq, combineKernel_eq, hmax]
  simp [merge, start]

variable [IsStrictOrderedRing R]

/-- What stands for every valid column is normalized to the attention. -/
theorem epilogue_eq {p : Partial R (Fin kDim)} {n : Nat} (hle : n ≤ x.topk / kBI)
    (htrim : ∀ i, n * kBI ≤ i → i < x.topk / kBI * kBI → x.idxRow i < 0)
    (hst : Stands x.exp2f x.c p (items x h x.idxRow (n * kBI))) : epilogue p = attention x h :=
  funext fun d => by
    unfold epilogue attention
    rw [items_trim (Nat.mul_le_mul_right kBI hle) htrim]
    exact hst.normalize hw d

/-- **Splits and combine**: splits that cover the tiles, each standing for its columns below the
bound. -/
theorem combine_eq {part : Nat → Partial R (Fin kDim)} {tps nsplit live : Nat}
    (hle : live ≤ x.topk / kBI)
    (htrim : ∀ i, live * kBI ≤ i → i < x.topk / kBI * kBI → x.idxRow i < 0)
      (hcover : x.topk / kBI ≤ nsplit * tps)
    (hst : ∀ s, Stands x.exp2f x.c (part s) (items x h (splitRow x true s tps)
      (numTiles true s tps live * kBI))) :
    combineKernel x ((List.range nsplit).map part) = attention x h := by
  rw [combineKernel_eq]
  refine epilogue_eq hw hle htrim ?_
  have hparts : List.Forall₂ (Stands x.exp2f x.c) ((List.range nsplit).map part)
    ((List.range nsplit).map fun s =>
      items x h (splitRow x true s tps) (numTiles true s tps live * kBI)) := by
    rw [List.forall₂_map_left_iff, List.forall₂_map_right_iff]
    exact List.forall₂_same.mpr fun s _ => hst s
  have hmerge := stands_merge hw
    ((((List.range nsplit).map part).foldl (fun m p => max m p.m) x.kNegBig)) hparts
  have hsplits := items_splits (x := x) (h := h) x.idxRow tps live nsplit
  rw [Nat.min_eq_right (hle.trans hcover)] at hsplits
  rw [← hsplits]
  exact hmerge

end Kernels

/-! ## The host

The number of splits, the bound and the mode only decide which of the passes above runs, on which
columns.
-/

/-- `live_tiles_for`, with `GLM53_SPARSE_MLA_VALID_COLS` (zero when it is off). -/
def liveTilesFor (validCols topk mode : Nat) : Nat :=
  if mode = 2 ∧ 0 < validCols ∧ (validCols + 127) / 128 * 128 = topk then
    (validCols + kBI - 1) / kBI else topk / kBI

theorem liveTilesFor_le (validCols topk mode : Nat) :
    liveTilesFor validCols topk mode ≤ topk / kBI := by
  unfold liveTilesFor kBI
  split_ifs with h <;> omega

/-- The tiles of a split, and the number of splits: no empty one at the end. -/
def tilesPerSplit (splits numTiles : Nat) : Nat :=
    (numTiles + min splits numTiles - 1) / min splits numTiles

def splitCount (tps numTiles : Nat) : Nat := (numTiles + tps - 1) / tps

theorem splitCount_covers (splits numTiles : Nat) (hs : 0 < splits) (hn : 0 < numTiles) :
    numTiles ≤
      splitCount (tilesPerSplit splits numTiles) numTiles * tilesPerSplit splits numTiles := by
  have hmin : 0 < min splits numTiles := lt_min hs hn
  have htps : 0 < tilesPerSplit splits numTiles := Nat.div_pos (by omega) hmin
  have h := Nat.lt_div_mul_add (a := numTiles + tilesPerSplit splits numTiles - 1) htps
  unfold splitCount
  omega

/-- **The splits of a launch**: none is empty, there are no more than asked for, and every tile is
one split's. -/
theorem splits_partition {splits nt : Nat} (hs : 2 ≤ splits) (hn : 2 ≤ nt) :
    splitCount (tilesPerSplit splits nt) nt ≤ splits ∧
    (∀ s < splitCount (tilesPerSplit splits nt) nt,
    0 < numTiles true s (tilesPerSplit splits nt) nt) ∧
    ∀ t < nt, ∃! s, s < splitCount (tilesPerSplit splits nt) nt ∧
    tileBegin true s (tilesPerSplit splits nt) ≤ t ∧
      t < tileBegin true s (tilesPerSplit splits nt) + numTiles true s
        (tilesPerSplit splits nt) nt := by
  have hmin : 0 < min splits nt := lt_min (by omega) (by omega)
  obtain ⟨tps, htps⟩ : ∃ tps, tps = tilesPerSplit splits nt := ⟨_, rfl⟩
  have hpos : 0 < tps := by
    rw [htps]
    exact Nat.div_pos (by omega) hmin
  -- `tps` is the least number of tiles with which the splits asked for suffice
  have hcover : nt ≤ min splits nt * tps := by
    have h := Nat.lt_div_mul_add (a := nt + min splits nt - 1) hmin
    rw [htps]
    unfold tilesPerSplit
    rw [Nat.mul_comm]
    omega
  have hcount : ∀ s, s < splitCount tps nt ↔ s * tps < nt := fun s => by
    unfold splitCount
    rw [Nat.lt_iff_add_one_le, Nat.le_div_iff_mul_le hpos, Nat.succ_mul]
    omega
  rw [← htps]
  refine ⟨?_, fun s hs => ?_, fun t ht => ?_⟩
  · refine not_lt.mp fun hlt => ?_
    have := (hcount splits).mp hlt
    have := Nat.mul_le_mul_right tps (Nat.min_le_left splits nt)
    omega
  · have := (hcount s).mp hs
    unfold numTiles tileBegin
    rw [if_pos rfl, if_pos rfl]
    exact lt_min hpos (by omega)
  · have hdiv := Nat.div_add_mod' t tps
    have hmod := Nat.mod_lt t hpos
    refine ⟨t / tps, ⟨(hcount _).mpr (by omega), ?_, ?_⟩, ?_⟩
    · unfold tileBegin
      rw [if_pos rfl]
      omega
    · unfold numTiles tileBegin
      rw [if_pos rfl, if_pos rfl]
      omega
    · rintro s ⟨-, hle, hlt⟩
      unfold numTiles tileBegin at hlt
      unfold tileBegin at hle
      rw [if_pos rfl] at hle
      rw [if_pos rfl, if_pos rfl] at hlt
      refine (Nat.div_eq_of_lt_le hle ?_).symm
      rw [Nat.succ_mul]
      omega

/-- The environment that the launches read. -/
structure Env where
  splitKv : Bool
  splits : Int
  validCols : Nat
  idxPipe : Bool
  m7dMinRows : Nat
  sms : Nat

/-- The tile-unit cost of `s` splits. -/
def splitCost (sms T numTiles s : Nat) : Nat :=
  (T * s + sms - 1) / sms * ((numTiles + s - 1) / s + 7) + if 1 < s then 6 else 0

/-- `choose_splits`. -/
def chooseSplits (env : Env) (T numTiles : Nat) : Int :=
  if !env.splitKv || numTiles < 2 then 1
  else if 0 < env.splits then min env.splits numTiles
  else
    Int.ofNat ((List.range' 2 (min numTiles 16 - 1)).foldl
      (fun best s => if splitCost env.sms T numTiles s < splitCost env.sms T numTiles best then
        s else best) 1)

/-- A fold that keeps the better of what it has and what it meets. -/
theorem foldl_best (cost : Nat → Nat) (a k : Nat) (best : Nat) (hbest : best < a)
    (hfirst : ∀ s, 1 ≤ s → s < a → cost best ≤ cost s ∧ (cost s = cost best → best ≤ s))
    (hone : 1 ≤ best) :
    let r := (List.range' a k).foldl (fun best s => if cost s < cost best then s else best) best
    1 ≤ r ∧ r < a + k ∧ ∀ s, 1 ≤ s → s < a + k → cost r ≤ cost s ∧ (cost s = cost r → r ≤ s) := by
  induction k generalizing a best with
  | zero => exact ⟨hone, hbest, hfirst⟩
  | succ k ih =>
    rw [List.range'_succ, List.foldl_cons, show a + (k + 1) = a + 1 + k by omega]
    refine ih (a + 1) _ ?_ (fun s hs hlt => ?_) ?_
    · split_ifs <;> omega
    · have hle := hfirst s hs
      split_ifs with hbetter
      · rcases Nat.lt_or_ge s a with hsa | hsa
        · have := (hle hsa).1
          exact ⟨by omega, fun h => absurd h (by omega)⟩
        · obtain rfl : s = a := by omega
          exact ⟨le_rfl, fun _ => le_rfl⟩
      · rcases Nat.lt_or_ge s a with hsa | hsa
        · exact hle hsa
        · obtain rfl : s = a := by omega
          exact ⟨not_lt.mp hbetter, fun _ => hbest.le⟩
    · split_ifs
      · omega
      · exact hone

/-- **`choose_splits` takes the cheapest count**, the least one on ties. -/
theorem chooseSplits_best {env : Env} {T nt : Nat} (hon : env.splitKv = true)
    (hauto : env.splits ≤ 0) (hn : 2 ≤ nt) :
    ∃ best : Nat, chooseSplits env T nt = best ∧ 1 ≤ best ∧ best ≤ min nt 16 ∧
      ∀ s, 1 ≤ s → s ≤ min nt 16 → splitCost env.sms T nt best ≤ splitCost env.sms T nt s ∧
        (splitCost env.sms T nt s = splitCost env.sms T nt best → best ≤ s) := by
  have hbest := foldl_best (splitCost env.sms T nt) 2 (min nt 16 - 1) 1 (by omega)
    (fun s hs hlt => by
      obtain rfl : s = 1 := by omega
      exact ⟨le_rfl, fun _ => le_rfl⟩) le_rfl
  refine ⟨_, ?_, hbest.1, by have := hbest.2.1; omega, fun s hs hle => hbest.2.2 s hs (by omega)⟩
  unfold chooseSplits
  have hsmall : ¬nt < 2 := by omega
  have hforced : ¬0 < env.splits := by omega
  rw [if_neg (by simp [hon, hsmall]), if_neg hforced]
  rfl

/-- Fewer splits of the same size cost no more. -/
theorem splitCost_splitCount (sms T : Nat) {s nt : Nat} (hs : 2 ≤ s) (hle : s ≤ nt) :
    splitCost sms T nt (splitCount (tilesPerSplit s nt) nt) ≤ splitCost sms T nt s := by
  have hpart := splits_partition hs (hs.trans hle)
  have hcover := splitCount_covers s nt (by omega) (by omega)
  have htps : tilesPerSplit s nt = (nt + s - 1) / s := by
    unfold tilesPerSplit
    rw [Nat.min_eq_left hle]
  obtain ⟨n, hn⟩ : ∃ n, n = splitCount (tilesPerSplit s nt) nt := ⟨_, rfl⟩
  rw [← hn] at hpart hcover ⊢
  have hpos : 0 < n := Nat.pos_of_ne_zero fun hzero => by
    rw [hzero, Nat.zero_mul] at hcover
    omega
  have hdepth : (nt + n - 1) / n ≤ (nt + s - 1) / s := by
    rw [← htps, Nat.div_le_iff_le_mul_add_pred hpos]
    omega
  have hwaves : (T * n + sms - 1) / sms ≤ (T * s + sms - 1) / sms :=
    Nat.div_le_div_right (Nat.sub_le_sub_right
      (Nat.add_le_add_right (Nat.mul_le_mul_left T hpart.1) sms) 1)
  unfold splitCost
  refine Nat.add_le_add (Nat.mul_le_mul hwaves (Nat.add_le_add_right hdepth 7)) ?_
  split_ifs <;> omega

/-- **The plan of an automatic launch**: the cheapest count, taken as it is. What the launch derives
from it are that many splits, none of them empty, and every tile is one split's. -/
theorem chooseSplits_plan {env : Env} {T nt : Nat} (hon : env.splitKv = true)
    (hauto : env.splits ≤ 0) (hn : 2 ≤ nt) :
    ∃ best : Nat, chooseSplits env T nt = best ∧ 1 ≤ best ∧ best ≤ min nt 16 ∧
      (∀ s, 1 ≤ s → s ≤ min nt 16 → splitCost env.sms T nt best ≤ splitCost env.sms T nt s) ∧
      (2 ≤ best → splitCount (tilesPerSplit best nt) nt = best ∧
        (∀ s < best, 0 < numTiles true s (tilesPerSplit best nt) nt) ∧
        ∀ t < nt, ∃! s, s < best ∧ tileBegin true s (tilesPerSplit best nt) ≤ t ∧
          t < tileBegin true s (tilesPerSplit best nt) + numTiles true s
            (tilesPerSplit best nt) nt) := by
  obtain ⟨best, heq, hone, hle, hbest⟩ := chooseSplits_best (T := T) hon hauto hn
  refine ⟨best, heq, hone, hle, fun s hs hs' => (hbest s hs hs').1, fun htwo => ?_⟩
  have hpart := splits_partition htwo hn
  have hcover := splitCount_covers best nt (by omega) (by omega)
  have hpos : 1 ≤ splitCount (tilesPerSplit best nt) nt := Nat.pos_of_ne_zero fun hzero => by
    rw [hzero, Nat.zero_mul] at hcover
    omega
  -- a plan that needs fewer splits than asked for would have been as cheap, and met earlier
  have hcost := splitCost_splitCount env.sms T htwo (hle.trans (Nat.min_le_left _ _))
  have hmin := hbest _ hpos (hpart.1.trans hle)
  have hcount : splitCount (tilesPerSplit best nt) nt = best :=
    le_antisymm hpart.1 (hmin.2 (le_antisymm hcost hmin.1))
  rw [hcount] at hpart
  exact ⟨hcount, hpart.2.1, hpart.2.2⟩

/-- An automatic launch on 48 SMs. -/
def automatic : Env := ⟨true, 0, 0, false, 0, 48⟩

theorem chooseSplits_sixteenTiles : ∃ best : Nat, chooseSplits automatic 8 16 = best ∧
    1 ≤ best ∧ best ≤ 16 ∧
    (∀ s, 1 ≤ s → s ≤ 16 → splitCost 48 8 16 best ≤ splitCost 48 8 16 s) ∧
    (2 ≤ best → splitCount (tilesPerSplit best 16) 16 = best ∧
      (∀ s < best, 0 < numTiles true s (tilesPerSplit best 16) 16) ∧
      ∀ t < 16, ∃! s, s < best ∧ tileBegin true s (tilesPerSplit best 16) ≤ t ∧
        t < tileBegin true s (tilesPerSplit best 16) + numTiles true s
          (tilesPerSplit best 16) 16) :=
  @chooseSplits_plan automatic 8 16 rfl (by decide) (by decide)

/-- `pipe_mode_env`. -/
def pipeModeEnv (env : Env) : Nat := if env.idxPipe then if 0 < env.validCols then 2 else 1 else 0

section Host

variable [Field R] [LinearOrder R] (g : Chunking) (x : Args α R) (env : Env) (hasPipe : Bool)

/-- `launch_variant`, for one token and head. -/
def launchVariant (v : Config) (splits : Int) (mode : Nat) (h : Nat) : Fin kDim → R :=
  let numTiles := x.topk / kBI
  let pipe := hasPipe && 0 < mode
  let live := liveTilesFor env.validCols x.topk mode
  if splits ≤ 1 ∨ numTiles < 2 then
    if pipe then epilogue (sparseFwdPipeKernel g v x false 0 0 live h)
      else epilogue (sparseFwdKernel g v x false 0 0 h)
  else
    let tps := tilesPerSplit splits.toNat numTiles
    let nsplit := splitCount tps numTiles
    combineKernel x ((List.range nsplit).map fun s =>
      if pipe then sparseFwdPipeKernel g v x true s tps live h
        else sparseFwdKernel g v x true s tps h)

/-- `launch`: M7d from a number of rows on. -/
def launch (b : Build) (kHeads T : Nat) (splits : Int) (mode : Nat) (h : Nat) : Fin kDim → R :=
  let minRows := if b.m7e then env.m7dMinRows else if b.m7d then 0 else 2 ^ 30
  launchVariant g x env hasPipe ⟨b, kHeads, (b.m7d || b.m7e) && minRows ≤ T⟩ splits mode h

/-- `sparse_fwd_impl`: a negative split count or mode leaves the choice to the environment. -/
def sparseFwdImpl (b : Build) (kHeads T : Nat) (forcedSplits modeArg : Int) (h : Nat) :
    Fin kDim → R :=
  let splits := if forcedSplits < 0 then chooseSplits env T (x.topk / kBI) else forcedSplits
  let mode := if modeArg < 0 then pipeModeEnv env else modeArg.toNat
  launch g x env hasPipe b kHeads T splits mode h

variable {g x env hasPipe} [IsStrictOrderedRing R] {v : Config} {h : Nat}

/-- **Every launch returns the attention** over the valid columns. -/
theorem launchVariant_eq (hw : Exponential x.exp2f) (hh : h < v.kHeads) {splits : Int} {mode : Nat}
    (htrim : ∀ i, liveTilesFor env.validCols x.topk mode * kBI ≤ i → i < x.topk / kBI * kBI →
      x.idxRow i < 0) :
    launchVariant g x env hasPipe v splits mode h = attention x h := by
  have hlive := liveTilesFor_le env.validCols x.topk mode
  have hall : ∀ i, x.topk / kBI * kBI ≤ i → i < x.topk / kBI * kBI → x.idxRow i < 0 := fun i h h' =>
    absurd h' h.not_gt
  have hrow : splitRow x false 0 0 = x.idxRow := funext fun i => by simp [splitRow, tileBegin]
  unfold launchVariant
  by_cases hsingle : splits ≤ 1 ∨ x.topk / kBI < 2
  · simp only [if_pos hsingle]
    split_ifs
    · have hst := stands_pipeKernel (g := g) hw hh false 0 0
        (liveTilesFor env.validCols x.topk mode)
      rw [hrow] at hst
      exact epilogue_eq hw hlive htrim hst
    · have hst := stands_kernel (g := g) hw hh false 0 0
      rw [hrow] at hst
      exact epilogue_eq hw le_rfl hall hst
  · have hsplits : 1 < splits ∧ 2 ≤ x.topk / kBI := by rwa [not_or, not_le, not_lt] at hsingle
    have hcover := splitCount_covers splits.toNat (x.topk / kBI) (by omega) (by omega)
    simp only [if_neg hsingle]
    by_cases hpipe : (hasPipe && decide (0 < mode)) = true
    · simp only [if_pos hpipe]
      exact combine_eq hw hlive htrim hcover fun s => stands_pipeKernel hw hh true s _ _
    · simp only [if_neg hpipe]
      exact combine_eq hw le_rfl hall hcover fun s => stands_kernel hw hh true s _

/-- **All passes compute the same attention.** -/
theorem passes_agree (hw : Exponential x.exp2f) (hh : h < v.kHeads) {live : Nat}
    (hle : live ≤ x.topk / kBI)
    (htrim : ∀ i, live * kBI ≤ i → i < x.topk / kBI * kBI → x.idxRow i < 0) :
    -- the single pass and its pipelined copy
    epilogue (sparseFwdKernel g v x false 0 0 h) = attention x h ∧
    epilogue (sparseFwdPipeKernel g v x false 0 0 live h) = attention x h ∧
    -- splits that cover the tiles, with either kernel
    (∀ tps nsplit, x.topk / kBI ≤ nsplit * tps →
      combineKernel x ((List.range nsplit).map fun s => sparseFwdKernel g v x true s tps h) =
      attention x h ∧
      combineKernel x ((List.range nsplit).map fun s =>
      sparseFwdPipeKernel g v x true s tps live h) = attention x h) ∧
    -- whatever the host derives from a number of splits, a mode and the environment
    (∀ env hasPipe splits mode, liveTilesFor env.validCols x.topk mode = live →
      launchVariant g x env hasPipe v splits mode h = attention x h) ∧
    -- a masked row
    ((∀ i < x.topk / kBI * kBI, x.idxRow i < 0) → attention x h = 0) ∧
    -- the tiles that are published
    (∀ kSplit split tps n, n < numTiles kSplit split tps live → ∀ r < kBI,
      (pipeLoop g v x kSplit split tps live (n + 1)).tile.valid r =
        (plainLoop g v x kSplit split tps (n + 1)).tile.valid r ∧
      ∀ d < kDim, (pipeLoop g v x kSplit split tps live (n + 1)).tile.kv (r, d) =
        (plainLoop g v x kSplit split tps (n + 1)).tile.kv (r, d)) ∧
    -- a split beyond the live tiles
    (∀ split tps xs ys, live ≤ split * tps →
      combineKernel x (xs ++ sparseFwdPipeKernel g v x true split tps live h :: ys) =
        combineKernel x (xs ++ ys)) := by
  have hall : ∀ i, x.topk / kBI * kBI ≤ i → i < x.topk / kBI * kBI → x.idxRow i < 0 := fun i h h' =>
    absurd h' h.not_gt
  have hrow : splitRow x false 0 0 = x.idxRow := funext fun i => by simp [splitRow, tileBegin]
  refine ⟨?_, ?_, fun tps nsplit hcover => ⟨?_, ?_⟩, ?_, fun hmasked => ?_, ?_,
    fun split tps xs ys hbeyond => ?_⟩
  · have hst := stands_kernel (g := g) hw hh false 0 0
    rw [hrow] at hst
    exact epilogue_eq hw le_rfl hall hst
  · have hst := stands_pipeKernel (g := g) hw hh false 0 0 live
    rw [hrow] at hst
    exact epilogue_eq hw hle htrim hst
  · exact combine_eq hw le_rfl hall hcover fun s => stands_kernel hw hh true s tps
  · exact combine_eq hw hle htrim hcover fun s => stands_pipeKernel hw hh true s tps live
  · rintro env hasPipe splits mode rfl
    exact launchVariant_eq hw hh htrim
  · funext d
    unfold attention average
    rw [items_masked hmasked, if_pos rfl]
    rfl
  · exact fun kSplit split tps n hn r hr => pipeLoop_tile hle hn hr
  · have hnone : numTiles true split tps live = 0 := by
      unfold numTiles tileBegin
      rw [if_pos rfl, if_pos rfl, Nat.sub_eq_zero_of_le hbeyond, Nat.min_zero]
    have hstart : sparseFwdPipeKernel g v x true split tps live h = start x := by
      unfold sparseFwdPipeKernel
      rw [hnone]
      rfl
    rw [hstart, combine_empty]

/-- **The operation**, under any environment: with the columns from `GLM53_SPARSE_MLA_VALID_COLS` on
masked, as the indexer leaves them, it returns the attention over the valid columns, whatever build,
split count and mode it takes. -/
theorem sparseFwdImpl_eq (hw : Exponential x.exp2f) {kHeads : Nat} (hh : h < kHeads)
    (b : Build) (T : Nat)
    (forcedSplits modeArg : Int)
    (hpad : 0 < env.validCols → ∀ i, env.validCols ≤ i → i < x.topk → x.idxRow i < 0) :
    sparseFwdImpl g x env hasPipe b kHeads T forcedSplits modeArg h = attention x h := by
  unfold sparseFwdImpl launch
  generalize (if modeArg < 0 then pipeModeEnv env else modeArg.toNat) = mode
  refine launchVariant_eq hw hh fun i hi hlt => ?_
  unfold liveTilesFor at hi
  split_ifs at hi with htrim
  · refine hpad htrim.2.1 i (le_trans ?_ hi) (hlt.trans_le (Nat.div_mul_le_self _ _))
    unfold kBI
    omega
  · exact absurd hlt hi.not_gt

theorem fp8_elems_pos : 0 < 16 := by decide

theorem fp8_elems_dvd : 16 ∣ kDim := by decide

theorem fp8_threads_pos : 0 < 128 := by decide

theorem fp8_threads_dvd : 128 ∣ kBI * (kDim / 16) := by decide

/-- Chunks of sixteen fp8 elements, for the 128 threads of sixteen heads. -/
def fp8Chunking : Chunking := ⟨16, 128, fp8_elems_pos, fp8_elems_dvd, fp8_threads_pos,
    fp8_threads_dvd⟩

/-- An index row of four tiles whose last two are masked. -/
noncomputable def maskedTail : Args ℝ ℝ where
  exp2f t := (2 : ℝ) ^ t
  kLog2e := 3 / 2
  kNegBig := -1000000
  conv r := r
  smScale := 1 / 16
  Q h d := h + d
  KV r d := r - d
  idxRow i := if i < 40 then i % 7 else -1
  topk := 128
  regs _ := ⟨fun _ _ => 0, fun _ => false⟩
  ix _ _ := 0
  tile := ⟨fun _ => 0, fun _ => false⟩

theorem maskedTail_impl :
    sparseFwdImpl fp8Chunking maskedTail ⟨true, 0, 100, true, 256, 48⟩ true
      ⟨false, false, false, false, true⟩ 16 8
      (-1) (-1) 3 = attention maskedTail 3 :=
  sparseFwdImpl_eq ⟨fun a b => Real.rpow_add two_pos a b, fun a => Real.rpow_pos_of_pos two_pos a⟩
    (by decide) _ _ _ _
    fun _ i hi _ => by
      have hlt : ¬i < 40 := not_lt.mpr (le_trans (by decide) hi)
      simp only [maskedTail, if_neg hlt]
      decide

theorem maskedTail_passes : combineKernel maskedTail ((List.range 2).map fun s =>
    sparseFwdPipeKernel fp8Chunking ⟨⟨false, false, false, false, true⟩, 16, false⟩ maskedTail
      true s 2 2 3) =
      attention maskedTail 3 := by
  have hexp : Exponential maskedTail.exp2f :=
    ⟨fun a b => Real.rpow_add two_pos a b, fun a => Real.rpow_pos_of_pos two_pos a⟩
  have htrim : ∀ i, 2 * kBI ≤ i → i < maskedTail.topk / kBI * kBI → maskedTail.idxRow i < 0 :=
    fun i hi _ => by
    have hlt : ¬i < 40 := not_lt.mpr (le_trans (by decide) hi)
    simp only [maskedTail, if_neg hlt]
    decide
  exact ((passes_agree (g := fp8Chunking) (v := ⟨⟨false, false, false, false, true⟩, 16, false⟩)
    hexp (by decide)
    (show 2 ≤ maskedTail.topk / kBI by decide) htrim).2.2.1 2 2 (by decide)).2

end Host

end Ringside.SparseMla

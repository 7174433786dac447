import Mathlib.Algebra.Order.Floor.Semiring
import Ringside.Cut

/-!
# The exact top-k and top-p rows (`topk_topp_triton.py`)

A row whose cut the served passes cannot guarantee is recomputed by bisection over the values of its
logits. Model of `_exact_pivot`, `_exact_topk_row`, `_exact_topp_row`, `_exact_mask_row` and of the
fallback of a row.

* The floats are a linear order with `-inf` and `inf` at its ends and an integer key (`Floats`);
  `valueMid` and `sub88` are what the float arithmetic of `_exact_pivot` and of the floor gives,
  whatever it rounds to.
* `w` is `exp(x - m)`, sums are exact. A need that is not a number does not occur then, and its
  branch is left out.
* A round is a function on a state: `topkRound` with `topkPass`, `toppRound` with `toppPass` or
  `scratchPass` before `settle`. The searches are loops with `maxIters` as their fuel, which is the
  source's own bound.
* `verifyHint` is the end of the first pass; `applyHint` is what a bound that holds does to a
  bracket later. Both follow the source where a row that fits the scratch tile never summed the
  hint's masses.
* The audit record is left out.

The passes are in `Passes`, the searches in `Search`, the results in `Fallback`.
-/

namespace Ringside.ToppFallback

open Ringside.Scatter

/-- The floats. -/
structure Floats (α : Type) [LinearOrder α] [BoundedOrder α] where
  key : α → Int
  ofKey : Int → α
  /-- `lv + (hi - lv) * 0.5` -/
  valueMid : α → α → α
  /-- `m - 88.0` -/
  sub88 : α → α
  key_strictMono : StrictMono key
  key_ofKey : ∀ i, key ⊥ ≤ i → i ≤ key ⊤ → key (ofKey i) = i

/-- Where the searches stop. -/
def maxIters : Nat := 160

section Pivot

variable {α : Type} [LinearOrder α] [BoundedOrder α] (F : Floats α)

/-- `_exact_pivot`. -/
def exactPivot (floorX lo hi : α) : α :=
  let lv := max lo floorX
  let t := F.valueMid lv hi
  let tk := F.ofKey (F.key lo + (F.key hi - F.key lo) / 2)
  if lo < t ∧ t < hi then t else tk

end Pivot

section Kernel

variable {α : Type} [LinearOrder α] [BoundedOrder α] (vocabSize blockSize : Nat) (logits : Nat → α)

def numTiles : Nat := (vocabSize + blockSize - 1) / blockSize

/-- `tl.load` with its mask and other value. -/
def load (offs : Nat) : α := if offs < vocabSize then logits offs else ⊥

/-- A finite value above the pivot. -/
def Above (t y : α) : Prop := ⊥ < y ∧ t < y

/-- A finite value of the bracket. -/
def InBracket (lo hi y : α) : Prop := ⊥ < y ∧ lo < y ∧ y ≤ hi

instance decidableAbove (t y : α) : Decidable (Above t y) := inferInstanceAs (Decidable (_ ∧ _))

instance decidableInBracket (lo hi y : α) : Decidable (InBracket lo hi y) :=
    inferInstanceAs (Decidable (_ ∧ _))

/-- The lanes of a tile with a property. -/
def tileCount (p : α → Prop) [DecidablePred p] (i : Nat) : Nat :=
  Nat.count (fun j => p (load vocabSize logits (i * blockSize + j))) blockSize

/-- The weight of the lanes of a tile with a property. -/
def tileSum {R : Type} [AddCommMonoid R] (w : α → R) (p : α → Prop) [DecidablePred p]
    (i : Nat) : R :=
  ∑ j ∈ Finset.range blockSize,
    if p (load vocabSize logits (i * blockSize + j)) then
      w (load vocabSize logits (i * blockSize + j)) else 0

/-- The least value above the pivot so far, and how often it occurs. -/
structure Least (α : Type) where
  minl : α
  cm : Nat

/-- `minl` and `cm` after a tile. -/
def leastTile (t : α) (a : Least α) (i : Nat) : Least α :=
  let xa := fun j =>
    if Above t (load vocabSize logits (i * blockSize + j)) then
      load vocabSize logits (i * blockSize + j) else ⊤
  let tmin := (Finset.range blockSize).inf xa
  let tcnt := Nat.count (fun j => Above t (load vocabSize logits (i * blockSize + j)) ∧
    xa j = tmin) blockSize
  ⟨min a.minl tmin, if tmin < a.minl then tcnt else if tmin = a.minl then a.cm + tcnt else a.cm⟩

/-- The compacting stores of a tile: a lane goes to the running count. -/
def compactTile (p : α → Prop) [DecidablePred p] (scratchSize nw i : Nat) : List (Nat × α) :=
  let x := fun j => load vocabSize logits (i * blockSize + j)
  ((List.range blockSize).filter fun j => p (x j) ∧
    Nat.count (fun j => p (x j)) j + nw < scratchSize).map fun j =>
    (Nat.count (fun j => p (x j)) j + nw, x j)

/-! ## Top-k -/

/-- The state of the top-k search. -/
structure TopkState (α : Type) where
  lo : α
  hi : α
  tau : α
  n : Int
  done : Bool
  iters : Nat

/-- One pass over the row: the values above the pivot. -/
def topkPass (t : α) : Nat × Least α :=
  (List.range (numTiles vocabSize blockSize)).foldl (fun a i =>
    (a.1 + tileCount vocabSize blockSize logits (Above t) i,
      leastTile vocabSize blockSize logits t a.2 i)) (0, ⟨⊤, 0⟩)

/-- One round of `_exact_topk_row`. -/
def topkRound (F : Floats α) (k : Int) (minX : α) (s : TopkState α) : TopkState α :=
  let t := exactPivot F minX s.lo s.hi
  let (cnt, least) := topkPass vocabSize blockSize logits t
  let s := { s with iters := s.iters + 1 }
  if (k ≤ cnt ∧ (cnt : Int) - least.cm < k) ∨ t = s.lo ∨ maxIters ≤ s.iters then
    { s with tau := least.minl, n := max 1 (min (k - (cnt - least.cm)) least.cm), done := true }
  else if k ≤ cnt then { s with lo := least.minl }
  else { s with hi := t }

/-- The rounds of `_exact_topk_row`. -/
def topkSearch (F : Floats α) (k : Int) (minX : α) : Nat → TopkState α → TopkState α
  | 0, s => s
  | fuel + 1, s =>
    if s.done then s else topkSearch F k minX fuel (topkRound vocabSize blockSize logits F k minX s)

/-- `_exact_topk_row`. -/
def exactTopkRow (F : Floats α) (k : Int) (m minX : α) : α × Int :=
  let s := topkSearch vocabSize blockSize logits F k minX maxIters ⟨⊥, m, m, 1, false, 0⟩
  if m < s.tau then (m, 1) else (s.tau, s.n)

/-! ## Top-p -/

/-- The state of the top-p search. -/
structure ToppState (α R : Type) where
  lo : α
  hi : α
  aHi : R
  total : R
  target : R
  tau : α
  n : Int
  cand : Int
  nw : Nat
  stage : Nat
  first : Bool
  iters : Nat
  mHlo : R
  mHhi : R
  cH : Nat
  hintTaken : Bool
  hintApply : Bool
  hLoOk : Bool
  hHiOk : Bool
  scratch : Nat → α

/-- What a pass over the full row accumulates. -/
structure Pass (α R : Type) where
  acc : R
  mass : R
  least : Least α
  cDown : Nat
  cUp : Nat
  nw : Nat
  mHlo : R
  mHhi : R
  cH : Nat
  scratch : Nat → α

/-- What a round decides on. -/
structure Stats (α R : Type) where
  mass : R
  least : Least α
  cDown : Nat
  cUp : Nat

section Topp

variable {R : Type} [Field R] [LinearOrder R] [FloorSemiring R] (w : α → R) (p : R) (scratchSize :
    Nat) (hintLo hintHi : α)

/-- A tile of the pass over the full row. -/
def toppTile (s : ToppState α R) (t : α) (compact : Bool) (a : Pass α R) (i : Nat) : Pass α R :=
  let a := { a with
    acc := a.acc + tileSum vocabSize blockSize logits w (⊥ < ·) i
    mass := a.mass + tileSum vocabSize blockSize logits w (Above t) i
    least := leastTile vocabSize blockSize logits t a.least i
    cDown := a.cDown + tileCount vocabSize blockSize logits
      (fun y => InBracket s.lo s.hi y ∧ y ≤ t) i
    cUp := a.cUp + tileCount vocabSize blockSize logits (fun y => InBracket s.lo s.hi y ∧ t < y) i }
  let a := if compact then { a with
    scratch := stores (compactTile vocabSize blockSize logits (InBracket s.lo s.hi) scratchSize
      a.nw i) a.scratch
    nw := a.nw + tileCount vocabSize blockSize logits (InBracket s.lo s.hi) i } else a
  if scratchSize < vocabSize ∧ s.first then { a with
    mHlo := a.mHlo + tileSum vocabSize blockSize logits w (Above hintLo) i
    mHhi := a.mHhi + tileSum vocabSize blockSize logits w (Above hintHi) i
    scratch := stores (compactTile vocabSize blockSize logits (InBracket hintLo hintHi) scratchSize
      a.cH i) a.scratch
    cH := a.cH + tileCount vocabSize blockSize logits (InBracket hintLo hintHi) i } else a

/-- The pass over the full row. -/
def toppPass (s : ToppState α R) (t : α) (compact : Bool) : Pass α R :=
  (List.range (numTiles vocabSize blockSize)).foldl
    (toppTile vocabSize blockSize logits w scratchSize hintLo hintHi s t compact)
    ⟨0, 0, ⟨⊤, 0⟩, 0, 0, 0, s.mHlo, s.mHhi, s.cH, s.scratch⟩

/-- The end of the first pass: the target, and what the hint is good for. -/
def verifyHint (acc : R) (s : ToppState α R) : ToppState α R :=
  let s := { s with total := acc, target := p * acc, first := false }
  let s :=
    { s with hLoOk := s.target ≤ s.mHlo ∧ ⊥ < hintLo, hHiOk := s.mHhi < s.target ∧ hintHi < ⊤ }
  if s.hLoOk ∧ s.hHiOk ∧ 0 < s.cH ∧ s.cH ≤ scratchSize then
    { s with lo := hintLo, hi := hintHi, aHi := s.mHhi, nw := s.cH, hintTaken := true }
  else if s.hLoOk ∨ s.hHiOk then { s with hintApply := true }
  else s

/-- The pass over the scratch tile. -/
def scratchPass (s : ToppState α R) (t : α) : Stats α R :=
  let xs := fun o => if o < s.nw then s.scratch o else ⊥
  let xa := fun o => if s.lo < xs o ∧ xs o ≤ s.hi ∧ t < xs o then xs o else ⊤
  let minl := (Finset.range scratchSize).inf xa
  { mass := s.aHi + ∑ o ∈ Finset.range scratchSize,
      if s.lo < xs o ∧ xs o ≤ s.hi ∧ t < xs o then w (xs o) else 0
    least := ⟨minl, Nat.count (fun o => (s.lo < xs o ∧ xs o ≤ s.hi ∧ t < xs o) ∧
      xa o = minl) scratchSize⟩
    cDown := 0
    cUp := 0 }

/-- How many tokens at the cut are needed. -/
def keepCount (target rest eMin : R) (cm : Nat) : Int :=
  let need := min (max ((target - rest) / eMin) 0) 2000000000
  let nf := Nat.floor need
  let n : Nat := nf + if (nf : R) < need then 1 else 0
  max 1 (min n cm)

/-- What a hint bound that holds does to a bracket that is searched in full-row passes. -/
def applyHint (s : ToppState α R) : ToppState α R :=
  let s := if s.hLoOk ∧ s.lo < hintLo then { s with lo := hintLo, cand := vocabSize } else s
  let s := if s.hHiOk ∧ hintHi < s.hi then { s with hi := hintHi, aHi := s.mHhi, cand := vocabSize }
    else s
  let s := if s.lo = hintLo ∧ s.hi = hintHi then { s with cand := s.cH } else s
  { s with hintApply := false }

/-- The decision of a round. -/
def settle (s : ToppState α R) (t : α) (a : Stats α R) (compact : Bool) : ToppState α R :=
  let eMin := w a.least.minl
  let rest := a.mass - eMin * a.least.cm
  let s := { s with iters := s.iters + 1 }
  let exact := s.target ≤ a.mass ∧ rest < s.target
  if s.hintTaken then { s with stage := 1, hintTaken := false }
  else if exact ∨ t = s.lo ∨ maxIters ≤ s.iters then
    { s with
      tau := a.least.minl,
      n := if exact then keepCount s.target rest eMin a.least.cm else a.least.cm, stage := 2 }
  else
    let s := if s.target ≤ a.mass then { s with lo := a.least.minl, cand := a.cUp - a.least.cm }
      else { s with hi := t, aHi := a.mass, cand := a.cDown }
    if s.hintApply ∧ s.stage = 0 then applyHint vocabSize hintLo hintHi s
    else if s.stage = 0 ∧ compact then { s with stage := 1 }
    else s

/-- One round of `_exact_topp_row`. -/
def toppRound (F : Floats α) (m : α) (s : ToppState α R) : ToppState α R :=
  let t := exactPivot F (F.sub88 m) s.lo s.hi
  if s.stage = 0 then
    let compact : Bool := s.cand ≤ scratchSize
    let a := toppPass vocabSize blockSize logits w scratchSize hintLo hintHi s t compact
    let s := { s with nw := a.nw, mHlo := a.mHlo, mHhi := a.mHhi, cH := a.cH, scratch := a.scratch }
    let s := if s.first then verifyHint p scratchSize hintLo hintHi a.acc s else s
    settle vocabSize w hintLo hintHi s t ⟨a.mass, a.least, a.cDown, a.cUp⟩ compact
  else settle vocabSize w hintLo hintHi s t (scratchPass w scratchSize s t) false

/-- The rounds of `_exact_topp_row`. -/
def toppSearch (F : Floats α) (m : α) : Nat → ToppState α R → ToppState α R
  | 0, s => s
  | fuel + 1, s =>
    if s.stage < 2 then
      toppSearch F m fuel (toppRound vocabSize blockSize logits w p scratchSize hintLo hintHi F m s)
    else s

/-- The state before the first round. -/
def toppStart (m : α) (scratch : Nat → α) : ToppState α R where
  lo := ⊥
  hi := m
  aHi := 0
  total := 0
  target := 0
  tau := m
  n := 1
  cand := vocabSize
  nw := 0
  stage := 0
  first := true
  iters := 0
  mHlo := 0
  mHhi := 0
  cH := 0
  hintTaken := false
  hintApply := false
  hLoOk := false
  hHiOk := false
  scratch := scratch

/-- `_exact_topp_row`. -/
def exactToppRow (F : Floats α) (m : α) (scratch : Nat → α) : α × Int :=
  let s := toppSearch vocabSize blockSize logits w p scratchSize hintLo hintHi F m maxIters
    (toppStart vocabSize m scratch)
  if m < s.tau then (m, 1) else (s.tau, s.n)

end Topp

/-! ## The mask -/

/-- A tile of `_exact_mask_row`: the row and the ties so far. -/
def maskTile (tau : α) (n : Int) (maskValue : α) (a : (Nat → α) × Nat) (i : Nat) :
    (Nat → α) × Nat :=
  let x := fun j => load vocabSize a.1 (i * blockSize + j)
  let eq := fun j => i * blockSize + j < vocabSize ∧ x j = tau
  let keep := fun j => tau < x j ∨ (eq j ∧ ((Nat.count eq (j + 1) + a.2 : Nat) : Int) ≤ n)
  (fun o => if i * blockSize ≤ o ∧ o < i * blockSize + blockSize ∧ o < vocabSize then
      if keep (o - i * blockSize) then x (o - i * blockSize) else maskValue
    else a.1 o,
    a.2 + Nat.count eq blockSize)

/-- `_exact_mask_row`. -/
def exactMaskRow (tau : α) (n : Int) (maskValue : α) : Nat → α :=
  ((List.range (numTiles vocabSize blockSize)).foldl (maskTile vocabSize blockSize tau n maskValue)
    (logits, 0)).1

/-- The fallback of a row: top-k where it is active, then top-p. The served mask value is `-inf`. -/
def fallback {R : Type} [Field R] [LinearOrder R] [FloorSemiring R] (F : Floats α) (w : α → R)
    (scratchSize : Nat) (topkActive : Bool) (k : Int) (p : R) (m minX hintLo hintHi : α)
    (scratch : Nat → α) : Nat → α :=
  let logits := if topkActive then
      let cut := exactTopkRow vocabSize blockSize logits F k m minX
      exactMaskRow vocabSize blockSize logits cut.1 cut.2 ⊥
    else logits
  if p < 1 then
    let cut := exactToppRow vocabSize blockSize logits w p scratchSize hintLo hintHi F m scratch
    exactMaskRow vocabSize blockSize logits cut.1 cut.2 ⊥
  else logits

end Kernel

end Ringside.ToppFallback

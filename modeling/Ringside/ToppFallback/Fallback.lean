import Mathlib
import Ringside.ToppFallback.Search

/-!
# The exact fallback (`topk_topp_triton.py`)

The first round of the top-p search learns the target and what the hint is good for; then the
searches, the mask and the fallback of a row.

* A row that fits the scratch tile is not checked against the hint, and an upper hint bound below
  `inf` is then taken for one that holds. The results are about rows longer than the tile, or hints
  without an upper bound.
* A search that is cut at 160 rounds leaves what it has.
* Weights add up exactly: the order of the sums in a tile is not modelled.

## Results

* `exactTopkRow_spec`, `exactToppRow_spec`: a search that is not cut finds the cut.
* `toppStart_narrows`: a round of top-p ends the search, adopts the hint or narrows the bracket.
* `fallback_exact`: the fallback keeps the first `k` tokens, then the smallest prefix of the wanted
  weight.
* `fallback_limits`: three inputs on which it does not.
-/

namespace Ringside.ToppFallback

open Ringside.Scatter Ringside.Cut

variable {α : Type} [LinearOrder α] [BoundedOrder α] {vocabSize blockSize scratchSize : Nat}
    {logits : Nat → α} {F : Floats α}

/-! ## Top-k -/

/-- The maximum of a row, finite. -/
structure IsMax (vocabSize : Nat) (logits : Nat → α) (m : α) : Prop where
  le : ∀ j < vocabSize, logits j ≤ m
  attained : ∃ j < vocabSize, logits j = m
  finite : ⊥ < m
  lt_top : m < ⊤

theorem above_max {R : Type} [CommRing R] {v : α → R} {m : α} (hm : IsMax vocabSize logits m) :
    above logits vocabSize v m = 0 :=
  Finset.sum_eq_zero fun j hj => if_neg (hm.le j (Finset.mem_range.mp hj)).not_gt

/-- How many rounds `_exact_topk_row` makes. -/
def topkRounds (vocabSize blockSize : Nat) (logits : Nat → α) (F : Floats α) (k : Int)
    (m minX : α) : Nat :=
  (topkSearch vocabSize blockSize logits F k minX maxIters ⟨⊥, m, m, 1, false, 0⟩).iters

section Topk

variable {k : Int} {m minX : α} (hblock : 0 < blockSize)
    (hm : IsMax vocabSize logits m) (hk : 1 ≤ k)
  (hfinite : k ≤ Nat.count (fun o => ⊥ < logits o) vocabSize)

include hm hk hfinite in
theorem topk_start : TopkOpen vocabSize logits k ⟨⊥, m, m, 1, false, 0⟩ := by
  refine ⟨⟨?_, ?_⟩, hm.lt_top, rfl⟩
  · rw [above_unit]
    exact hfinite
  · rw [above_max hm]
    omega

include hblock hm hk hfinite in
/-- **`_exact_topk_row`**, when it is not cut. -/
theorem exactTopkRow_spec (hrounds : topkRounds vocabSize blockSize logits F k m minX < maxIters) :
    let cut := exactTopkRow vocabSize blockSize logits F k m minX
    IsCut vocabSize logits unitWeight k cut.1 cut.2 := by
  have hcut := (@topkSearch_spec α _ _ vocabSize blockSize logits F k minX _ hblock maxIters
    (topk_start hm hk hfinite) (Nat.le_add_left _ _) (by decide)).resolve_right hrounds.not_ge
  obtain ⟨i, hi, heq⟩ := hcut.value
  unfold exactTopkRow
  dsimp only
  rw [if_neg (heq ▸ hm.le i hi).not_gt]
  exact hcut

include hblock hm hk hfinite in
theorem topkRounds_lt (hcloses : Closes (exactPivot F minX) (maxIters - 3) ⊥ m) :
    topkRounds vocabSize blockSize logits F k m minX < maxIters := by
  have hle := @topkSearch_iters α _ _ vocabSize blockSize logits F k minX _ hblock _ maxIters
    (topk_start hm hk hfinite) hcloses
  unfold topkRounds
  refine hle.trans_lt (show 0 + (maxIters - 3) + 1 < maxIters from ?_)
  decide

end Topk

/-! ## The first round of top-p -/

section Topp

variable {R : Type} [Field R] [LinearOrder R] [IsStrictOrderedRing R] [FloorSemiring R]
    {w : α → R} {p : R}
  {hintLo hintHi m : α}

/-- What the first pass accumulates. -/
structure FirstPass (vocabSize scratchSize : Nat) (logits : Nat → α) (w : α → R) (hintLo hintHi : α)
    (s : ToppState α R) : Prop where
  unhinted : ¬ scratchSize < vocabSize → s.mHlo = 0 ∧ s.mHhi = 0 ∧ s.cH = 0
  mHlo : scratchSize < vocabSize → s.mHlo = above logits vocabSize w hintLo
  mHhi : scratchSize < vocabSize → s.mHhi = above logits vocabSize w hintHi
  cH : scratchSize < vocabSize → s.cH = tokens vocabSize logits hintLo hintHi

variable (hbot : 0 ≤ w ⊥) (hw : ∀ y, ⊥ < y → y < ⊤ → 0 < w y) (hsize : vocabSize ≤ 2000000000)
    (hm : IsMax vocabSize logits m)
  (hp : 0 < p) (hp' : p ≤ 1) (hhint : scratchSize < vocabSize ∨ hintHi = ⊤)

include hbot hw hm in
omit [FloorSemiring R] in
theorem total_pos : 0 < above logits vocabSize w ⊥ := by
  have hv := weight_nonneg hbot hw fun j hj => (hm.le j hj).trans_lt hm.lt_top
  have hle := above_add_le hv hm.finite
  rw [above_max hm, zero_add] at hle
  obtain ⟨j, hj, hjm⟩ := hm.attained
  have hmult : 0 < mult logits vocabSize m := by
    have hlt := count_lt_of_lt (p := fun o => logits o = m) hjm hj
    exact (Nat.zero_le _).trans_lt hlt
  exact (mul_pos (hw m hm.finite hm.lt_top) (Nat.cast_pos.mpr hmult)).trans_le hle

include hbot hw hm hp hp' in
omit [FloorSemiring R] in
theorem start_bracket : Bracket logits vocabSize w (p * above logits vocabSize w ⊥) ⊥ m := by
  have htotal := total_pos hbot hw hm
  refine ⟨mul_le_of_le_one_left htotal.le hp', ?_⟩
  rw [above_max hm]
  exact mul_pos hp htotal

/-- The bracket that a hint gives, when it is adopted. -/
structure Adopted (vocabSize scratchSize : Nat) (logits : Nat → α) (w : α → R) (θ : R)
    (hintLo hintHi : α)
    (s : ToppState α R) : Prop where
  taken : s.hintTaken = true
  longer : scratchSize < vocabSize
  bracket : Bracket logits vocabSize w θ hintLo hintHi
  lo : s.lo = hintLo
  hi : s.hi = hintHi
  hi_lt : hintHi < ⊤
  target : s.target = θ
  aHi : s.aHi = above logits vocabSize w hintHi
  first : s.first = false
  unapplied : s.hintApply = false
  nw : s.nw = tokens vocabSize logits hintLo hintHi
  fits : s.nw ≤ scratchSize

include hhint in
omit [IsStrictOrderedRing R] [FloorSemiring R] in
/-- **The hint is verified**: it replaces the bracket, or what holds of it may narrow the bracket.
-/
theorem verifyHint_spec {s : ToppState α R} {θ acc : R} (hθ : 0 < θ) (hacc : p * acc = θ)
    (hb : Bracket logits vocabSize w θ s.lo s.hi) (hhi : s.hi < ⊤)
    (haHi : s.aHi = above logits vocabSize w s.hi) (htaken : s.hintTaken = false)
    (happly : s.hintApply = false) (hstage : s.stage = 0)
    (hfirst : FirstPass vocabSize scratchSize logits w hintLo hintHi s) :
    let s' := verifyHint p scratchSize hintLo hintHi acc s
    s'.iters = s.iters ∧ s'.stage = 0 ∧ s'.scratch = s.scratch ∧
      (Adopted vocabSize scratchSize logits w θ hintLo hintHi s' ∨
        (ToppCore vocabSize scratchSize logits w θ s' ∧ s'.lo = s.lo ∧ s'.hi = s.hi ∧ s'.nw = s.nw ∧
          (s'.hintApply = true → HintFacts vocabSize logits w θ hintLo hintHi s'))) := by
  have hfull : ∀ {P : Prop}, s.stage = 1 → P :=
    fun h1 => absurd (hstage.symm.trans h1) Nat.zero_ne_one
  unfold verifyHint
  dsimp only
  rw [hacc]
  simp only [decide_eq_true_eq]
  by_cases hlonger : scratchSize < vocabSize
  · rw [hfirst.mHlo hlonger, hfirst.mHhi hlonger, hfirst.cH hlonger]
    split_ifs with hadopt hbound
    · exact ⟨rfl, hstage, rfl, Or.inl ⟨rfl, hlonger, ⟨hadopt.1.1, hadopt.2.1.1⟩, rfl, rfl,
        hadopt.2.1.2, rfl, rfl, rfl, happly, rfl, hadopt.2.2.2⟩⟩
    · refine ⟨rfl, hstage, rfl,
        Or.inr ⟨⟨hb, hhi, rfl, haHi, rfl, htaken, Or.inl hstage, fun h1 => hfull h1⟩, rfl, rfl, rfl,
        fun _ => ⟨fun h => (of_decide_eq_true h).1, fun h => ?_, le_rfl⟩⟩⟩
      exact ⟨(of_decide_eq_true h).1, (of_decide_eq_true h).2, rfl⟩
    · exact ⟨rfl, hstage, rfl,
        Or.inr ⟨⟨hb, hhi, rfl, haHi, rfl, htaken, Or.inl hstage, fun h1 => hfull h1⟩, rfl, rfl, rfl,
        fun h => absurd (happly.symm.trans h) Bool.false_ne_true⟩⟩
  · -- a row that fits the tile: nothing was summed, and no hint bounds it from above
    obtain ⟨hmlo, hmhi, hch⟩ := hfirst.unhinted hlonger
    have htop : hintHi = ⊤ := hhint.resolve_left hlonger
    rw [hmlo, hmhi, hch]
    rw [if_neg fun h => absurd h.2.2.1 (Nat.lt_irrefl 0), if_neg (by
      rintro (h | h)
      · exact hθ.not_ge h.1
      · exact h.2.ne htop)]
    exact ⟨rfl, hstage, rfl, Or.inr ⟨⟨hb, hhi, rfl, haHi, rfl, htaken, Or.inl hstage, fun h1 =>
      hfull h1⟩, rfl, rfl, rfl, fun h => absurd (happly.symm.trans h) Bool.false_ne_true⟩⟩

/-- The state before the first round, as far as that round reads it. -/
structure Started (vocabSize : Nat) (m : α) (s : ToppState α R) : Prop where
  lo : s.lo = ⊥
  hi : s.hi = m
  aHi : s.aHi = 0
  cand : s.cand = vocabSize
  stage : s.stage = 0
  first : s.first = true
  iters : s.iters = 0
  mHlo : s.mHlo = 0
  mHhi : s.mHhi = 0
  cH : s.cH = 0
  taken : s.hintTaken = false
  unapplied : s.hintApply = false

/-- The round adopts the hint's bracket: its pass over the full row is the first, and finds that
both bounds hold and the scratch tile fits. -/
def AdoptsHint (vocabSize blockSize scratchSize : Nat) (logits : Nat → α) (w : α → R) (p : R)
    (hintLo hintHi : α) (F : Floats α) (m : α) (s : ToppState α R) : Prop :=
  let t := exactPivot F (F.sub88 m) s.lo s.hi
  let a := toppPass vocabSize blockSize logits w scratchSize hintLo hintHi s t
    (s.cand ≤ scratchSize)
  (s.stage = 0 ∧ s.first = true) ∧ (verifyHint p scratchSize hintLo hintHi a.acc
    { s with
      nw := a.nw, mHlo := a.mHlo, mHhi := a.mHhi, cH := a.cH, scratch := a.scratch }).hintTaken =
      true

include hbot hw hsize hm hp hp' hhint in
/-- **The first round** of the top-p search. -/
theorem toppRound_first (hblock : 0 < blockSize) {s : ToppState α R} (hs : Started vocabSize m s) :
    let s' := toppRound vocabSize blockSize logits w p scratchSize hintLo hintHi F m s
    let θ := p * above logits vocabSize w ⊥
    s'.iters = 1 ∧ ((s'.stage = 2 ∧ IsCut vocabSize logits w θ s'.tau s'.n) ∨
      (ToppOpen vocabSize scratchSize logits w θ s' ∧
        (AdoptsHint vocabSize blockSize scratchSize logits w p hintLo hintHi F m s ∨
          Narrows F s.lo s.hi s'.lo s'.hi))) := by
  have htop : ∀ j < vocabSize, logits j < ⊤ := fun j hj => (hm.le j hj).trans_lt hm.lt_top
  have hv := weight_nonneg hbot hw htop
  have hb := start_bracket hbot hw hm hp hp'
  have hθ : 0 < p * above logits vocabSize w ⊥ := mul_pos hp (total_pos hbot hw hm)
  have hcover : vocabSize ≤ numTiles vocabSize blockSize * blockSize := le_numTiles_mul hblock
  obtain ⟨hle, hthi, hadj⟩ := @exactPivot_spec α _ _ F (F.sub88 m) s.lo s.hi
    (by rw [hs.lo, hs.hi]; exact hm.finite)
  dsimp only
  unfold toppRound AdoptsHint
  dsimp only
  rw [if_pos hs.stage, if_pos hs.first]
  generalize exactPivot F (F.sub88 m) s.lo s.hi = t at hle hthi hadj ⊢
  have hpass := @toppPass_spec α _ _ vocabSize blockSize logits R _ w scratchSize hintLo hintHi s t
    (decide (s.cand ≤ scratchSize))
  generalize toppPass vocabSize blockSize logits w scratchSize hintLo hintHi s t
    (decide (s.cand ≤ scratchSize)) = a at hpass ⊢
  obtain ⟨hmass, hleast, hdown, hup⟩ := pass_facts hcover hpass hle hthi
  have hacc : a.acc = above logits vocabSize w ⊥ :=
    hpass.acc.trans (sum_load w (p := (⊥ < ·)) (lt_irrefl ⊥) hcover)
  have hfirst : FirstPass vocabSize scratchSize logits w hintLo hintHi
      { s with nw := a.nw, mHlo := a.mHlo, mHhi := a.mHhi, cH := a.cH, scratch := a.scratch } := by
    refine ⟨fun hn => ?_, fun hl => ?_, fun hl => ?_, fun hl => ?_⟩
    · obtain ⟨hmlo, hmhi, hch⟩ := hpass.unhinted fun hh => hn hh.1
      exact ⟨hmlo.trans hs.mHlo, hmhi.trans hs.mHhi, hch.trans hs.cH⟩
    · exact (hpass.mHlo ⟨hl, hs.first⟩).trans (by rw [hs.mHlo, zero_add, sum_above hcover])
    · exact (hpass.mHhi ⟨hl, hs.first⟩).trans (by rw [hs.mHhi, zero_add, sum_above hcover])
    · exact (hpass.cH ⟨hl, hs.first⟩).trans (by rw [hs.cH, Nat.zero_add, tokens_eq hcover])
  have hverify := @verifyHint_spec α _ _ vocabSize scratchSize logits R _ _ w p hintLo hintHi hhint
    { s with nw := a.nw, mHlo := a.mHlo, mHhi := a.mHhi, cH := a.cH, scratch := a.scratch } _ a.acc
      hθ (by rw [hacc])
    (by rw [hs.lo, hs.hi]; exact hb) (by rw [hs.hi]; exact hm.lt_top)
      (by rw [hs.hi, above_max hm]; exact hs.aHi)
    hs.taken hs.unapplied hs.stage hfirst
  generalize verifyHint p scratchSize hintLo hintHi a.acc
    { s with nw := a.nw, mHlo := a.mHlo, mHhi := a.mHhi, cH := a.cH, scratch := a.scratch } =
      s' at hverify ⊢
  obtain ⟨hiters, hstage, hscratch, hcase⟩ := hverify
  dsimp only at hiters hscratch
  rw [hs.iters] at hiters
  rcases hcase with hadopt | ⟨hcore, hlo, hhi, hnw, hfacts⟩
  · -- the scratch tile holds the hint's bracket already
    unfold settle
    dsimp only
    rw [if_pos hadopt.taken, hiters]
    refine ⟨rfl, Or.inr ⟨⟨⟨?_, ?_, hadopt.target, ?_, hadopt.first, rfl, Or.inr rfl, fun _ => ?_⟩,
      hadopt.unapplied, nofun⟩, Or.inl ⟨⟨hs.stage, hs.first⟩, hadopt.taken⟩⟩⟩
    · rw [hadopt.lo, hadopt.hi]
      exact hadopt.bracket
    · rw [hadopt.hi]
      exact hadopt.hi_lt
    · rw [hadopt.hi]
      exact hadopt.aHi
    · have hnocompact : decide (s.cand ≤ scratchSize) = false := by
        have := hadopt.longer
        rw [decide_eq_false_iff_not, hs.cand]
        omega
      refine ⟨hintLo, hintHi, _, hcover, ?_, ?_, hadopt.fits, hadopt.lo.ge, hadopt.hi.le⟩
      · rw [hscratch]
        exact hpass.hinted ⟨hadopt.longer, hs.first⟩ hnocompact hs.cH
      · rw [tokens_eq hcover]
        exact hadopt.nw
  · rw [← hlo] at hle hadj
    rw [← hhi] at hthi
    rw [← hhi] at hadj
    have hholds : decide (s.cand ≤ scratchSize) = true →
      Holds vocabSize scratchSize logits s' := fun hc => by
      have hfit : s.cand ≤ scratchSize := of_decide_eq_true hc
      rw [hs.cand] at hfit
      have hnot : ¬ Hinting vocabSize scratchSize s := fun hh => by
        have := hh.1
        omega
      refine ⟨s.lo, s.hi, _, hcover, ?_, ?_, ?_, hlo.ge, hhi.le⟩
      · rw [hscratch]
        exact hpass.compacted hc hnot
      · exact hnw.trans (hpass.nw hc)
      · rw [hnw]
        show a.nw ≤ scratchSize
        rw [hpass.nw hc, tokens_eq hcover]
        have hall : tokens vocabSize logits s.lo s.hi ≤ vocabSize := Nat.count_le _
        omega
    have hround : RoundFacts vocabSize scratchSize logits w (p * above logits vocabSize w ⊥)
      hintLo hintHi s' t
        ⟨a.mass, a.least, a.cDown, a.cUp⟩ (decide (s.cand ≤ scratchSize)) :=
      ⟨hmass, fun _ => hleast, fun _ => hlo ▸ hdown, fun _ => hhi ▸ hup, fun _ => hholds, hfacts,
        fun h1 => absurd (hstage.symm.trans h1) Nat.zero_ne_one⟩
    obtain ⟨hiters', hend⟩ := settle_spec hbot hw htop hsize hcore hround hle hthi hadj
    refine ⟨hiters'.trans (by rw [hiters]), ?_⟩
    rcases hend with ⟨hdone, hcut | ⟨-, hcap⟩⟩ | ⟨hopen, hne, hlo', hhi', hside⟩
    · exact Or.inl ⟨hdone, hcut⟩
    · rw [hiters', hiters] at hcap
      exact absurd hcap (by decide)
    · refine Or.inr ⟨hopen, Or.inr ?_⟩
      rw [← hlo, ← hhi]
      exact narrows_of_pivot hne hle hthi hlo' (hopen.bracket.lt hv) hhi' hside

/-- How many rounds `_exact_topp_row` makes. -/
def toppRounds (vocabSize blockSize scratchSize : Nat) (logits : Nat → α) (w : α → R) (p : R)
    (hintLo hintHi : α)
    (F : Floats α) (m : α) (scratch : Nat → α) : Nat :=
  (toppSearch vocabSize blockSize logits w p scratchSize hintLo hintHi F m maxIters
    (toppStart vocabSize m scratch)).iters

omit [LinearOrder R] [IsStrictOrderedRing R] [FloorSemiring R] in
theorem toppStart_started (scratch : Nat → α) :
    Started vocabSize m (toppStart vocabSize m scratch : ToppState α R) :=
  ⟨rfl, rfl, rfl, rfl, rfl, rfl, rfl, rfl, rfl, rfl, rfl, rfl⟩

include hbot hw hsize hm hp hp' hhint in
/-- The search after its first round. -/
theorem toppSearch_start (hblock : 0 < blockSize) (scratch : Nat → α) :
    let s' := toppSearch vocabSize blockSize logits w p scratchSize hintLo hintHi F m maxIters
      (toppStart vocabSize m scratch)
    let θ := p * above logits vocabSize w ⊥
    (IsCut vocabSize logits w θ s'.tau s'.n ∨ maxIters ≤ s'.iters) ∧
      ((∀ lo hi, lo < hi → hi < ⊤ → Closes (exactPivot F (F.sub88 m)) (maxIters - 3) lo hi) →
      s'.iters < maxIters) := by
  have htop : ∀ j < vocabSize, logits j < ⊤ := fun j hj => (hm.le j hj).trans_lt hm.lt_top
  obtain ⟨hiters, hround⟩ := @toppRound_first α _ _ vocabSize blockSize scratchSize logits F R
    _ _ _ _ w p hintLo hintHi m
    hbot hw hsize hm hp hp' hhint hblock _ (toppStart_started scratch)
  dsimp only at hround ⊢
  have hstep : toppSearch vocabSize blockSize logits w p scratchSize hintLo hintHi F m maxIters
    (toppStart vocabSize m scratch) =
      toppSearch vocabSize blockSize logits w p scratchSize hintLo hintHi F m 159
        (toppRound vocabSize blockSize logits w p scratchSize hintLo hintHi F m
          (toppStart vocabSize m scratch)) :=
    if_pos (show (toppStart vocabSize m scratch : ToppState α R).stage < 2 from Nat.two_pos)
  rw [hstep]
  generalize toppRound vocabSize blockSize logits w p scratchSize hintLo hintHi F m
    (toppStart vocabSize m scratch) = s
    at hiters hround ⊢
  rcases hround with ⟨hdone, hcut⟩ | ⟨hopen, -⟩
  · rw [toppSearch, if_neg (by omega), hiters]
    exact ⟨Or.inl hcut, fun _ => by decide⟩
  · refine ⟨toppSearch_spec hbot hw htop hsize hblock hopen ?_ (by decide), fun hcloses => ?_⟩
    · rw [hiters]
      decide
    · have hlt := hopen.bracket.lt (weight_nonneg hbot hw htop)
      have hle := @toppSearch_iters α _ _ vocabSize blockSize scratchSize logits R _ _ w p _ hintLo
        hintHi m F s hbot hw htop
        hsize _ _ hblock _ 159 hopen (hcloses _ _ hlt hopen.hi_lt)
      rw [hiters] at hle
      exact hle.trans_lt (by decide)

include hbot hw hsize hm hp hp' hhint in
/-- **Every round of the top-p search ends it, adopts the hint or narrows the bracket.** -/
theorem toppStart_narrows (hblock : 0 < blockSize) (scratch : Nat → α) (n : Nat) :
    let s₁ := toppSearch vocabSize blockSize logits w p scratchSize hintLo hintHi F m n
      (toppStart vocabSize m scratch)
    let s₂ := toppRound vocabSize blockSize logits w p scratchSize hintLo hintHi F m s₁
    s₁.stage < 2 → s₂.stage = 2 ∨
      AdoptsHint vocabSize blockSize scratchSize logits w p hintLo hintHi F m s₁ ∨
      Narrows F s₁.lo s₁.hi s₂.lo s₂.hi := by
  have htop : ∀ j < vocabSize, logits j < ⊤ := fun j hj => (hm.le j hj).trans_lt hm.lt_top
  have hround := (@toppRound_first α _ _ vocabSize blockSize scratchSize logits F R _ _ _ _ w p
    hintLo hintHi m hbot hw hsize hm hp hp' hhint hblock _ (toppStart_started scratch)).2
  cases n with
  | zero => exact fun _ => hround.imp And.left And.right
  | succ n =>
    have hstep : toppSearch vocabSize blockSize logits w p scratchSize hintLo hintHi F m (n + 1)
        (toppStart vocabSize m scratch) =
      toppSearch vocabSize blockSize logits w p scratchSize hintLo hintHi F m n
        (toppRound vocabSize blockSize logits w p scratchSize hintLo hintHi F m
          (toppStart vocabSize m scratch)) :=
      if_pos (show (toppStart vocabSize m scratch : ToppState α R).stage < 2 from Nat.two_pos)
    dsimp only
    rw [hstep]
    rcases hround with ⟨hdone, -⟩ | ⟨hopen, -⟩
    · intro hgoing
      cases n with
      | zero => exact absurd hgoing hdone.ge.not_gt
      | succ n =>
        rw [toppSearch, if_neg hdone.ge.not_gt] at hgoing
        exact absurd hgoing hdone.ge.not_gt
    · exact fun hgoing =>
        (toppSearch_narrows hbot hw htop hsize hblock hopen n hgoing).imp_right Or.inr

include hbot hw hsize hm hp hp' hhint in
/-- **`_exact_topp_row`**, when it is not cut. -/
theorem exactToppRow_spec (hblock : 0 < blockSize) {scratch : Nat → α}
    (hrounds : toppRounds vocabSize blockSize scratchSize logits w p hintLo hintHi F m
      scratch < maxIters) :
    let cut := exactToppRow vocabSize blockSize logits w p scratchSize hintLo hintHi F m scratch
    IsCut vocabSize logits w (p * above logits vocabSize w ⊥) cut.1 cut.2 := by
  have hcut := (toppSearch_start hbot hw hsize hm hp hp' hhint hblock scratch).1.resolve_right
    hrounds.not_ge
  obtain ⟨i, hi, heq⟩ := hcut.value
  unfold exactToppRow
  dsimp only
  rw [if_neg (heq ▸ hm.le i hi).not_gt]
  exact hcut

end Topp

/-! ## The fallback of a row -/

section Rows

variable {R : Type} [CommRing R] [LinearOrder R] {v : α → R} {θ : R}

/-- `y` keeps of `x` the smallest head whose weight is `θ` at least: the tokens before which there
is less. -/
structure Kept (vocabSize : Nat) (x y : Nat → α) (v : α → R) (θ : R) : Prop where
  row : ∀ i < vocabSize, y i = if ⊥ < x i ∧ before x vocabSize v i < θ then x i else ⊥
  reaches : θ ≤ above y vocabSize v ⊥

/-- The mask of a cut. -/
theorem IsCut.kept {tau : α} {n : Int} (hblock : 0 < blockSize)
    (h : IsCut vocabSize logits v θ tau n) :
    Kept vocabSize logits (exactMaskRow vocabSize blockSize logits tau n ⊥) v θ := by
  have hmask : ∀ i < vocabSize, exactMaskRow vocabSize blockSize logits tau n ⊥ i =
      if Keeps logits tau n.toNat i then logits i else ⊥ := fun i hi => by
    rw [exactMaskRow_spec hblock, if_pos hi]
  have hfinite : ∀ i, Keeps logits tau n.toNat i → ⊥ < logits i := by
    rintro i (hlt | ⟨heq, -⟩)
    · exact h.finite.trans hlt
    · exact heq ▸ h.finite
  refine ⟨fun i hi => ?_, ?_⟩
  · rw [hmask i hi]
    by_cases hkeep : Keeps logits tau n.toNat i
    · rw [if_pos hkeep, if_pos ⟨hfinite i hkeep, (h.keeps i hi).mp hkeep⟩]
    · rw [if_neg hkeep, if_neg fun hlt => hkeep ((h.keeps i hi).mpr hlt.2)]
  · refine h.reaches.trans_eq (Finset.sum_congr rfl fun i hi => ?_)
    rw [hmask i (Finset.mem_range.mp hi)]
    by_cases hkeep : Keeps logits tau n.toNat i
    · rw [if_pos hkeep, if_pos hkeep, if_pos (hfinite i hkeep)]
    · rw [if_neg hkeep, if_neg hkeep, if_neg (lt_irrefl _)]

end Rows

section Fallback

variable {R : Type} [Field R] [LinearOrder R] [IsStrictOrderedRing R] [FloorSemiring R]
    {w : α → R} {p : R}
  {k : Int} {hintLo hintHi m minX : α}

/-- A mask that keeps a token at its cut keeps the maximum. -/
theorem isMax_mask {tau : α} {n : Int} (hblock : 0 < blockSize) (hm : IsMax vocabSize logits m)
    (htau : tau ≤ m) (hn : 1 ≤ n) : IsMax vocabSize
      (exactMaskRow vocabSize blockSize logits tau n ⊥) m := by
  have hmask : ∀ i < vocabSize, exactMaskRow vocabSize blockSize logits tau n ⊥ i =
      if Keeps logits tau n.toNat i then logits i else ⊥ := fun i hi => by
    rw [exactMaskRow_spec hblock, if_pos hi]
  refine ⟨fun i hi => ?_, ?_, hm.finite, hm.lt_top⟩
  · rw [hmask i hi]
    split_ifs
    · exact hm.le i hi
    · exact bot_le
  -- the first of the tokens at the maximum is kept
  obtain ⟨j, hj, hjm⟩ := hm.attained
  have hcount : 0 < Nat.count (fun o => logits o = m) vocabSize :=
    (Nat.zero_le _).trans_lt (count_lt_of_lt (p := fun o => logits o = m) hjm hj)
  obtain ⟨i, hi, him, hfirst⟩ := exists_count_eq hcount
  refine ⟨i, hi, ?_⟩
  rw [hmask i hi, if_pos, him]
  rcases htau.lt_or_eq with hlt | rfl
  · exact Or.inl (him ▸ hlt)
  · exact Or.inr ⟨him, by rw [hfirst]; omega⟩

/-- A search, cut or not, keeps a token at its cut. -/
theorem topkSearch_n {fuel : Nat} {s : TopkState α} (h : 1 ≤ s.n) :
    1 ≤ (topkSearch vocabSize blockSize logits F k minX fuel s).n := by
  induction fuel generalizing s with
  | zero => exact h
  | succ fuel ih =>
    rw [topkSearch]
    split
    · exact h
    · refine ih ?_
      unfold topkRound
      dsimp only
      split_ifs
      · exact le_max_left _ _
      · exact h
      · exact h

/-- The row that the top-p search sees. -/
def afterTopk (vocabSize blockSize : Nat) (logits : Nat → α) (F : Floats α) (topkActive : Bool)
    (k : Int) (m minX : α) :
    Nat → α :=
  if topkActive then
    let cut := exactTopkRow vocabSize blockSize logits F k m minX
    exactMaskRow vocabSize blockSize logits cut.1 cut.2 ⊥
  else logits

/-- Top-k leaves a row of the same maximum. -/
theorem isMax_afterTopk (F : Floats α) (topkActive : Bool) (k : Int) (minX : α)
    (hblock : 0 < blockSize) (hm : IsMax vocabSize logits m) :
    IsMax vocabSize (afterTopk vocabSize blockSize logits F topkActive k m minX) m := by
  unfold afterTopk
  split_ifs
  · unfold exactTopkRow
    dsimp only
    split_ifs with hlt
    · exact isMax_mask hblock hm le_rfl le_rfl
    · exact isMax_mask hblock hm (not_lt.mp hlt) (topkSearch_n le_rfl)
  · exact hm

omit [FloorSemiring R] in
/-- Before a finite token there is less than the total. -/
theorem before_lt_total (hbot : 0 ≤ w ⊥) (hw : ∀ y, ⊥ < y → y < ⊤ → 0 < w y)
    (htop : ∀ j < vocabSize, logits j < ⊤) {i : Nat}
    (hi : i < vocabSize) (hfinite : ⊥ < logits i) :
      before logits vocabSize w i < above logits vocabSize w ⊥ := by
  have hle := above_add_le (weight_nonneg hbot hw htop) hfinite
  have hlt : Nat.count (fun o => logits o = logits i) i < mult logits vocabSize (logits i) :=
    count_lt_of_lt (p := fun o => logits o = logits i) rfl hi
  rw [before_eq hi]
  refine lt_of_lt_of_le (add_lt_add_right ?_ _) hle
  exact mul_lt_mul_of_pos_left (Nat.cast_lt.mpr hlt) (hw _ hfinite (htop i hi))

/-- **The fallback is exact.** Top-k keeps the first `k` tokens; of the row it leaves, top-p keeps
the smallest prefix whose weight is `p` of the total. A search that is cut is left out, and none is
where every bracket closes in time, as with few keys or with key midpoints. Every round that neither
ends its search nor adopts the hint narrows the bracket. -/
theorem fallback_exact {scratch : Nat → α} {topkActive : Bool} (hblock : 0 < blockSize)
    (hsize : vocabSize ≤ 2000000000) (hbot : 0 ≤ w ⊥) (hw : ∀ y, ⊥ < y → y < ⊤ → 0 < w y)
    (hm : IsMax vocabSize logits m)
    (hk : topkActive = true → 1 ≤ k ∧ k ≤ Nat.count (fun o => ⊥ < logits o) vocabSize)
    (hp : 0 < p) (hp' : p ≤ 1) (hhint : scratchSize < vocabSize ∨ hintHi = ⊤) :
    let y := afterTopk vocabSize blockSize logits F topkActive k m minX
    let z := fallback vocabSize blockSize logits F w scratchSize topkActive k p m minX hintLo hintHi
      scratch
    let uncutK := topkActive = true →
      topkRounds vocabSize blockSize logits F k m minX < maxIters
    let uncutP := p < 1 →
      toppRounds vocabSize blockSize scratchSize y w p hintLo hintHi F m scratch < maxIters
    (uncutK → topkActive = true → Kept vocabSize logits y unitWeight k) ∧
      (uncutK → uncutP → Kept vocabSize y z w (p * above y vocabSize w ⊥)) ∧
      (((∀ floorX lo hi, lo < hi → hi < ⊤ → Closes (exactPivot F floorX) (maxIters - 3) lo hi) ∨
          F.key ⊤ - F.key ⊥ < 158 ∨
          (∀ lv hi, ¬ F.valueMid lv hi < hi) ∧ F.key ⊤ - F.key ⊥ < 2 ^ 158) →
        uncutK ∧ uncutP) ∧
      -- after any number of rounds of either search, the next one
      (topkActive = true → ∀ n,
        let s₁ := topkSearch vocabSize blockSize logits F k minX n ⟨⊥, m, m, 1, false, 0⟩
        let s₂ := topkRound vocabSize blockSize logits F k minX s₁
        s₁.done = false → s₂.done = true ∨ Narrows F s₁.lo s₁.hi s₂.lo s₂.hi) ∧
      ∀ n,
        let s₁ := toppSearch vocabSize blockSize y w p scratchSize hintLo hintHi F m n
          (toppStart vocabSize m scratch)
        let s₂ := toppRound vocabSize blockSize y w p scratchSize hintLo hintHi F m s₁
        s₁.stage < 2 → s₂.stage = 2 ∨
          AdoptsHint vocabSize blockSize scratchSize y w p hintLo hintHi F m s₁ ∨
          Narrows F s₁.lo s₁.hi s₂.lo s₂.hi := by
  have hmax := isMax_afterTopk F topkActive k minX hblock hm
  dsimp only
  refine ⟨fun huncut hactive => ?_, fun huncutK huncutP => ?_, fun hcloses => ?_, fun hactive => ?_,
    toppStart_narrows hbot hw hsize hmax hp hp' hhint hblock scratch⟩
  · unfold afterTopk
    rw [if_pos hactive]
    exact (exactTopkRow_spec hblock hm (hk hactive).1 (hk hactive).2 (huncut hactive)).kept hblock
  · show Kept vocabSize _ (fallback vocabSize blockSize logits F w scratchSize topkActive k p m minX
      hintLo hintHi scratch) _ _
    have hz : fallback vocabSize blockSize logits F w scratchSize topkActive k p m
      minX hintLo hintHi
        scratch =
        if p < 1 then
          let cut := exactToppRow vocabSize blockSize
            (afterTopk vocabSize blockSize logits F topkActive k m minX) w p
            scratchSize hintLo hintHi F m scratch
          exactMaskRow vocabSize blockSize
            (afterTopk vocabSize blockSize logits F topkActive k m minX) cut.1 cut.2 ⊥
        else afterTopk vocabSize blockSize logits F topkActive k m minX := rfl
    rw [hz]
    generalize afterTopk vocabSize blockSize logits F topkActive k m minX = y at hmax huncutP ⊢
    by_cases hlt : p < 1
    · rw [if_pos hlt]
      exact (exactToppRow_spec hbot hw hsize hmax hp hp' hhint hblock (huncutP hlt)).kept hblock
    · -- the whole row
      obtain rfl : p = 1 := le_antisymm hp' (not_lt.mp hlt)
      have htop : ∀ j < vocabSize, y j < ⊤ := fun j hj => (hmax.le j hj).trans_lt hmax.lt_top
      rw [if_neg hlt, one_mul]
      refine ⟨fun i hi => ?_, le_rfl⟩
      rcases (bot_le : ⊥ ≤ y i).eq_or_lt with heq | hfinite
      · rw [if_neg fun h => h.1.ne heq, heq]
      · rw [if_pos ⟨hfinite, before_lt_total hbot hw htop hi hfinite⟩]
  · have hall : ∀ floorX lo hi, lo < hi → hi < ⊤ →
        Closes (exactPivot F floorX) (maxIters - 3) lo hi := by
      intro floorX lo hi hlt htop
      have hlo := F.key_strictMono.monotone (bot_le : ⊥ ≤ lo)
      have hhi := F.key_strictMono htop
      rcases hcloses with hcloses | hkeys | ⟨hmid, hkeys⟩
      · exact hcloses floorX lo hi hlt htop
      · refine closes_of_keys hlt ?_
        show _ ≤ ((157 : Nat) : Int) + 1
        omega
      · refine closes_of_halving hmid hlt ?_
        show _ < (2 : Int) ^ 158
        omega
    have huncutK : topkActive = true →
      topkRounds vocabSize blockSize logits F k m minX < maxIters :=
      fun hactive => topkRounds_lt hblock hm (hk hactive).1 (hk hactive).2
        (hall minX ⊥ m hm.finite hm.lt_top)
    exact ⟨huncutK, fun _ =>
      (toppSearch_start hbot hw hsize hmax hp hp' hhint hblock scratch).2 (hall (F.sub88 m))⟩
  · exact topkSearch_narrows hblock (topk_start hm (hk hactive).1 (hk hactive).2)

end Fallback

/-! ## Small floats -/

/-- Integers up to `n` as floats that only have key midpoints. -/
def keyFloats (n : Nat) : Floats (Fin (n + 1)) where
  key := fun y => y.val
  ofKey := fun i => Fin.ofNat (n + 1) i.toNat
  valueMid := fun _ hi => hi
  sub88 := id
  key_strictMono := fun _ _ h => Int.ofNat_lt.mpr h
  key_ofKey := by
    intro i hlo hhi
    have htop : ((⊤ : Fin (n + 1)).val : Int) = n := rfl
    have hbot : ((⊥ : Fin (n + 1)).val : Int) = 0 := rfl
    rw [htop] at hhi
    rw [hbot] at hlo
    rw [Fin.val_ofNat, Nat.mod_eq_of_lt (by omega)]
    omega

/-- A weight on them. -/
def keyWeight {n : Nat} (y : Fin (n + 1)) : Rat := y.val + 1

theorem keyWeight_pos {n : Nat} (y : Fin (n + 1)) : 0 < keyWeight y := by
  unfold keyWeight
  positivity

/-- Five tokens with ties, top-k of four and half of their weight, and a hint that is too wide. -/
theorem small_fallback : ∃ y z : Nat → Fin 16, Kept 5 (fun o => if o < 3 then (7 : Fin 16) else 3) y
    unitWeight 4 ∧
    Kept 5 y z keyWeight ((1 / 2 : Rat) * above y 5 keyWeight ⊥) := by
  obtain ⟨htopk, htopp, hcloses, -, -⟩ := @fallback_exact (Fin 16) _ _ 5 2 2 (fun o => if o < 3 then
    (7 : Fin 16) else 3) (keyFloats 15)
    Rat _ _ _ _ keyWeight (1 / 2) 4 1 9 7 3 (fun _ => 0) true (by decide) (by decide)
      (keyWeight_pos _).le
    (fun y _ _ => keyWeight_pos y) ⟨by decide, ⟨0, by decide⟩, by decide, by decide⟩
    (fun _ => by decide) (by norm_num) (by norm_num) (Or.inl (by decide))
  obtain ⟨huncutK, huncutP⟩ := hcloses (Or.inr (Or.inl (by decide)))
  exact ⟨_, _, htopk huncutK rfl, htopp huncutK huncutP⟩

/-- What the fallback does keep: one token for `k = 0`; too few where the search is cut, here with
`2 ^ 200` keys; and too few where a row that fits the scratch tile comes with a hint bound that was
not checked. -/
theorem fallback_limits :
    ¬ Kept 2 (fun o => if o = 0 then (5 : Fin 16) else 3)
        (fallback 2 2 (fun o => if o = 0 then (5 : Fin 16) else 3) (keyFloats 15) keyWeight 1 true 0
          1 5 3 0 15 fun _ => 0)
        unitWeight 0 ∧
      ¬ Kept 3 (fun o => if o = 0 then Fin.ofNat (2 ^ 200) (2 ^ 200 - 2)
        else Fin.ofNat (2 ^ 200) (3 - o))
        (fallback 3 4 (fun o => if o = 0 then Fin.ofNat (2 ^ 200) (2 ^ 200 - 2)
          else Fin.ofNat (2 ^ 200) (3 - o))
          (keyFloats (2 ^ 200 - 1)) keyWeight 1 true 2 1 (Fin.ofNat (2 ^ 200) (2 ^ 200 - 2)) 1 0 ⊤
            fun _ => 0) unitWeight 2 ∧
      ¬ Kept 4 (fun o => Fin.ofNat 16 (8 - o))
        (fallback 4 4 (fun o => Fin.ofNat 16 (8 - o)) (keyFloats 15) keyWeight 8 false 0 (4 / 5) 8 5
          0 4 fun _ => 0) keyWeight
        ((4 / 5 : Rat) * above (fun o => Fin.ofNat 16 (8 - o)) 4 keyWeight ⊥) :=
  ⟨fun h => absurd (h.row 0 (by decide)) (by decide +kernel), fun h =>
    absurd (h.row 1 (by decide)) (by decide +kernel),
    fun h => absurd (h.row 1 (by decide)) (by decide +kernel)⟩

end Ringside.ToppFallback

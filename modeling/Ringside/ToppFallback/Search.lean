import Ringside.ToppFallback.Passes

/-!
# The searches of the exact rows (`topk_topp_triton.py`)

Both searches narrow a bracket of values around the cut, top-k by counts and top-p by weights. A
round that does not find the cut leaves a smaller bracket; the code gives up after 160 rounds.

* What a cut is, and when a value and a number of its entries are one, is the library's (`Cut`).
  Top-k is the case of unit weights.
* `TopkOpen` and `ToppOpen` are the invariants between two rounds; `RoundFacts` is what a round goes
  by, whether it passed over the row or over the scratch tile.
* A hint that the first pass adopts replaces the bracket: that round need not narrow it. A hint
  bound that holds may narrow it later (`HintFacts`).
* `Closes n` bounds the rounds by what the pivot does to a bracket, whatever the row: by the keys in
  it, or by halvings where the pivot is the key midpoint.

## Results

* `exactPivot_spec`: the pivot lies inside its bracket, or the bracket is of neighbours.
* `topkRound_spec`, `toppRound_spec`: one round; `settle_spec`: its decision.
* `topkSearch_spec`, `toppSearch_spec`: a search that is not given up finds the cut.
* `topkSearch_narrows`, `toppSearch_narrows`: every round ends the search or narrows the bracket.
* `closes_of_keys`, `closes_of_halving`: when it is not given up.
-/

namespace Ringside.ToppFallback

open Ringside.Scatter Ringside.Cut

variable {α : Type} [LinearOrder α] [BoundedOrder α]

/-! ## The pivot

Nothing is assumed of the arithmetic behind the midpoint: a value outside the bracket is replaced by
the midpoint of the keys, and that one lies inside or the bracket is of neighbours. So rounds narrow
a bracket whatever the floats do, and how many there can be is said by `Closes`.
-/

section Pivot

variable {F : Floats α} {floorX lo hi : α}

/-- **The pivot lies inside its bracket**, or the bracket is of neighbours. -/
theorem exactPivot_spec (h : lo < hi) : lo ≤ exactPivot F floorX lo hi ∧
    exactPivot F floorX lo hi < hi ∧
    (exactPivot F floorX lo hi = lo → ∀ y, lo < y → ¬ y < hi) := by
  unfold exactPivot
  dsimp only
  split_ifs with hmid
  · exact ⟨hmid.1.le, hmid.2, fun heq => absurd heq hmid.1.ne'⟩
  · have hkeys := F.key_strictMono h
    have hbot := F.key_strictMono.monotone (bot_le : ⊥ ≤ lo)
    have htop := F.key_strictMono.monotone (le_top : hi ≤ ⊤)
    have hkey := F.key_ofKey (F.key lo + (F.key hi - F.key lo) / 2) (by omega) (by omega)
    refine ⟨F.key_strictMono.le_iff_le.mp (by omega), F.key_strictMono.lt_iff_lt.mp (by omega),
      fun heq y hlo hhi => ?_⟩
    rw [heq] at hkey
    have hy := F.key_strictMono hlo
    have hy' := F.key_strictMono hhi
    omega

/-- A bracket strictly inside another, with fewer keys. -/
structure Narrows (F : Floats α) (lo hi lo' hi' : α) : Prop where
  lo_le : lo ≤ lo'
  lt : lo' < hi'
  le_hi : hi' ≤ hi
  keys : F.key hi' - F.key lo' < F.key hi - F.key lo

/-- A bracket on one side of a pivot inside. -/
theorem narrows_of_pivot {t lo' hi' : α} (hne : t ≠ lo) (hle : lo ≤ t) (hthi : t < hi)
    (hlo : lo ≤ lo')
    (hlt : lo' < hi') (hhi : hi' ≤ hi) (hside : t < lo' ∨ hi' ≤ t) : Narrows F lo hi lo' hi' := by
  refine ⟨hlo, hlt, hhi, ?_⟩
  have h₁ := F.key_strictMono.monotone hlo
  have h₂ := F.key_strictMono.monotone hhi
  rcases hside with hside | hside
  · have := F.key_strictMono ((lt_of_le_of_ne hle hne.symm).trans hside)
    omega
  · have := F.key_strictMono (hside.trans_lt hthi)
    omega

/-- However rounds go, after `n` of them a bracket within this one has a pivot at its lower end. -/
def Closes (pivot : α → α → α) : Nat → α → α → Prop
  | 0, lo, hi => pivot lo hi = lo
  | n + 1, lo, hi => pivot lo hi = lo ∨ ∀ lo' hi', lo ≤ lo' → lo' < hi' → hi' ≤ hi →
      (pivot lo hi < lo' ∨ hi' ≤ pivot lo hi) → Closes pivot n lo' hi'

/-- **Every round narrows the key bracket**: the keys of a bracket bound its rounds. -/
theorem closes_of_keys {n : Nat} (h : lo < hi) (hkeys : F.key hi - F.key lo ≤ n + 1) :
    Closes (exactPivot F floorX) n lo hi := by
  induction n generalizing lo hi with
  | zero =>
    obtain ⟨hle, hlt, -⟩ := @exactPivot_spec α _ _ F floorX lo hi h
    refine le_antisymm (F.key_strictMono.le_iff_le.mp ?_) hle
    have := F.key_strictMono hlt
    omega
  | succ n ih =>
    obtain ⟨hle, hlt, -⟩ := @exactPivot_spec α _ _ F floorX lo hi h
    rcases hle.eq_or_lt with heq | hgt
    · exact Or.inl heq.symm
    · refine Or.inr fun lo' hi' hlo hlt' hhi hside => ih hlt' ?_
      have h₁ := F.key_strictMono.monotone hlo
      have h₂ := F.key_strictMono.monotone hhi
      have h₃ := F.key_strictMono hgt
      have h₄ := F.key_strictMono hlt
      rcases hside with hside | hside
      · have := F.key_strictMono hside
        omega
      · have := F.key_strictMono.monotone hside
        omega

/-- **The key midpoint halves it.** -/
theorem closes_of_halving {n : Nat} (hmid : ∀ lv hi, ¬ F.valueMid lv hi < hi) (h : lo < hi)
    (hkeys : F.key hi - F.key lo < 2 ^ (n + 1)) : Closes (exactPivot F floorX) n lo hi := by
  have hpivot : ∀ lo hi, lo < hi → F.key (exactPivot F floorX lo hi) =
    F.key lo + (F.key hi - F.key lo) / 2 := by
    intro lo hi h
    have hlt := F.key_strictMono h
    have hbot := F.key_strictMono.monotone (bot_le : ⊥ ≤ lo)
    have htop := F.key_strictMono.monotone (le_top : hi ≤ ⊤)
    unfold exactPivot
    dsimp only
    rw [if_neg fun hin => hmid _ _ hin.2, F.key_ofKey _ (by omega) (by omega)]
  induction n generalizing lo hi with
  | zero =>
    have hlt := F.key_strictMono h
    refine F.key_strictMono.injective ?_
    rw [hpivot lo hi h]
    omega
  | succ n ih =>
    refine Or.inr fun lo' hi' hlo hlt' hhi hside => ih hlt' ?_
    have hkey := hpivot lo hi h
    have h₁ := F.key_strictMono.monotone hlo
    have h₂ := F.key_strictMono.monotone hhi
    rw [pow_succ] at hkeys
    rcases hside with hside | hside
    · have := F.key_strictMono hside
      omega
    · have := F.key_strictMono.monotone hside
      omega

end Pivot

/-- What a search that finds the cut returns: a value of the row, and how many of its tokens stay.
-/
structure IsCut {R : Type} [CommRing R] [LinearOrder R] (vocabSize : Nat) (logits : Nat → α)
    (v : α → R) (θ : R) (tau : α)
    (n : Int) : Prop where
  value : ∃ i < vocabSize, logits i = tau
  finite : ⊥ < tau
  keeps : ∀ i < vocabSize, Keeps logits tau n.toNat i ↔ before logits vocabSize v i < θ
  reaches : θ ≤ ∑ i ∈ Finset.range vocabSize, if Keeps logits tau n.toNat i then v (logits i) else 0

/-! ## Top-k

A top-k search is a search by weight where every token weighs one, so the cut is the general lemma
of the library, and what is special is the state that the rounds keep.
-/

section Topk

variable {vocabSize blockSize : Nat} {logits : Nat → α} {F : Floats α} {k : Int} {minX : α}
    {s : TopkState α}

/-- The weight of top-k: every token counts one. -/
def unitWeight (_ : α) : Int := 1

omit [LinearOrder α] [BoundedOrder α] in
theorem unitWeight_nonneg (y : α) : 0 ≤ unitWeight y := Int.one_nonneg

omit [BoundedOrder α] in
theorem above_unit (t : α) : above logits vocabSize unitWeight t = Nat.count (fun o => t < logits o)
    vocabSize := by
  unfold above unitWeight
  rw [Nat.count_eq_card_filter_range, ← Finset.sum_filter, Finset.sum_const, nsmul_eq_mul, mul_one]

/-- A top-k search that is on its way. -/
structure TopkOpen (vocabSize : Nat) (logits : Nat → α) (k : Int) (s : TopkState α) : Prop where
  bracket : Bracket logits vocabSize unitWeight k s.lo s.hi
  hi_lt : s.hi < ⊤
  going : s.done = false

/-- **The cut**, where enough is above the pivot and too little above the next value. -/
theorem topk_cut {t : α} (h : Bracket logits vocabSize unitWeight k t s.hi)
    (hrest : above logits vocabSize unitWeight (next logits vocabSize t) < k) :
    IsCut vocabSize logits unitWeight k (next logits vocabSize t)
      (max 1 (min (k - above logits vocabSize unitWeight (next logits vocabSize t))
        (mult logits vocabSize (next logits vocabSize t)))) := by
  have hv : ∀ j < vocabSize, 0 ≤ unitWeight (logits j) := fun _ _ => unitWeight_nonneg _
  obtain ⟨hlt, -, hvalue, habove⟩ := h.up hv h.low
  have hlow := h.low
  have hone : unitWeight (next logits vocabSize t) = 1 := rfl
  rw [hone, one_mul] at habove
  refine ⟨hvalue, bot_le.trans_lt hlt, fun i hi => keeps_iff hv (by omega) (by omega) ?_ ?_ hi, ?_⟩
  · rw [hone, one_mul]
    omega
  · rw [hone, one_mul]
    omega
  · rw [sum_keeps (by omega), hone, one_mul]
    omega

/-- **One round** of the top-k search. -/
theorem topkRound_spec (hblock : 0 < blockSize) (h : TopkOpen vocabSize logits k s) :
    let t := exactPivot F minX s.lo s.hi
    let s' := topkRound vocabSize blockSize logits F k minX s
    s'.iters = s.iters + 1 ∧
      ((s'.done = true ∧ (IsCut vocabSize logits unitWeight k s'.tau s'.n ∨
      (t ≠ s.lo ∧ maxIters ≤ s'.iters))) ∨
        (TopkOpen vocabSize logits k s' ∧ t ≠ s.lo ∧ s.lo ≤ s'.lo ∧ s'.hi ≤ s.hi ∧
        (t < s'.lo ∨ s'.hi ≤ t))) := by
  have hv : ∀ j < vocabSize, 0 ≤ unitWeight (logits j) := fun _ _ => unitWeight_nonneg _
  have hlt : s.lo < s.hi := h.bracket.lt hv
  obtain ⟨hle, hthi, hadj⟩ := @exactPivot_spec α _ _ F minX s.lo s.hi hlt
  dsimp only
  unfold topkRound
  dsimp only
  generalize exactPivot F minX s.lo s.hi = t at hle hthi hadj ⊢
  rw [topkPass_spec hblock (hthi.trans h.hi_lt)]
  dsimp only
  rw [← above_unit t]
  by_cases henough : k ≤ above logits vocabSize unitWeight t
  · have hb : Bracket logits vocabSize unitWeight k t s.hi := ⟨henough, h.bracket.high⟩
    obtain ⟨hnext, hnexthi, -, habove⟩ := hb.up hv henough
    have hrest : above logits vocabSize unitWeight t - mult logits vocabSize
      (next logits vocabSize t) = above logits vocabSize unitWeight (next logits vocabSize t) := by
      rw [habove, unitWeight, one_mul, add_sub_cancel_right]
    rw [hrest]
    by_cases hexact : above logits vocabSize unitWeight (next logits vocabSize t) < k
    · rw [if_pos (Or.inl ⟨henough, hexact⟩)]
      exact ⟨rfl, Or.inl ⟨rfl, Or.inl (topk_cut hb hexact)⟩⟩
    · have hne : t ≠ s.lo := by
        rintro rfl
        -- neighbours: the next value is the upper end, above which there is too little
        have heq := h.bracket.adjacent hv (hadj rfl)
        exact hexact (heq ▸ h.bracket.high)
      have hb' : Bracket logits vocabSize unitWeight k (next logits vocabSize t) s.hi :=
        ⟨not_lt.mp hexact, h.bracket.high⟩
      by_cases hcap : maxIters ≤ s.iters + 1
      · rw [if_pos (Or.inr (Or.inr hcap))]
        exact ⟨rfl, Or.inl ⟨rfl, Or.inr ⟨hne, hcap⟩⟩⟩
      · rw [if_neg (by rintro (⟨-, hlt⟩ | heq | hle); exacts [hexact hlt, hne heq, hcap hle]),
          if_pos henough]
        exact ⟨rfl, Or.inr ⟨⟨hb', h.hi_lt, h.going⟩, hne, hle.trans hnext.le, le_rfl, Or.inl hnext⟩⟩
  · have hne : t ≠ s.lo := by
      rintro rfl
      exact henough h.bracket.low
    by_cases hcap : maxIters ≤ s.iters + 1
    · rw [if_pos (Or.inr (Or.inr hcap))]
      exact ⟨rfl, Or.inl ⟨rfl, Or.inr ⟨hne, hcap⟩⟩⟩
    · rw [if_neg (by rintro (⟨hge, -⟩ | heq | hle); exacts [henough hge, hne heq, hcap hle]),
        if_neg henough]
      exact ⟨rfl, Or.inr ⟨⟨⟨h.bracket.low, not_le.mp henough⟩, hthi.trans h.hi_lt, h.going⟩, hne,
        le_rfl, hthi.le, Or.inr le_rfl⟩⟩

/-- A search that goes on is on its way. -/
theorem topkSearch_open (hblock : 0 < blockSize) {n : Nat} (h : TopkOpen vocabSize logits k s)
    (hgoing : (topkSearch vocabSize blockSize logits F k minX n s).done = false) :
    TopkOpen vocabSize logits k (topkSearch vocabSize blockSize logits F k minX n s) := by
  induction n generalizing s with
  | zero => exact h
  | succ n ih =>
    obtain ⟨-, hround⟩ := @topkRound_spec α _ _ vocabSize blockSize logits F k minX s hblock h
    rw [topkSearch, if_neg (by rw [h.going]; exact Bool.false_ne_true)] at hgoing ⊢
    rcases hround with ⟨hdone, -⟩ | ⟨hopen, -⟩
    · cases n with
      | zero => exact absurd (hdone.symm.trans hgoing) Bool.noConfusion
      | succ n =>
        rw [topkSearch, if_pos hdone] at hgoing
        exact absurd (hdone.symm.trans hgoing) Bool.noConfusion
    · exact ih hopen hgoing

/-- **Every round of the top-k search ends it or narrows its bracket.** -/
theorem topkSearch_narrows (hblock : 0 < blockSize) (h : TopkOpen vocabSize logits k s) (n : Nat) :
    let s₁ := topkSearch vocabSize blockSize logits F k minX n s
    let s₂ := topkRound vocabSize blockSize logits F k minX s₁
    s₁.done = false → s₂.done = true ∨ Narrows F s₁.lo s₁.hi s₂.lo s₂.hi := by
  intro s₁ s₂ hgoing
  have hv : ∀ j < vocabSize, 0 ≤ unitWeight (logits j) := fun _ _ => unitWeight_nonneg _
  have hopen : TopkOpen vocabSize logits k s₁ := topkSearch_open hblock h hgoing
  obtain ⟨hle, hthi, -⟩ := @exactPivot_spec α _ _ F minX _ _ (hopen.bracket.lt hv)
  refine (topkRound_spec hblock hopen).2.imp And.left ?_
  rintro ⟨hopen', hne, hlo, hhi, hside⟩
  exact narrows_of_pivot hne hle hthi hlo (hopen'.bracket.lt hv) hhi hside

/-- **The rounds** of the top-k search: it finds the cut, or is given up. -/
theorem topkSearch_spec (hblock : 0 < blockSize) {fuel : Nat} (h : TopkOpen vocabSize logits k s)
    (hfuel : maxIters ≤ s.iters + fuel) (hpos : 0 < fuel) :
    let s' := topkSearch vocabSize blockSize logits F k minX fuel s
    IsCut vocabSize logits unitWeight k s'.tau s'.n ∨ maxIters ≤ s'.iters := by
  induction fuel generalizing s with
  | zero => omega
  | succ fuel ih =>
    obtain ⟨hiters, hround⟩ := @topkRound_spec α _ _ vocabSize blockSize logits F k minX s hblock h
    dsimp only at hround ⊢
    rw [topkSearch, if_neg (by rw [h.going]; exact Bool.false_ne_true)]
    generalize topkRound vocabSize blockSize logits F k minX s = s' at hiters hround ⊢
    rcases hround with ⟨hdone, hend⟩ | ⟨hopen, -⟩
    · have hstay : topkSearch vocabSize blockSize logits F k minX fuel s' = s' := by
        cases fuel with
        | zero => rfl
        | succ fuel => rw [topkSearch, if_pos hdone]
      rw [hstay]
      exact hend.imp_right And.right
    · rcases Nat.eq_zero_or_pos fuel with rfl | hpos'
      · exact Or.inr (by show maxIters ≤ s'.iters; omega)
      · exact ih hopen (by omega) hpos'

/-- A bracket that closes bounds the rounds. -/
theorem topkSearch_iters (hblock : 0 < blockSize) {n fuel : Nat} (h : TopkOpen vocabSize logits k s)
    (hcloses : Closes (exactPivot F minX) n s.lo s.hi) :
    (topkSearch vocabSize blockSize logits F k minX fuel s).iters ≤ s.iters + n + 1 := by
  induction fuel generalizing s n with
  | zero => exact Nat.le_add_right _ (n + 1)
  | succ fuel ih =>
    obtain ⟨hiters, hround⟩ := @topkRound_spec α _ _ vocabSize blockSize logits F k minX s hblock h
    rw [topkSearch, if_neg (by rw [h.going]; exact Bool.false_ne_true)]
    generalize topkRound vocabSize blockSize logits F k minX s = s' at hiters hround ⊢
    rcases hround with ⟨hdone, -⟩ | ⟨hopen, hne, hlo, hhi, hside⟩
    · cases fuel with
      | zero =>
        show s'.iters ≤ _
        omega
      | succ fuel =>
        rw [topkSearch, if_pos hdone]
        omega
    · cases n with
      | zero => exact absurd hcloses hne
      | succ n =>
        have hlt := hopen.bracket.lt fun _ _ => unitWeight_nonneg _
        have hle := ih hopen ((hcloses.resolve_left hne) _ _ hlo hlt hhi hside)
        omega

end Topk

/-! ## Top-p

A round makes one pass, and what the pass found is `RoundFacts`, whether it went over the row or
over the scratch tile. The decision of the round is then made from these facts alone: the cut is
found, or the bracket is narrowed on one side, or the hint is adopted.
-/

section Topp

variable {vocabSize blockSize scratchSize : Nat} {logits : Nat → α} {R : Type} [Field R]
    [LinearOrder R] {w : α → R}
  {p θ : R} {hintLo hintHi m t : α} {F : Floats α} {s : ToppState α R}

/-- **The need**, rounded up: the tokens at the cut that bring the weight to the target. -/
theorem keepCount_spec [IsStrictOrderedRing R] [FloorSemiring R] {target rest eMin : R} {cm : Nat}
    (he : 0 < eMin) (hcm : cm ≤ 2000000000) (hlt : rest < target)
    (hle : target ≤ rest + eMin * cm) : ∃ n : Nat, keepCount target rest eMin cm = n ∧
      0 < n ∧ n ≤ cm ∧
      rest + eMin * ((n : R) - 1) < target ∧ target ≤ rest + eMin * n := by
  have hpos : 0 < (target - rest) / eMin := div_pos (sub_pos.mpr hlt) he
  have hneed : (target - rest) / eMin ≤ cm := (div_le_iff₀' he).mpr (sub_le_iff_le_add'.mpr hle)
  have hbound : (target - rest) / eMin ≤ 2000000000 := hneed.trans (by exact_mod_cast hcm)
  have hmul : target = rest + eMin * ((target - rest) / eMin) := by
    rw [mul_div_cancel₀ _ he.ne', add_sub_cancel]
  unfold keepCount
  dsimp only
  rw [max_eq_left hpos.le, min_eq_left hbound]
  generalize (target - rest) / eMin = need at hpos hneed hmul ⊢
  have hfloor := Nat.floor_le hpos.le
  have hfloor' := Nat.lt_floor_add_one need
  -- the least number of tokens that is not below the need
  obtain ⟨n, hn, hbelow, habove⟩ : ∃ n : Nat, ⌊need⌋₊ + (if (⌊need⌋₊ : R) < need then 1 else 0) =
    n ∧ (n : R) - 1 < need ∧ need ≤ n := by
    split_ifs with hround
    · exact ⟨_, rfl, by push_cast; linarith, by push_cast; linarith⟩
    · exact ⟨_, rfl, by push_cast; linarith, by push_cast; linarith⟩
  have hnpos : 0 < n := by
    rw [← Nat.cast_pos (α := R)]
    exact hpos.trans_le habove
  have hncm : n ≤ cm := by
    have hlt : (n : R) < cm + 1 := by linarith
    exact Nat.lt_succ_iff.mp (by exact_mod_cast hlt)
  refine ⟨n, ?_, hnpos, hncm, ?_, ?_⟩
  · rw [hn]
    omega
  · rw [hmul]
    exact add_lt_add_right (mul_lt_mul_of_pos_left hbelow he) _
  · rw [hmul]
    exact add_le_add_right (mul_le_mul_of_nonneg_left habove he.le) _

/-- The scratch tile holds the bracket. -/
def Holds (vocabSize scratchSize : Nat) (logits : Nat → α) (s : ToppState α R) : Prop :=
  ∃ lo₀ hi₀ n, vocabSize ≤ n ∧ Compacted (load vocabSize logits) (InBracket lo₀ hi₀)
    scratchSize s.scratch n ∧
    s.nw = Nat.count (fun o => InBracket lo₀ hi₀ (load vocabSize logits o)) n ∧ s.nw ≤ scratchSize ∧
    lo₀ ≤ s.lo ∧ s.hi ≤ hi₀

omit [Field R] [LinearOrder R] in
theorem Holds.raise {lo : α} {iters : Nat} {cand : Int} (h : Holds vocabSize scratchSize logits s)
    (hlo : s.lo ≤ lo) :
    Holds vocabSize scratchSize logits { s with iters := iters, lo := lo, cand := cand } := by
  obtain ⟨lo₀, hi₀, n, hn, hscratch, hnw, hfit, hlo₀, hhi₀⟩ := h
  exact ⟨lo₀, hi₀, n, hn, hscratch, hnw, hfit, hlo₀.trans hlo, hhi₀⟩

omit [Field R] [LinearOrder R] in
theorem Holds.lower {hi : α} {iters : Nat} {aHi : R} {cand : Int}
    (h : Holds vocabSize scratchSize logits s) (hhi : hi ≤ s.hi) :
    Holds vocabSize scratchSize logits { s with
    iters := iters, hi := hi, aHi := aHi, cand := cand } := by
  obtain ⟨lo₀, hi₀, n, hn, hscratch, hnw, hfit, hlo₀, hhi₀⟩ := h
  exact ⟨lo₀, hi₀, n, hn, hscratch, hnw, hfit, hlo₀, hhi.trans hhi₀⟩

/-- How many tokens a bracket holds. -/
def tokens (vocabSize : Nat) (logits : Nat → α) (lo hi : α) : Nat :=
  Nat.count (fun o => lo < logits o ∧ logits o ≤ hi) vocabSize

/-- What every state of the search has, once the target is known. -/
structure ToppCore (vocabSize scratchSize : Nat) (logits : Nat → α) (w : α → R) (θ : R)
    (s : ToppState α R) : Prop where
  bracket : Bracket logits vocabSize w θ s.lo s.hi
  hi_lt : s.hi < ⊤
  target : s.target = θ
  aHi : s.aHi = above logits vocabSize w s.hi
  first : s.first = false
  taken : s.hintTaken = false
  stage : s.stage = 0 ∨ s.stage = 1
  tile : s.stage = 1 → Holds vocabSize scratchSize logits s

/-- A top-p search between two rounds. -/
structure ToppOpen (vocabSize scratchSize : Nat) (logits : Nat → α) (w : α → R) (θ : R)
    (s : ToppState α R) : Prop extends
    ToppCore vocabSize scratchSize logits w θ s where
  unapplied : s.hintApply = false
  cand : s.stage = 0 → (tokens vocabSize logits s.lo s.hi : Int) ≤ s.cand

/-- What the hint may still do to the bracket. -/
structure HintFacts (vocabSize : Nat) (logits : Nat → α) (w : α → R) (θ : R) (hintLo hintHi : α)
    (s : ToppState α R) :
    Prop where
  lo : s.hLoOk = true → θ ≤ above logits vocabSize w hintLo
  hi : s.hHiOk = true → above logits vocabSize w hintHi < θ ∧ hintHi < ⊤ ∧
    s.mHhi = above logits vocabSize w hintHi
  cH : tokens vocabSize logits hintLo hintHi ≤ s.cH

/-- **A hint bound that holds** narrows the bracket, if anything. -/
theorem applyHint_spec (h : ToppCore vocabSize scratchSize logits w θ s) (hstage : s.stage = 0)
    (hcand : (tokens vocabSize logits s.lo s.hi : Int) ≤ s.cand)
    (hhint : HintFacts vocabSize logits w θ hintLo hintHi s) :
    let s' := applyHint vocabSize hintLo hintHi s
    s'.iters = s.iters ∧ ToppOpen vocabSize scratchSize logits w θ s' ∧ s.lo ≤ s'.lo ∧
      s'.hi ≤ s.hi := by
  have hall : ∀ lo hi, (tokens vocabSize logits lo hi : Int) ≤ vocabSize := fun lo hi => by
    exact_mod_cast Nat.count_le (p := fun o => lo < logits o ∧ logits o ≤ hi)
  have hcH : (tokens vocabSize logits hintLo hintHi : Int) ≤ s.cH := by exact_mod_cast hhint.cH
  have hfull : ∀ {P : Prop}, s.stage = 1 → P :=
    fun h1 => absurd (hstage.symm.trans h1) Nat.zero_ne_one
  unfold applyHint
  dsimp only
  by_cases hlo : s.hLoOk = true ∧ s.lo < hintLo
  · rw [if_pos hlo]
    dsimp only
    by_cases hhi : s.hHiOk = true ∧ hintHi < s.hi
    · obtain ⟨habove, htop, hm⟩ := hhint.hi hhi.1
      rw [if_pos hhi]
      dsimp only
      rw [if_pos ⟨rfl, rfl⟩]
      exact ⟨rfl, ⟨⟨⟨hhint.lo hlo.1, habove⟩, htop, h.target, hm, h.first, h.taken, h.stage,
        fun h1 => hfull h1⟩, rfl, fun _ => hcH⟩, hlo.2.le, hhi.2.le⟩
    · rw [if_neg hhi]
      have hcore : ∀ cand : Int, (tokens vocabSize logits hintLo s.hi : Int) ≤ cand →
        ToppOpen vocabSize scratchSize logits w θ
          { s with lo := hintLo, cand := cand, hintApply := false } := fun cand hcand =>
        ⟨⟨⟨hhint.lo hlo.1, h.bracket.high⟩, h.hi_lt, h.target, h.aHi, h.first, h.taken, h.stage,
          fun h1 => hfull h1⟩, rfl, fun _ => hcand⟩
      split_ifs with hboth
      · exact ⟨rfl, hcore _ (by rwa [hboth.2]), hlo.2.le, le_rfl⟩
      · exact ⟨rfl, hcore _ (hall _ _), hlo.2.le, le_rfl⟩
  · rw [if_neg hlo]
    by_cases hhi : s.hHiOk = true ∧ hintHi < s.hi
    · obtain ⟨habove, htop, hm⟩ := hhint.hi hhi.1
      rw [if_pos hhi]
      dsimp only
      have hcore : ∀ cand : Int, (tokens vocabSize logits s.lo hintHi : Int) ≤ cand →
        ToppOpen vocabSize scratchSize logits w θ
          { s with hi := hintHi, aHi := s.mHhi, cand := cand, hintApply := false } :=
            fun cand hcand =>
        ⟨⟨⟨h.bracket.low, habove⟩, htop, h.target, hm, h.first, h.taken, h.stage, fun h1 =>
          hfull h1⟩, rfl, fun _ => hcand⟩
      split_ifs with hboth
      · exact ⟨rfl, hcore _ (by rwa [hboth.1]), le_rfl, hhi.2.le⟩
      · exact ⟨rfl, hcore _ (hall _ _), le_rfl, hhi.2.le⟩
    · rw [if_neg hhi]
      have hcore : ∀ cand : Int, (tokens vocabSize logits s.lo s.hi : Int) ≤ cand →
        ToppOpen vocabSize scratchSize logits w θ
          { s with cand := cand, hintApply := false } := fun cand hcand =>
        ⟨⟨h.bracket, h.hi_lt, h.target, h.aHi, h.first, h.taken, h.stage, fun h1 => hfull h1⟩, rfl,
          fun _ => hcand⟩
      split_ifs with hboth
      · exact ⟨rfl, hcore _ (by rwa [hboth.1, hboth.2]), le_rfl, le_rfl⟩
      · exact ⟨rfl, hcore _ hcand, le_rfl, le_rfl⟩

/-- What a round goes by: the pass it made. -/
structure RoundFacts (vocabSize scratchSize : Nat) (logits : Nat → α) (w : α → R) (θ : R)
    (hintLo hintHi : α)
    (s : ToppState α R) (t : α) (a : Stats α R) (compact : Bool) : Prop where
  mass : a.mass = above logits vocabSize w t
  least : θ ≤ above logits vocabSize w t →
    a.least = ⟨next logits vocabSize t, mult logits vocabSize (next logits vocabSize t)⟩
  cDown : s.stage = 0 → a.cDown = tokens vocabSize logits s.lo t
  cUp : s.stage = 0 → a.cUp = tokens vocabSize logits t s.hi
  compacted : s.stage = 0 → compact = true → Holds vocabSize scratchSize logits s
  hint : s.hintApply = true → HintFacts vocabSize logits w θ hintLo hintHi s
  unapplied : s.stage = 1 → s.hintApply = false

/-- The tokens above the next value. -/
theorem tokens_next {t hi : α} (ht : t < ⊤) (hhi : next logits vocabSize t ≤ hi) :
    tokens vocabSize logits t hi =
    tokens vocabSize logits (next logits vocabSize t) hi + mult logits vocabSize
      (next logits vocabSize t) := by
  have hnext : t < next logits vocabSize t := lt_next ht
  unfold tokens mult
  rw [← count_or fun o h heq => absurd h.1 (heq ▸ lt_irrefl _)]
  refine count_congr fun o ho => ⟨fun h => ?_, ?_⟩
  · rcases (next_le ho h.1).lt_or_eq with hlt | heq
    · exact Or.inl ⟨hlt, h.2⟩
    · exact Or.inr heq.symm
  · rintro (h | h)
    · exact ⟨hnext.trans h.1, h.2⟩
    · exact ⟨h ▸ hnext, h ▸ hhi⟩

omit [LinearOrder R] in
/-- The weight above a value, tile after tile. -/
theorem sum_above {n : Nat} (hn : vocabSize ≤ n) (t : α) :
    ∑ o ∈ Finset.range n, (if Above t (load vocabSize logits o) then
    w (load vocabSize logits o) else 0) = above logits vocabSize w t := by
  rw [sum_load w (p := Above t) (fun h => not_lt_bot h.2) hn]
  exact Finset.sum_congr rfl fun o _ => if_congr above_iff rfl rfl

omit [BoundedOrder α] [LinearOrder R] in
/-- The weight above the pivot, from that above the bracket. -/
theorem above_split {hi : α} (h : t ≤ hi) : above logits vocabSize w hi +
    ∑ o ∈ Finset.range vocabSize, (if t < logits o ∧ logits o ≤ hi then w (logits o) else 0) =
    above logits vocabSize w t := by
  unfold above
  rw [← Finset.sum_add_distrib]
  refine Finset.sum_congr rfl fun o _ => ?_
  by_cases hhi : hi < logits o
  · rw [if_pos hhi, if_neg fun hin => hin.2.not_gt hhi, if_pos (h.trans_lt hhi), add_zero]
  · rw [if_neg hhi, zero_add]
    exact if_congr (and_iff_left (not_lt.mp hhi)) rfl rfl

theorem tokens_eq {n : Nat} (hn : vocabSize ≤ n) (lo hi : α) :
    Nat.count (fun o => InBracket lo hi (load vocabSize logits o)) n =
      tokens vocabSize logits lo hi := by
  rw [count_load (p := InBracket lo hi) (fun h => not_lt_bot h.1) hn]
  exact count_congr fun o _ => inBracket_iff

omit [LinearOrder R] in
/-- What the pass over the full row tells about the pivot. -/
theorem pass_facts {n : Nat} (hn : vocabSize ≤ n) {compact : Bool} {a : Pass α R}
    (hp : Passed vocabSize logits w scratchSize hintLo hintHi s t compact n a) (hle : s.lo ≤ t)
    (hthi : t < s.hi) :
    a.mass = above logits vocabSize w t ∧
      a.least = ⟨next logits vocabSize t, mult logits vocabSize (next logits vocabSize t)⟩ ∧
      a.cDown = tokens vocabSize logits s.lo t ∧ a.cUp = tokens vocabSize logits t s.hi := by
  refine ⟨hp.mass.trans (sum_above hn t), hp.least.trans
    (leastOf_load hn (hthi.trans_le le_top)), ?_, ?_⟩
  · rw [hp.cDown, count_load (p := fun y => InBracket s.lo s.hi y ∧ y ≤ t)
      (fun h => not_lt_bot h.1.1) hn]
    refine count_congr fun o _ => ?_
    rw [inBracket_iff]
    exact ⟨fun h => ⟨h.1.1, h.2⟩, fun h => ⟨⟨h.1, h.2.trans hthi.le⟩, h.2⟩⟩
  · rw [hp.cUp, count_load (p := fun y => InBracket s.lo s.hi y ∧ t < y)
      (fun h => not_lt_bot h.1.1) hn]
    refine count_congr fun o _ => ?_
    rw [inBracket_iff]
    exact ⟨fun h => ⟨h.2, h.1.2⟩, fun h => ⟨⟨hle.trans_lt h.1, h.2⟩, h.1⟩⟩

/-- **What follows a narrowed bracket**: the hint, or the scratch tile. -/
theorem advance_spec {compact : Bool} (h : ToppCore vocabSize scratchSize logits w θ s)
    (hcand : s.stage = 0 → (tokens vocabSize logits s.lo s.hi : Int) ≤ s.cand)
    (hcompact : s.stage = 0 → compact = true → Holds vocabSize scratchSize logits s)
    (hhint : s.hintApply = true → HintFacts vocabSize logits w θ hintLo hintHi s)
    (hun : s.stage = 1 → s.hintApply = false) :
    let s' := if s.hintApply = true ∧ s.stage = 0 then applyHint vocabSize hintLo hintHi s
      else if s.stage = 0 ∧ compact = true then { s with stage := 1 } else s
    s'.iters = s.iters ∧ ToppOpen vocabSize scratchSize logits w θ s' ∧ s.lo ≤ s'.lo ∧
      s'.hi ≤ s.hi := by
  dsimp only
  by_cases happly : s.hintApply = true ∧ s.stage = 0
  · rw [if_pos happly]
    exact applyHint_spec h happly.2 (hcand happly.2) (hhint happly.1)
  · have hun' : s.hintApply = false := by
      rcases h.stage with h0 | h1
      · exact Bool.eq_false_iff.mpr fun ha => happly ⟨ha, h0⟩
      · exact hun h1
    rw [if_neg happly]
    by_cases htile : s.stage = 0 ∧ compact = true
    · rw [if_pos htile]
      exact ⟨rfl, ⟨⟨h.bracket, h.hi_lt, h.target, h.aHi, h.first, h.taken, Or.inr rfl, fun _ =>
        hcompact htile.1 htile.2⟩, hun', nofun⟩, le_rfl, le_rfl⟩
    · rw [if_neg htile]
      exact ⟨rfl, ⟨h, hun', hcand⟩, le_rfl, le_rfl⟩

variable (hbot : 0 ≤ w ⊥) (hw : ∀ y, ⊥ < y → y < ⊤ → 0 < w y)
  (htop : ∀ j < vocabSize, logits j < ⊤) (hsize : vocabSize ≤ 2000000000)

include hbot hw htop in
theorem weight_nonneg : ∀ j < vocabSize, 0 ≤ w (logits j) := by
  intro j hj
  rcases (bot_le : ⊥ ≤ logits j).eq_or_lt with heq | hlt
  · rwa [← heq]
  · exact (hw _ hlt (htop j hj)).le

variable [IsStrictOrderedRing R] [FloorSemiring R]

include hbot hw htop hsize in
/-- **The cut**, where enough is above the pivot and too little above the next value. -/
theorem topp_cut {hi : α} (h : Bracket logits vocabSize w θ t hi) (hhi : hi < ⊤)
    (hrest : above logits vocabSize w (next logits vocabSize t) < θ) :
    IsCut vocabSize logits w θ (next logits vocabSize t)
      (keepCount θ (above logits vocabSize w (next logits vocabSize t))
        (w (next logits vocabSize t))
          (mult logits vocabSize (next logits vocabSize t))) := by
  have hv := weight_nonneg hbot hw htop
  obtain ⟨hlt, hle, hvalue, habove⟩ := h.up hv h.low
  have hpos := hw _ (bot_le.trans_lt hlt) (hle.trans_lt hhi)
  have hmult : mult logits vocabSize (next logits vocabSize t) ≤ 2000000000 :=
    (Nat.count_le _).trans hsize
  have hlow := h.low
  rw [habove] at hlow
  obtain ⟨n, hn, hnpos, hncm, hshort, hreach⟩ := keepCount_spec hpos hmult hrest hlow
  refine ⟨hvalue, bot_le.trans_lt hlt, fun i hi => ?_, ?_⟩
  · rw [hn, Int.toNat_natCast]
    exact keeps_iff hv hnpos hncm hshort hreach hi
  · rwa [hn, Int.toNat_natCast, sum_keeps hncm]

include hbot hw htop hsize in
/-- **The decision of a round.** -/
theorem settle_spec (h : ToppCore vocabSize scratchSize logits w θ s) {a : Stats α R}
    {compact : Bool}
    (hround : RoundFacts vocabSize scratchSize logits w θ hintLo hintHi s t a compact)
    (hle : s.lo ≤ t) (hthi : t < s.hi) (hadj : t = s.lo → ∀ y, s.lo < y → ¬ y < s.hi) :
    let s' := settle vocabSize w hintLo hintHi s t a compact
    s'.iters = s.iters + 1 ∧
      ((s'.stage = 2 ∧ (IsCut vocabSize logits w θ s'.tau s'.n ∨
      (t ≠ s.lo ∧ maxIters ≤ s'.iters))) ∨
        (ToppOpen vocabSize scratchSize logits w θ s' ∧ t ≠ s.lo ∧ s.lo ≤ s'.lo ∧ s'.hi ≤ s.hi ∧
          (t < s'.lo ∨ s'.hi ≤ t))) := by
  have hv := weight_nonneg hbot hw htop
  have htlt : t < ⊤ := hthi.trans h.hi_lt
  obtain rfl := h.target
  obtain ⟨mass, least, cDown, cUp⟩ := a
  obtain rfl : mass = above logits vocabSize w t := hround.mass
  dsimp only
  unfold settle
  dsimp only
  rw [if_neg (by rw [h.taken]; exact Bool.false_ne_true)]
  by_cases henough : s.target ≤ above logits vocabSize w t
  · have hb : Bracket logits vocabSize w s.target t s.hi := ⟨henough, h.bracket.high⟩
    obtain ⟨hnext, hnexthi, -, habove⟩ := hb.up hv henough
    obtain rfl : least = _ := hround.least henough
    dsimp only
    have hrest : above logits vocabSize w t - w (next logits vocabSize t) * mult logits vocabSize
      (next logits vocabSize t) = above logits vocabSize w (next logits vocabSize t) := by
      rw [habove, add_sub_cancel_right]
    rw [hrest]
    by_cases hexact : above logits vocabSize w (next logits vocabSize t) < s.target
    · rw [if_pos (Or.inl ⟨henough, hexact⟩)]
      refine ⟨rfl, Or.inl ⟨rfl, Or.inl ?_⟩⟩
      dsimp only
      rw [if_pos ⟨henough, hexact⟩]
      exact topp_cut hbot hw htop hsize hb h.hi_lt hexact
    · have hne : t ≠ s.lo := by
        rintro heq
        -- neighbours: the next value is the upper end, above which there is too little
        have hnext' := h.bracket.adjacent hv (hadj heq)
        rw [← heq] at hnext'
        exact hexact (hnext' ▸ h.bracket.high)
      by_cases hcap : maxIters ≤ s.iters + 1
      · rw [if_pos (Or.inr (Or.inr hcap))]
        exact ⟨rfl, Or.inl ⟨rfl, Or.inr ⟨hne, hcap⟩⟩⟩
      · rw [if_neg (by rintro (⟨-, hlt⟩ | heq | hle); exacts [hexact hlt, hne heq, hcap hle]),
          if_pos henough]
        have hcore : ToppCore vocabSize scratchSize logits w s.target { s with
            iters := s.iters + 1, lo := next logits vocabSize t,
            cand := (cUp : Int) - mult logits vocabSize (next logits vocabSize t) } :=
          ⟨⟨not_lt.mp hexact, h.bracket.high⟩, h.hi_lt, rfl, h.aHi, h.first, h.taken, h.stage,
            fun h1 => (h.tile h1).raise (hle.trans hnext.le)⟩
        have hup : s.stage = 0 → cUp = tokens vocabSize logits (next logits vocabSize t) s.hi +
            mult logits vocabSize (next logits vocabSize t) :=
            fun h0 => (hround.cUp h0).trans (tokens_next htlt hnexthi)
        obtain ⟨hiters, hopen, hlo, hhi⟩ := @advance_spec _ _ _ _ _ _ _ _ _ _ _ hintLo hintHi
          _ compact hcore
          (fun h0 => by have := hup h0; dsimp only; omega)
          (fun h0 hc => (hround.compacted h0 hc).raise (hle.trans hnext.le))
          (fun ha => ⟨(hround.hint ha).lo, (hround.hint ha).hi, (hround.hint ha).cH⟩)
            hround.unapplied
        exact ⟨hiters, Or.inr ⟨hopen, hne, (hle.trans hnext.le).trans hlo, hhi,
          Or.inl (hnext.trans_le hlo)⟩⟩
  · have hne : t ≠ s.lo := by
      rintro rfl
      exact henough h.bracket.low
    by_cases hcap : maxIters ≤ s.iters + 1
    · rw [if_pos (Or.inr (Or.inr hcap))]
      exact ⟨rfl, Or.inl ⟨rfl, Or.inr ⟨hne, hcap⟩⟩⟩
    · rw [if_neg (by rintro (⟨hge, -⟩ | heq | hle); exacts [henough hge, hne heq, hcap hle]),
        if_neg henough]
      have hcore : ToppCore vocabSize scratchSize logits w s.target { s with
          iters := s.iters + 1, hi := t, aHi := above logits vocabSize w t,
          cand := (cDown : Int) } :=
        ⟨⟨h.bracket.low, not_le.mp henough⟩, htlt, rfl, rfl, h.first, h.taken, h.stage, fun h1 =>
          (h.tile h1).lower hthi.le⟩
      obtain ⟨hiters, hopen, hlo, hhi⟩ := @advance_spec _ _ _ _ _ _ _ _ _ _ _ hintLo hintHi
        _ compact hcore
        (fun h0 => by have := hround.cDown h0; dsimp only at this ⊢; omega)
        (fun h0 hc => (hround.compacted h0 hc).lower hthi.le)
        (fun ha => ⟨(hround.hint ha).lo, (hround.hint ha).hi, (hround.hint ha).cH⟩) hround.unapplied
      exact ⟨hiters, Or.inr ⟨hopen, hne, hlo, hhi.trans hthi.le, Or.inr hhi⟩⟩

/-! ## Rounds of the top-p search

The invariant of the loop is `ToppOpen`. It does not say that the hint was right: a hint bound is
applied only after a pass over the full row has checked it, where the code does check.
-/

include hbot hw htop hsize in
/-- **One round** of the top-p search, in full-row or compacted passes. -/
theorem toppRound_spec (hblock : 0 < blockSize) (h : ToppOpen vocabSize scratchSize logits w θ s) :
    let t := exactPivot F (F.sub88 m) s.lo s.hi
    let s' := toppRound vocabSize blockSize logits w p scratchSize hintLo hintHi F m s
    s'.iters = s.iters + 1 ∧
      ((s'.stage = 2 ∧ (IsCut vocabSize logits w θ s'.tau s'.n ∨
      (t ≠ s.lo ∧ maxIters ≤ s'.iters))) ∨
        (ToppOpen vocabSize scratchSize logits w θ s' ∧ t ≠ s.lo ∧ s.lo ≤ s'.lo ∧ s'.hi ≤ s.hi ∧
          (t < s'.lo ∨ s'.hi ≤ t))) := by
  have hv := weight_nonneg hbot hw htop
  obtain ⟨hle, hthi, hadj⟩ := @exactPivot_spec α _ _ F (F.sub88 m) s.lo s.hi (h.bracket.lt hv)
  dsimp only
  unfold toppRound
  dsimp only
  generalize exactPivot F (F.sub88 m) s.lo s.hi = t at hle hthi hadj ⊢
  rcases h.stage with h0 | h1
  · have hcover : vocabSize ≤ numTiles vocabSize blockSize * blockSize := le_numTiles_mul hblock
    have hpass := @toppPass_spec α _ _ vocabSize blockSize logits R _ w scratchSize
      hintLo hintHi s t
      (decide (s.cand ≤ scratchSize))
    rw [if_pos h0, if_neg (by rw [h.first]; exact Bool.false_ne_true)]
    generalize toppPass vocabSize blockSize logits w scratchSize hintLo hintHi s t
      (decide (s.cand ≤ scratchSize)) = a at hpass ⊢
    obtain ⟨hmass, hleast, hdown, hup⟩ := pass_facts hcover hpass hle hthi
    have hcore : ToppCore vocabSize scratchSize logits w θ
        { s with nw := a.nw, mHlo := a.mHlo, mHhi := a.mHhi, cH := a.cH, scratch := a.scratch } :=
      ⟨h.bracket, h.hi_lt, h.target, h.aHi, h.first, h.taken, h.stage, fun h1 =>
        absurd (h0.symm.trans h1) Nat.zero_ne_one⟩
    refine settle_spec (a := ⟨a.mass, a.least, a.cDown, a.cUp⟩) hbot hw htop hsize hcore
      ⟨hmass, fun _ => hleast, fun _ => hdown, fun _ => hup, fun _ hc => ?_, fun ha => ?_, fun _ =>
        h.unapplied⟩ hle hthi hadj
    · have hnot : ¬ Hinting vocabSize scratchSize s :=
        fun hh => Bool.false_ne_true (h.first.symm.trans hh.2)
      have hcand := h.cand h0
      have hfit : s.cand ≤ scratchSize := of_decide_eq_true hc
      have hnw := hpass.nw hc
      refine ⟨s.lo, s.hi, _, hcover, hpass.compacted hc hnot, hnw, ?_, le_rfl, le_rfl⟩
      show a.nw ≤ scratchSize
      rw [hnw, tokens_eq hcover]
      omega
    · exact absurd (h.unapplied.symm.trans ha) Bool.false_ne_true
  · rw [if_neg (by omega)]
    obtain ⟨lo₀, hi₀, n, hn, hscratch, hnw, hfit, hlo₀, hhi₀⟩ := h.tile h1
    obtain ⟨hmass, hleast⟩ := @scratchPass_spec α _ _ vocabSize logits R _ w scratchSize s lo₀ hi₀ t
      n hscratch hn hnw hfit
      hlo₀ hhi₀ hle
    rw [h.aHi, above_split hthi.le] at hmass
    refine settle_spec hbot hw htop hsize h.toToppCore ⟨hmass, fun henough => hleast ?_, fun h0 =>
      ?_, fun h0 => ?_, fun h0 => ?_, fun ha => ?_, fun _ => h.unapplied⟩ hle hthi hadj
    · exact Bracket.exists_entry hv ⟨henough, h.bracket.high⟩
    · exact absurd (h0.symm.trans h1) Nat.zero_ne_one
    · exact absurd (h0.symm.trans h1) Nat.zero_ne_one
    · exact absurd (h0.symm.trans h1) Nat.zero_ne_one
    · exact absurd (h.unapplied.symm.trans ha) Bool.false_ne_true

include hbot hw htop hsize in
/-- A search that goes on is on its way. -/
theorem toppSearch_open (hblock : 0 < blockSize) {n : Nat}
    (h : ToppOpen vocabSize scratchSize logits w θ s)
    (hgoing : (toppSearch vocabSize blockSize logits w p scratchSize hintLo hintHi F m n
      s).stage < 2) :
    ToppOpen vocabSize scratchSize logits w θ
      (toppSearch vocabSize blockSize logits w p scratchSize hintLo hintHi F m n s) := by
  induction n generalizing s with
  | zero => exact h
  | succ n ih =>
    obtain ⟨-, hround⟩ := @toppRound_spec α _ _ vocabSize blockSize scratchSize logits R _ _ w p θ
      hintLo hintHi m F s
      hbot hw htop hsize _ _ hblock h
    have hopen : s.stage < 2 := by
      have := h.stage
      omega
    rw [toppSearch, if_pos hopen] at hgoing ⊢
    rcases hround with ⟨hdone, -⟩ | ⟨hopen', -⟩
    · cases n with
      | zero => exact absurd hgoing hdone.ge.not_gt
      | succ n =>
        rw [toppSearch, if_neg hdone.ge.not_gt] at hgoing
        exact absurd hgoing hdone.ge.not_gt
    · exact ih hopen' hgoing

include hbot hw htop hsize in
/-- **Every later round of the top-p search ends it or narrows its bracket.** -/
theorem toppSearch_narrows (hblock : 0 < blockSize)
    (h : ToppOpen vocabSize scratchSize logits w θ s) (n : Nat) :
    let s₁ := toppSearch vocabSize blockSize logits w p scratchSize hintLo hintHi F m n s
    let s₂ := toppRound vocabSize blockSize logits w p scratchSize hintLo hintHi F m s₁
    s₁.stage < 2 → s₂.stage = 2 ∨ Narrows F s₁.lo s₁.hi s₂.lo s₂.hi := by
  intro s₁ s₂ hgoing
  have hv := weight_nonneg hbot hw htop
  have hopen : ToppOpen vocabSize scratchSize logits w θ s₁ :=
    toppSearch_open hbot hw htop hsize hblock h hgoing
  obtain ⟨hle, hthi, -⟩ := @exactPivot_spec α _ _ F (F.sub88 m) _ _ (hopen.bracket.lt hv)
  refine (toppRound_spec hbot hw htop hsize hblock hopen).2.imp And.left ?_
  rintro ⟨hopen', hne, hlo, hhi, hside⟩
  exact narrows_of_pivot hne hle hthi hlo (hopen'.bracket.lt hv) hhi hside

include hbot hw htop hsize in
/-- **The rounds** of the top-p search: it finds the cut, or is given up. -/
theorem toppSearch_spec (hblock : 0 < blockSize) {fuel : Nat}
    (h : ToppOpen vocabSize scratchSize logits w θ s)
    (hfuel : maxIters ≤ s.iters + fuel) (hpos : 0 < fuel) :
    let s' := toppSearch vocabSize blockSize logits w p scratchSize hintLo hintHi F m fuel s
    IsCut vocabSize logits w θ s'.tau s'.n ∨ maxIters ≤ s'.iters := by
  induction fuel generalizing s with
  | zero => omega
  | succ fuel ih =>
    obtain ⟨hiters, hround⟩ := @toppRound_spec α _ _ vocabSize blockSize scratchSize logits R _ _ w
      p θ hintLo hintHi m F s
      hbot hw htop hsize _ _ hblock h
    have hopen : s.stage < 2 := by
      have := h.stage
      omega
    dsimp only at hround ⊢
    rw [toppSearch, if_pos hopen]
    generalize toppRound vocabSize blockSize logits w p scratchSize hintLo hintHi F m s =
      s' at hiters hround ⊢
    rcases hround with ⟨hdone, hend⟩ | ⟨hopen', -⟩
    · have hstay :
          toppSearch vocabSize blockSize logits w p scratchSize hintLo hintHi F m fuel s' = s' := by
        cases fuel with
        | zero => rfl
        | succ fuel => rw [toppSearch, if_neg (by omega)]
      rw [hstay]
      exact hend.imp_right And.right
    · rcases Nat.eq_zero_or_pos fuel with rfl | hpos'
      · exact Or.inr (by show maxIters ≤ s'.iters; omega)
      · exact ih hopen' (by omega) hpos'

include hbot hw htop hsize in
/-- A bracket that closes bounds the rounds. -/
theorem toppSearch_iters (hblock : 0 < blockSize) {n fuel : Nat}
    (h : ToppOpen vocabSize scratchSize logits w θ s)
    (hcloses : Closes (exactPivot F (F.sub88 m)) n s.lo s.hi) :
    (toppSearch vocabSize blockSize logits w p scratchSize hintLo hintHi F m fuel s).iters ≤
      s.iters + n + 1 := by
  induction fuel generalizing s n with
  | zero => exact Nat.le_add_right _ (n + 1)
  | succ fuel ih =>
    obtain ⟨hiters, hround⟩ := @toppRound_spec α _ _ vocabSize blockSize scratchSize logits R _ _ w
      p θ hintLo hintHi m F s
      hbot hw htop hsize _ _ hblock h
    have hopen : s.stage < 2 := by
      have := h.stage
      omega
    rw [toppSearch, if_pos hopen]
    generalize toppRound vocabSize blockSize logits w p scratchSize hintLo hintHi F m s =
      s' at hiters hround ⊢
    rcases hround with ⟨hdone, -⟩ | ⟨hopen', hne, hlo, hhi, hside⟩
    · cases fuel with
      | zero =>
        show s'.iters ≤ _
        omega
      | succ fuel =>
        rw [toppSearch, if_neg (by omega)]
        omega
    · cases n with
      | zero => exact absurd hcloses hne
      | succ n =>
        have hlt := hopen'.bracket.lt (weight_nonneg hbot hw htop)
        have hle := ih hopen' ((hcloses.resolve_left hne) _ _ hlo hlt hhi hside)
        omega

end Topp

end Ringside.ToppFallback

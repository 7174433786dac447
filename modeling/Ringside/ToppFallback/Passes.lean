import Ringside.ToppFallback.Rows

/-!
# What a pass over a row finds (`topk_topp_triton.py`)

The tile loops of the exact rows give sums, counts, least values and compactions of the whole row,
and the mask row what it keeps of it. Each loop has a lemma for one tile and one for the row; a
search only uses the latter.

* Lanes past the end of a row load minus infinity, which is in no bracket and above no pivot, so a
  tile that is not full needs no case of its own.
* `Passed` are the accumulators of `toppPass` after the first `n` lanes; the hint's masses are only
  summed where `Hinting` says so.
* `Compacted`: the scratch tile holds the first values with a property, as many as fit. The running
  count may pass the tile's size, and then the tile is not used.
* Weights are of an ordered field, summed exactly.

Results:
* `leastTile_leastOf`, `compactTile_spec`, `toppTile_spec`: one tile.
* `topkPass_spec`, `toppPass_spec`: a pass over the full row.
* `scratchPass_spec`: a pass over the scratch tile, when it holds the bracket.
* `exactMaskRow_spec`: the mask keeps what is above `tau`, and the first `n` at it.
-/

namespace Ringside.ToppFallback

open Ringside.Scatter Ringside.Cut

variable {α : Type} [LinearOrder α] [BoundedOrder α] {vocabSize blockSize : Nat} {logits : Nat → α}

theorem above_iff {t y : α} : Above t y ↔ t < y := ⟨And.right, fun h => ⟨bot_le.trans_lt h, h⟩⟩

theorem inBracket_iff {lo hi y : α} : InBracket lo hi y ↔ lo < y ∧ y ≤ hi :=
  ⟨And.right, fun h => ⟨bot_le.trans_lt h.1, h⟩⟩

theorem load_of_lt {o : Nat} (h : o < vocabSize) : load vocabSize logits o = logits o := if_pos h

theorem load_of_le {o : Nat} (h : vocabSize ≤ o) : load vocabSize logits o = ⊥ := if_neg (by omega)

/-! ## Tiles -/

/-- The tiles cover the row. -/
theorem le_numTiles_mul (hblock : 0 < blockSize) :
    vocabSize ≤ numTiles vocabSize blockSize * blockSize := by
  unfold numTiles
  have hdiv := Nat.div_add_mod' (vocabSize + blockSize - 1) blockSize
  have hlt := Nat.mod_lt (vocabSize + blockSize - 1) hblock
  omega

/-- A loop over the tiles, from what one tile adds to what the tiles before it left. -/
theorem foldl_tiles {σ : Type} {f : σ → Nat → σ} {init : σ} {P : Nat → σ → Prop} (hinit : P 0 init)
    (hstep : ∀ i a, P (i * blockSize) a → P (i * blockSize + blockSize) (f a i)) (n : Nat) :
    P (n * blockSize) ((List.range n).foldl f init) := by
  induction n with
  | zero => rwa [Nat.zero_mul]
  | succ n ih =>
    rw [List.range_succ, List.foldl_append, Nat.succ_mul]
    exact hstep n _ ih

theorem tileCount_add (p : α → Prop) [DecidablePred p] (i : Nat) :
    Nat.count (fun o => p (load vocabSize logits o)) (i * blockSize + blockSize) =
      Nat.count (fun o => p (load vocabSize logits o)) (i * blockSize) + tileCount vocabSize
        blockSize logits p i :=
  Nat.count_add _ _ _

theorem tileSum_add {R : Type} [AddCommMonoid R] (w : α → R) (p : α → Prop)
    [DecidablePred p] (i : Nat) :
    ∑ o ∈ Finset.range (i * blockSize + blockSize),
    (if p (load vocabSize logits o) then w (load vocabSize logits o) else 0) =
      ∑ o ∈ Finset.range (i * blockSize), (if p (load vocabSize logits o) then
      w (load vocabSize logits o) else 0) + tileSum vocabSize blockSize logits w p i :=
  Finset.sum_range_add _ _ _

/-- Loads beyond the row count for nothing. -/
theorem count_load {p : α → Prop} [DecidablePred p] (hp : ¬ p ⊥) {n : Nat} (hn : vocabSize ≤ n) :
    Nat.count (fun o => p (load vocabSize logits o)) n =
      Nat.count (fun o => p (logits o)) vocabSize := by
  rw [count_eq_of_le hn fun o ho => by rwa [load_of_le ho]]
  exact count_congr fun o ho => by rw [load_of_lt ho]

theorem sum_load {R : Type} [AddCommMonoid R] (w : α → R) {p : α → Prop} [DecidablePred p]
    (hp : ¬ p ⊥) {n : Nat}
    (hn : vocabSize ≤ n) :
    ∑ o ∈ Finset.range n, (if p (load vocabSize logits o) then w (load vocabSize logits o) else 0) =
      ∑ o ∈ Finset.range vocabSize, if p (logits o) then w (logits o) else 0 := by
  obtain ⟨d, rfl⟩ := Nat.exists_eq_add_of_le hn
  rw [Finset.sum_range_add, Finset.sum_eq_zero (s := Finset.range d), add_zero]
  · exact Finset.sum_congr rfl fun o ho => by rw [load_of_lt (Finset.mem_range.mp ho)]
  · exact fun o _ => if_neg (by rwa [load_of_le (by omega)])

/-! ## The least value above the pivot -/

section Least

variable (x : Nat → α) (t : α)

/-- The least value above `t` among the first `n`, and how often it occurs. -/
def leastOf (n : Nat) : Least α :=
  let minl := (Finset.range n).inf fun o => if t < x o then x o else ⊤
  ⟨minl, Nat.count (fun o => t < x o ∧ x o = minl) n⟩

theorem inf_range_add (f : Nat → α) (n d : Nat) :
    (Finset.range (n + d)).inf f = min ((Finset.range n).inf f) ((Finset.range d).inf fun j =>
    f (n + j)) := by
  induction d with
  | zero => simp
  | succ d ih =>
    rw [← Nat.add_assoc, Finset.range_add_one, Finset.inf_insert, Finset.range_add_one,
      Finset.inf_insert, ih]
    exact inf_left_comm _ _ _

variable {x t}

/-- What is below all values above `t` does not occur above it. -/
theorem count_below {n : Nat} {z : α}
    (h : z < (Finset.range n).inf fun o => if t < x o then x o else ⊤) :
    Nat.count (fun o => t < x o ∧ x o = z) n = 0 := by
  refine Nat.count_of_forall_not fun o ho hlt => ?_
  have hle := h.trans_le (Finset.inf_le (Finset.mem_range.mpr ho))
  rw [if_pos hlt.1, hlt.2] at hle
  exact lt_irrefl z hle

/-- **A tile joins the least value.** -/
theorem leastTile_leastOf (i : Nat) :
    leastTile vocabSize blockSize logits t (leastOf (load vocabSize logits) t (i * blockSize)) i =
      leastOf (load vocabSize logits) t (i * blockSize + blockSize) := by
  generalize hx : load vocabSize logits = x
  have htile : ∀ j, (if Above t (x (i * blockSize + j)) then x (i * blockSize + j) else ⊤) =
      if t < x (i * blockSize + j) then x (i * blockSize + j)
        else ⊤ := fun j => if_congr above_iff rfl rfl
  have hcount : ∀ z, Nat.count (fun j => Above t (x (i * blockSize + j)) ∧
      (if t < x (i * blockSize + j) then x (i * blockSize + j) else ⊤) = z) blockSize =
      Nat.count (fun j => t < x (i * blockSize + j) ∧ x (i * blockSize + j) = z)
      blockSize := fun z =>
    count_congr fun j _ => by
      rw [above_iff]
      exact and_congr_right fun hlt => by rw [if_pos hlt]
  unfold leastTile leastOf
  rw [hx]
  dsimp only
  simp only [htile, hcount, inf_range_add, Nat.count_add]
  generalize hold : (Finset.range (i * blockSize)).inf (fun o => if t < x o then x o else ⊤) = old
  generalize hnew : (Finset.range blockSize).inf (fun j => if t < x (i * blockSize + j) then
    x (i * blockSize + j) else ⊤) = new
  congr 1
  rcases lt_trichotomy new old with hlt | heq | hgt
  · have hnone := @count_below α _ _ x t (i * blockSize) new (hold.symm ▸ hlt)
    rw [if_pos hlt, min_eq_right hlt.le, hnone, Nat.zero_add]
  · rw [if_neg heq.not_lt, if_pos heq, heq, min_self]
  · have hnone := @count_below α _ _ (fun j => x (i * blockSize + j)) t blockSize old
      (hnew.symm ▸ hgt)
    rw [if_neg hgt.not_gt, if_neg hgt.ne', min_eq_left hgt.le, hnone, Nat.add_zero]

/-- The least value of the whole row. -/
theorem leastOf_load {n : Nat} (hn : vocabSize ≤ n) (ht : t < ⊤) :
    leastOf (load vocabSize logits) t n =
    ⟨next logits vocabSize t, mult logits vocabSize (next logits vocabSize t)⟩ := by
  have hminl : (leastOf (load vocabSize logits) t n).minl = next logits vocabSize t := by
    obtain ⟨d, rfl⟩ := Nat.exists_eq_add_of_le hn
    have hpad : (Finset.range d).inf (fun j => if t < load vocabSize logits (vocabSize + j) then
        load vocabSize logits (vocabSize + j) else ⊤) = ⊤ := by
      refine top_le_iff.mp (Finset.le_inf fun j _ => ?_)
      rw [load_of_le (by omega), if_neg not_lt_bot]
    unfold leastOf next
    dsimp only
    rw [inf_range_add, hpad, min_eq_left le_top]
    exact Finset.inf_congr rfl fun o ho => by rw [load_of_lt (Finset.mem_range.mp ho)]
  have hcm : (leastOf (load vocabSize logits) t n).cm =
    mult logits vocabSize (next logits vocabSize t) := by
    have hnext : t < next logits vocabSize t := lt_next ht
    show Nat.count (fun o => t < load vocabSize logits o ∧ load vocabSize logits o =
      (leastOf (load vocabSize logits) t n).minl) n = _
    rw [hminl, count_load (p := fun y => t < y ∧ y = next logits vocabSize t)
      (fun h => not_lt_bot h.1) hn]
    exact count_congr fun o _ => and_iff_right_of_imp fun h => h ▸ hnext
  rw [← hcm, ← hminl]

end Least

/-- **The pass of the top-k search.** -/
theorem topkPass_spec (hblock : 0 < blockSize) {t : α} (ht : t < ⊤) :
    topkPass vocabSize blockSize logits t =
    (Nat.count (fun o => t < logits o) vocabSize,
    ⟨next logits vocabSize t, mult logits vocabSize (next logits vocabSize t)⟩) := by
  have hcover : vocabSize ≤ numTiles vocabSize blockSize * blockSize := le_numTiles_mul hblock
  have hfold : topkPass vocabSize blockSize logits t =
      (Nat.count (fun o => t < load vocabSize logits o) (numTiles vocabSize blockSize * blockSize),
        leastOf (load vocabSize logits) t (numTiles vocabSize blockSize * blockSize)) := by
    refine foldl_tiles (P := fun n a => a = (Nat.count (fun o => t < load vocabSize logits o) n,
      leastOf (load vocabSize logits) t n)) rfl ?_ _
    rintro i a rfl
    rw [leastTile_leastOf, Nat.count_add]
    refine congrArg (Prod.mk · _) (congrArg (_ + ·) (count_congr fun j _ => above_iff))
  rw [hfold, count_load (p := fun y => t < y) not_lt_bot hcover, leastOf_load hcover ht]

/-! ## Compaction -/

/-- The scratch tile holds the first values with a property, as many as fit. -/
def Compacted (x : Nat → α) (p : α → Prop) [DecidablePred p] (scratchSize : Nat) (scratch : Nat → α)
    (n : Nat) : Prop :=
  ∀ o < n, p (x o) → Nat.count (fun o => p (x o)) o < scratchSize →
    scratch (Nat.count (fun o => p (x o)) o) = x o

/-- **A tile of the compaction.** -/
theorem compactTile_spec {p : α → Prop} [DecidablePred p] {scratchSize i : Nat} {scratch : Nat → α}
    (h : Compacted (load vocabSize logits) p scratchSize scratch (i * blockSize)) :
    Compacted (load vocabSize logits) p scratchSize
      (stores (compactTile vocabSize blockSize logits p scratchSize
        (Nat.count (fun o => p (load vocabSize logits o)) (i * blockSize)) i) scratch)
          (i * blockSize + blockSize) := by
  generalize hx : load vocabSize logits = x at h
  have hslot : ∀ j, Nat.count (fun j => p (x (i * blockSize + j))) j + Nat.count (fun o => p (x o))
    (i * blockSize) = Nat.count (fun o => p (x o)) (i * blockSize + j) := fun j => by
      rw [Nat.count_add, Nat.add_comm]
  have hws : compactTile vocabSize blockSize logits p scratchSize
    (Nat.count (fun o => p (x o)) (i * blockSize)) i =
      ((List.range blockSize).filter fun j => p (x (i * blockSize + j)) ∧
        Nat.count (fun o => p (x o)) (i * blockSize + j) < scratchSize).map fun j =>
          (Nat.count (fun o => p (x o)) (i * blockSize + j), x (i * blockSize + j)) := by
    unfold compactTile
    rw [hx]
    simp only [hslot]
  rw [hws]
  have hnodup : ((((List.range blockSize).filter fun j => p (x (i * blockSize + j)) ∧
      Nat.count (fun o => p (x o)) (i * blockSize + j) < scratchSize).map fun j =>
        (Nat.count (fun o => p (x o)) (i * blockSize + j), x (i * blockSize + j))).map
          Prod.fst).Nodup := by
    rw [List.map_map]
    refine (List.nodup_range.filter _).map_on fun j hj j' hj' heq => ?_
    have hj := (of_decide_eq_true (List.mem_filter.mp hj).2).1
    have hj' := (of_decide_eq_true (List.mem_filter.mp hj').2).1
    have hinj := Nat.count_injective (p := fun o => p (x o)) hj hj' heq
    omega
  intro o ho hp hlt
  rcases Nat.lt_or_ge o (i * blockSize) with hbefore | hin
  · rw [stores_of_notMem, h o hbefore hp hlt]
    intro hmem
    rw [List.map_map] at hmem
    obtain ⟨j, -, hj⟩ := List.mem_map.mp hmem
    have hcount :
        Nat.count (fun o => p (x o)) o < Nat.count (fun o => p (x o)) (i * blockSize + j) :=
      count_lt_of_lt (p := fun o => p (x o)) hp (by omega)
    exact hcount.ne hj.symm
  · obtain ⟨j, rfl⟩ := Nat.exists_eq_add_of_le hin
    refine stores_of_mem hnodup (List.mem_map.mpr
      ⟨j, List.mem_filter.mpr ⟨List.mem_range.mpr (by omega), ?_⟩, rfl⟩)
    exact decide_eq_true ⟨hp, hlt⟩

omit [LinearOrder α] [BoundedOrder α] in
/-- What a pass over the scratch tile reads, one value of the row after the other. -/
theorem sum_compacted {x : Nat → α} {p : α → Prop} [DecidablePred p] {scratchSize n : Nat}
    {scratch : Nat → α} (h : Compacted x p scratchSize scratch n)
    (hfit : Nat.count (fun o => p (x o)) n ≤ scratchSize) {M : Type} [AddCommMonoid M] (f : α → M) :
    ∑ q ∈ Finset.range (Nat.count (fun o => p (x o)) n), f (scratch q) = ∑ o ∈ Finset.range n,
      if p (x o) then f (x o) else 0 := by
  induction n with
  | zero => simp
  | succ n ih =>
    rw [Nat.count_succ] at hfit ⊢
    have ih := ih (fun o ho => h o (by omega)) (by omega)
    rw [Finset.sum_range_succ _ n]
    by_cases hp : p (x n)
    · rw [if_pos hp] at hfit
      rw [if_pos hp, if_pos hp, Finset.sum_range_succ, ih, h n (by omega) hp (by omega)]
    · rw [if_neg hp, if_neg hp, Nat.add_zero, add_zero, ih]

/-! ## The pass over the full row -/

section Pass

variable {R : Type} [Field R] {w : α → R} {scratchSize : Nat} {hintLo hintHi : α}

/-- The first pass of a row longer than the scratch tile looks at the hint. -/
def Hinting {R : Type} (vocabSize scratchSize : Nat) (s : ToppState α R) : Prop :=
    scratchSize < vocabSize ∧ s.first = true

/-- The accumulators after the first `n` lanes. -/
structure Passed (vocabSize : Nat) (logits : Nat → α) (w : α → R) (scratchSize : Nat)
    (hintLo hintHi : α)
    (s : ToppState α R) (t : α) (compact : Bool) (n : Nat) (a : Pass α R) : Prop where
  acc : a.acc = ∑ o ∈ Finset.range n, if ⊥ < load vocabSize logits o then
    w (load vocabSize logits o) else 0
  mass : a.mass = ∑ o ∈ Finset.range n, if Above t (load vocabSize logits o) then
    w (load vocabSize logits o) else 0
  least : a.least = leastOf (load vocabSize logits) t n
  cDown : a.cDown = Nat.count (fun o => InBracket s.lo s.hi (load vocabSize logits o) ∧
    load vocabSize logits o ≤ t) n
  cUp : a.cUp = Nat.count (fun o => InBracket s.lo s.hi (load vocabSize logits o) ∧
    t < load vocabSize logits o) n
  nw : compact = true → a.nw = Nat.count (fun o => InBracket s.lo s.hi (load vocabSize logits o)) n
  compacted : compact = true → ¬ Hinting vocabSize scratchSize s →
    Compacted (load vocabSize logits) (InBracket s.lo s.hi) scratchSize a.scratch n
  unhinted : ¬ Hinting vocabSize scratchSize s → a.mHlo = s.mHlo ∧ a.mHhi = s.mHhi ∧ a.cH = s.cH
  mHlo : Hinting vocabSize scratchSize s → a.mHlo = s.mHlo +
    ∑ o ∈ Finset.range n, if Above hintLo (load vocabSize logits o) then
    w (load vocabSize logits o) else 0
  mHhi : Hinting vocabSize scratchSize s → a.mHhi = s.mHhi +
    ∑ o ∈ Finset.range n, if Above hintHi (load vocabSize logits o) then
    w (load vocabSize logits o) else 0
  cH : Hinting vocabSize scratchSize s →
    a.cH = s.cH + Nat.count (fun o => InBracket hintLo hintHi (load vocabSize logits o)) n
  hinted : Hinting vocabSize scratchSize s → compact = false → s.cH = 0 →
    Compacted (load vocabSize logits) (InBracket hintLo hintHi) scratchSize a.scratch n

/-- What a tile does to an accumulator that every pass has. -/
theorem toppTile_common (s : ToppState α R) (t : α) (compact : Bool) (a : Pass α R) (i : Nat) :
    let a' := toppTile vocabSize blockSize logits w scratchSize hintLo hintHi s t compact a i
    a'.acc = a.acc + tileSum vocabSize blockSize logits w (⊥ < ·) i ∧
      a'.mass = a.mass + tileSum vocabSize blockSize logits w (Above t) i ∧
      a'.least = leastTile vocabSize blockSize logits t a.least i ∧
      a'.cDown =
        a.cDown + tileCount vocabSize blockSize logits (fun y => InBracket s.lo s.hi y ∧ y ≤ t) i ∧
      a'.cUp = a.cUp + tileCount vocabSize blockSize logits (fun y => InBracket s.lo s.hi y ∧
      t < y) i := by
  unfold toppTile
  dsimp only
  split_ifs <;> exact ⟨rfl, rfl, rfl, rfl, rfl⟩

/-- **A tile of the pass.** -/
theorem toppTile_spec {s : ToppState α R} {t : α} {compact : Bool} {i : Nat} {a : Pass α R}
    (h : Passed vocabSize logits w scratchSize hintLo hintHi s t compact (i * blockSize) a) :
    Passed vocabSize logits w scratchSize hintLo hintHi s t compact (i * blockSize + blockSize)
      (toppTile vocabSize blockSize logits w scratchSize hintLo hintHi s t compact a i) := by
  obtain ⟨hacc, hmass, hleast, hdown, hup⟩ :=
    @toppTile_common α _ _ vocabSize blockSize logits R _ w scratchSize hintLo hintHi
      s t compact a i
  refine ⟨?_, ?_, ?_, ?_, ?_, fun hc => ?_, fun hc hn => ?_, fun hn => ?_, fun hhint =>
    ?_, fun hhint => ?_, fun hhint => ?_, fun hhint hc hzero => ?_⟩
  · rw [hacc, h.acc, tileSum_add]
  · rw [hmass, h.mass, tileSum_add]
  · rw [hleast, h.least, leastTile_leastOf]
  · rw [hdown, h.cDown]
    exact (tileCount_add (fun y => InBracket s.lo s.hi y ∧ y ≤ t) i).symm
  · rw [hup, h.cUp]
    exact (tileCount_add (fun y => InBracket s.lo s.hi y ∧ t < y) i).symm
  · rw [tileCount_add, ← h.nw hc]
    unfold toppTile
    dsimp only
    rw [if_pos hc]
    split_ifs <;> rfl
  · have hstep := compactTile_spec (h.compacted hc hn)
    rw [← h.nw hc] at hstep
    unfold toppTile
    dsimp only
    rwa [if_neg (show ¬ (scratchSize < vocabSize ∧ s.first = true) from hn), if_pos hc]
  · obtain ⟨hlo, hhi, hch⟩ := h.unhinted hn
    unfold toppTile
    dsimp only
    rw [if_neg (show ¬ (scratchSize < vocabSize ∧ s.first = true) from hn)]
    split_ifs <;> exact ⟨hlo, hhi, hch⟩
  · rw [tileSum_add, ← add_assoc, ← h.mHlo hhint]
    unfold toppTile
    dsimp only
    rw [if_pos (show scratchSize < vocabSize ∧ s.first = true from hhint)]
    split_ifs <;> rfl
  · rw [tileSum_add, ← add_assoc, ← h.mHhi hhint]
    unfold toppTile
    dsimp only
    rw [if_pos (show scratchSize < vocabSize ∧ s.first = true from hhint)]
    split_ifs <;> rfl
  · rw [tileCount_add, ← Nat.add_assoc, ← h.cH hhint]
    unfold toppTile
    dsimp only
    rw [if_pos (show scratchSize < vocabSize ∧ s.first = true from hhint)]
    split_ifs <;> rfl
  · have hstep := compactTile_spec (h.hinted hhint hc hzero)
    have hch := h.cH hhint
    rw [hzero, Nat.zero_add] at hch
    rw [← hch] at hstep
    unfold toppTile
    dsimp only
    rwa [if_pos (show scratchSize < vocabSize ∧ s.first = true from hhint),
      if_neg (by rw [hc]; exact Bool.false_ne_true)]

/-- **The pass over the full row.** -/
theorem toppPass_spec (s : ToppState α R) (t : α) (compact : Bool) :
    Passed vocabSize logits w scratchSize hintLo hintHi s t compact
      (numTiles vocabSize blockSize * blockSize)
      (toppPass vocabSize blockSize logits w scratchSize hintLo hintHi s t compact) := by
  refine foldl_tiles ?_ (fun i a h => toppTile_spec h) _
  refine ⟨?_, ?_, ?_, ?_, ?_, fun _ => ?_, fun _ _ => nofun, fun _ => ⟨rfl, rfl, rfl⟩, fun _ =>
    ?_, fun _ => ?_, fun _ => ?_, fun _ _ _ => nofun⟩
  all_goals simp [leastOf]

/-! ## The pass over the scratch tile -/

section Scratch

variable {s : ToppState α R} {lo₀ hi₀ t : α} {n : Nat}
  (hscratch : Compacted (load vocabSize logits) (InBracket lo₀ hi₀) scratchSize s.scratch n)
    (hn : vocabSize ≤ n)
  (hnw : s.nw = Nat.count (fun o => InBracket lo₀ hi₀ (load vocabSize logits o)) n)
    (hfit : s.nw ≤ scratchSize)
  (hlo : lo₀ ≤ s.lo) (hhi : s.hi ≤ hi₀) (hlot : s.lo ≤ t)

omit [Field R] in
include hscratch hn hnw hfit hlo hhi hlot in
/-- A sum over the lanes of the scratch tile that are in the bracket and above the pivot. -/
theorem sum_scratch {M : Type} [AddCommMonoid M] (f : α → M) :
    (∑ q ∈ Finset.range scratchSize, if s.lo < (if q < s.nw then s.scratch q else ⊥) ∧
        (if q < s.nw then s.scratch q else ⊥) ≤ s.hi ∧
        t < (if q < s.nw then s.scratch q else ⊥) then
        f (if q < s.nw then s.scratch q else ⊥) else 0) =
      ∑ o ∈ Finset.range vocabSize, if t < logits o ∧ logits o ≤ s.hi then f (logits o) else 0 := by
  have hlive : (∑ q ∈ Finset.range scratchSize, if s.lo < (if q < s.nw then s.scratch q else ⊥) ∧
        (if q < s.nw then s.scratch q else ⊥) ≤ s.hi ∧
        t < (if q < s.nw then s.scratch q else ⊥) then
        f (if q < s.nw then s.scratch q else ⊥) else 0) =
      ∑ q ∈ Finset.range s.nw, if s.lo < s.scratch q ∧ s.scratch q ≤ s.hi ∧ t < s.scratch q then
        f (s.scratch q) else 0 := by
    obtain ⟨d, hd⟩ := Nat.exists_eq_add_of_le hfit
    rw [hd, Finset.sum_range_add, Finset.sum_eq_zero (s := Finset.range d), add_zero]
    · exact Finset.sum_congr rfl fun q hq => by rw [if_pos (Finset.mem_range.mp hq)]
    · exact fun q _ => if_neg fun h => by
        rw [if_neg (by omega)] at h
        exact not_lt_bot h.1
  have hfit' : Nat.count (fun o => InBracket lo₀ hi₀ (load vocabSize logits o))
    n ≤ scratchSize := hnw ▸ hfit
  rw [hlive, hnw, sum_compacted hscratch hfit' fun y => if s.lo < y ∧ y ≤ s.hi ∧
    t < y then f y else 0,
    ← sum_load f (p := fun y => t < y ∧ y ≤ s.hi) (fun h => not_lt_bot h.1) hn]
  refine Finset.sum_congr rfl fun o _ => ?_
  rw [← ite_and]
  refine if_congr ⟨fun h => ⟨h.2.2.2, h.2.2.1⟩, fun h => ?_⟩ rfl rfl
  have hlt := hlot.trans_lt h.1
  exact ⟨inBracket_iff.mpr ⟨hlo.trans_lt hlt, h.2.trans hhi⟩, hlt, h.2, h.1⟩

omit [Field R] in
include hscratch hn hnw hfit hlo hhi hlot in
/-- The least of them, when there is one. -/
theorem inf_scratch {j : Nat} (hj : j < vocabSize) (htj : t < logits j) (hjhi : logits j ≤ s.hi) :
    ((Finset.range scratchSize).inf fun q => if s.lo < (if q < s.nw then s.scratch q else ⊥) ∧
        (if q < s.nw then s.scratch q else ⊥) ≤ s.hi ∧
        t < (if q < s.nw then s.scratch q else ⊥) then
        (if q < s.nw then s.scratch q else ⊥) else ⊤) = next logits vocabSize t := by
  -- the lanes of the scratch tile are the bracket's values
  have hread : ∀ i < n, InBracket lo₀ hi₀ (load vocabSize logits i) → ∃ q < s.nw,
    s.scratch q = load vocabSize logits i :=
    fun i hi hin => by
      have hlt : Nat.count (fun o => InBracket lo₀ hi₀ (load vocabSize logits o)) i < s.nw := by
        rw [hnw]
        exact count_lt_of_lt (p := fun o => InBracket lo₀ hi₀ (load vocabSize logits o)) hin hi
      exact ⟨_, hlt, hscratch i hi hin (hlt.trans_le hfit)⟩
  have hfrom : ∀ q < s.nw, ∃ i < n, s.scratch q = load vocabSize logits i ∧
    InBracket lo₀ hi₀ (load vocabSize logits i) :=
    fun q hq => by
      rw [hnw] at hq
      obtain ⟨i, hi, hin, hcount⟩ := exists_count_eq hq
      exact ⟨i, hi, hcount ▸ hscratch i hi hin (by rw [hcount]; omega), hin⟩
  refine le_antisymm ?_ (Finset.le_inf fun q _ => ?_)
  · obtain ⟨i, hi, heq⟩ := exists_next hj htj
    have hti : t < logits i := heq ▸ lt_next (htj.trans_le le_top)
    have hihi : logits i ≤ s.hi := heq ▸ (next_le hj htj).trans hjhi
    have hlt := hlot.trans_lt hti
    obtain ⟨q, hq, hval⟩ := hread i (by omega) (by
      rw [load_of_lt hi, inBracket_iff]
      exact ⟨hlo.trans_lt hlt, hihi.trans hhi⟩)
    rw [load_of_lt hi] at hval
    refine (Finset.inf_le (Finset.mem_range.mpr (hq.trans_le hfit))).trans ?_
    rw [if_pos hq, hval, if_pos ⟨hlt, hihi, hti⟩, heq]
  · split_ifs with hq hin
    · obtain ⟨i, hi, hval, -⟩ := hfrom q hq
      rw [hval] at hin ⊢
      rcases Nat.lt_or_ge i vocabSize with hiv | hiv
      · rw [load_of_lt hiv] at hin ⊢
        exact next_le hiv hin.2.2
      · rw [load_of_le hiv] at hin
        exact absurd hin.1 not_lt_bot
    · exact le_top
    · rename_i hbot
      exact absurd hbot.1 not_lt_bot
    · exact le_top

include hscratch hn hnw hfit hlo hhi hlot in
/-- **The pass over the scratch tile**, when it holds the bracket. -/
theorem scratchPass_spec :
    (scratchPass w scratchSize s t).mass =
        s.aHi + ∑ o ∈ Finset.range vocabSize,
        (if t < logits o ∧ logits o ≤ s.hi then w (logits o) else 0) ∧
      ((∃ j < vocabSize, t < logits j ∧ logits j ≤ s.hi) → (scratchPass w scratchSize s t).least =
        ⟨next logits vocabSize t, mult logits vocabSize (next logits vocabSize t)⟩) := by
  refine ⟨congrArg _ (sum_scratch hscratch hn hnw hfit hlo hhi hlot w), ?_⟩
  rintro ⟨j, hj, htj, hjhi⟩
  have hminl := inf_scratch hscratch hn hnw hfit hlo hhi hlot hj htj hjhi
  have hnext : t < next logits vocabSize t := lt_next (htj.trans_le le_top)
  have hhi' : next logits vocabSize t ≤ s.hi := (next_le hj htj).trans hjhi
  unfold scratchPass
  dsimp only
  rw [hminl]
  refine congrArg (Least.mk _) ?_
  have hcm := sum_scratch hscratch hn hnw hfit hlo hhi hlot fun y =>
    if y = next logits vocabSize t then 1 else 0
  rw [mult, Nat.count_eq_card_filter_range, Nat.count_eq_card_filter_range, Finset.card_filter,
    Finset.card_filter]
  refine Eq.trans (Finset.sum_congr rfl fun q _ => ?_)
    (hcm.trans (Finset.sum_congr rfl fun o _ => ?_))
  · rw [← ite_and]
    exact if_congr (and_congr_right fun h => by rw [if_pos h]) rfl rfl
  · rw [← ite_and]
    exact if_congr (and_iff_right_of_imp fun h => h ▸ ⟨hnext, hhi'⟩) rfl rfl

end Scratch

end Pass

/-! ## The mask -/

/-- **The mask keeps** what is above `tau`, and the first `n` at it. -/
theorem exactMaskRow_spec (hblock : 0 < blockSize) (tau : α) (n : Int) (maskValue : α) (o : Nat) :
    exactMaskRow vocabSize blockSize logits tau n maskValue o =
      if o < vocabSize then if Keeps logits tau n.toNat o then logits o else maskValue
        else logits o := by
  let P : Nat → (Nat → α) × Nat → Prop := fun k a =>
    (∀ o, a.1 o = if o < k ∧ o < vocabSize then if Keeps logits tau n.toNat o then logits o
      else maskValue else logits o) ∧
      a.2 = Nat.count (fun o => o < vocabSize ∧ logits o = tau) k
  have hfold := @foldl_tiles blockSize _ (maskTile vocabSize blockSize tau n
    maskValue) (logits, 0) P
    ⟨fun o => by rw [if_neg (by omega)], rfl⟩ ?_ (numTiles vocabSize blockSize)
  · have hcover : vocabSize ≤ numTiles vocabSize blockSize * blockSize := le_numTiles_mul hblock
    refine (hfold.1 o).trans (if_congr (and_iff_right_of_imp fun h => h.trans_le hcover) rfl rfl)
  · rintro i a ⟨hmem, hrank⟩
    -- the lanes of the tile are still as they were
    have hlane : ∀ j, load vocabSize a.1 (i * blockSize + j) = load vocabSize logits
      (i * blockSize + j) := fun j => by
      refine if_congr Iff.rfl ?_ rfl
      rw [hmem, if_neg (by omega)]
    have heq : ∀ j, (i * blockSize + j < vocabSize ∧
      load vocabSize logits (i * blockSize + j) = tau) ↔
        i * blockSize + j < vocabSize ∧ logits (i * blockSize + j) = tau := fun j =>
      and_congr_right fun hlt => by rw [load_of_lt hlt]
    unfold maskTile
    dsimp only
    simp only [hlane, heq, hrank]
    refine ⟨fun o => ?_, (Nat.count_add _ _ _).symm⟩
    dsimp only
    rcases Nat.lt_or_ge o (i * blockSize) with hbefore | hin
    · rw [if_neg (by omega), hmem]
      exact if_congr (by omega) rfl rfl
    by_cases hlive : o < i * blockSize + blockSize ∧ o < vocabSize
    · obtain ⟨j, rfl⟩ := Nat.exists_eq_add_of_le hin
      have hcount : Nat.count (fun j => i * blockSize + j < vocabSize ∧
        logits (i * blockSize + j) = tau) (j + 1) +
          Nat.count (fun o => o < vocabSize ∧ logits o = tau) (i * blockSize) =
          Nat.count (fun o => logits o = tau) (i * blockSize + j + 1) := by
        rw [Nat.add_comm, ← Nat.count_add (fun o => o < vocabSize ∧ logits o = tau),
          ← Nat.add_assoc]
        exact count_congr fun o ho => and_iff_right (by omega)
      rw [if_pos ⟨hin, hlive⟩, if_pos hlive, Nat.add_sub_cancel_left, load_of_lt hlive.2, hcount]
      refine if_congr (or_congr_right ⟨fun h => ⟨h.1.2, ?_⟩, fun h => ⟨⟨hlive.2, h.1⟩, ?_⟩⟩) rfl rfl
      · have hle := h.2
        rw [Nat.count_succ, if_pos h.1.2] at hle
        omega
      · have hlt := h.2
        rw [Nat.count_succ, if_pos h.1]
        omega
    · rw [if_neg fun h => hlive h.2, if_neg hlive, hmem, if_neg (by omega)]

end Ringside.ToppFallback

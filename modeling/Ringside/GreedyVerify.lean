import Ringside.Argmax

/-!
# Greedy verification on vocabulary shards (`glm53_greedy_verify.py`)

Model of `_local_argmax_kernel`, `local_pairs`, `combine_pairs` and `_greedy_accept_kernel`. Every
rank takes the greatest logit of its shard and the lowest index of it, block by block; the ranks
gather these pairs and take the first greatest. The accept kernel then runs greedy rejection on the
argmaxes.

* Logits are a linear order with bottom `-inf`: there is no NaN. Ties and rows that are all minus
  infinity are ordinary values of it.
* A block's lanes past the real columns load `-inf` (`lane`); the loop starts at `-inf` and column 0
  and replaces its best value only by a greater one.
* Values are stored exactly; indices go through float32 (`toFloat32`, 24 bits and ties to even),
  which is exact up to `2^24`. The bound is the module docstring's, and the theorem's hypothesis on
  the vocabulary.
* `Sharding` is a split of the vocabulary into contiguous shards, one for each rank, none of them
  empty.
* A request's row of sampled tokens is written by its own program only, so the programs of the
  accept kernel are taken one by one. A placeholder `-1` among the drafts is an integer that no
  argmax equals.

The specification is `argmax`, the lowest index of a greatest value, and `greedyTokens`, greedy
rejection of drafts against the argmaxes of their rows.

Results:
* `localArgmax_firstMax`: the blocks of a shard.
* `combine_exact`: the gathered pairs give the argmax of the whole row.
* `greedyAccept_exact`: the accept kernel is greedy rejection, by induction on its loop
  (`accepted_step`, `accepted_run`).
* `greedy_verify_exact`: both together.
-/

namespace Ringside.GreedyVerify

open Ringside.Argmax Ringside.Segments

/-- A natural number rounded to float32: 24 bits, ties to even. -/
def toFloat32 (n : Nat) : Nat :=
  if n < 2 ^ 24 then n
  else
    let unit := 2 ^ (Nat.log2 n - 23)
    let down := n / unit
    let rest := n % unit
    if 2 * rest < unit ∨ (2 * rest = unit ∧ down % 2 = 0) then down * unit else (down + 1) * unit

/-- Indices up to `2^24` are exact. -/
theorem toFloat32_exact {n : Nat} (h : n < 2 ^ 24) : toFloat32 n = n := if_pos h

/-- A rank's shard of the logits: `nReal` columns of the vocabulary from `vocabStart` on, then
padding. -/
structure Shard (α : Type) where
  nReal : Nat
  vocabStart : Nat
  logits : Nat → Nat → α

section Local

variable {α : Type} [LinearOrder α] [OrderBot α]

/-- A block's lanes: columns past the real ones load `-inf`. -/
def lane (x : Nat → α) (nReal first i : Nat) : α := if first + i < nReal then x (first + i) else ⊥

/-- One block: `tl.max` with its lowest index, taken when strictly greater. -/
def localStep (x : Nat → α) (nReal block : Nat) (best : α × Nat) (first : Nat) : α × Nat :=
  let (v, i) := scan (lane x nReal first) (block - 1)
  if best.1 < v then (v, first + i) else best

/-- The loop of `_local_argmax_kernel` over a row's blocks: the best value and its column. -/
def localArgmax (x : Nat → α) (nReal block blocks : Nat) : α × Nat :=
  (List.range blocks).foldl (fun best k => localStep x nReal block best (k * block)) (⊥, 0)

/-- `local_pairs`, for a row. -/
def localPair (s : Shard α) (row : Nat) : α × Nat :=
  let best := localArgmax (s.logits row) s.nReal 4096 ((s.nReal + 4096 - 1) / 4096)
  (best.1, toFloat32 (best.2 + s.vocabStart))

/-- `combine_pairs`, for a row: equal values go to the lowest rank. -/
def combinePairs (tp : Nat) (gathered : Nat → α × Nat) : Nat :=
    (gathered (argmax (fun r => (gathered r).1) tp)).2

/-- A row's argmax from the shards of `tp` ranks. -/
def targetArgmax (tp : Nat) (shards : Nat → Shard α) (row : Nat) : Nat := combinePairs tp fun r =>
    localPair (shards r) row

end Local

/-! ## The accept kernel -/

/-- The loop state of `_greedy_accept_kernel`. -/
structure Accept where
  verifying : Bool
  acceptedLength : Nat
  sampled : Nat → Int

/-- One draft token. -/
def acceptToken (argmaxes : Nat → Int) (draft : Nat → Int) (startIdx : Nat) (s : Accept)
    (i : Nat) : Accept :=
  let logitIdx := startIdx + i
  let draftSampled := draft (logitIdx + 1)
  let isValidDraft : Bool := 0 ≤ draftSampled
  let draftSampled := max 0 draftSampled
  if s.verifying then
    let target := argmaxes logitIdx
    let accepted : Bool := target == draftSampled && isValidDraft
    { verifying := accepted
      acceptedLength := s.acceptedLength + accepted.toNat
      sampled := Function.update s.sampled i (if accepted then draftSampled else target) }
  else s

/-- `_greedy_accept_kernel` for a request: its row of `sampled`, and `num_sampled`. -/
def greedyAccept (argmaxes : Nat → Int) (draft : Nat → Int) (cuNumLogits : Nat → Nat)
    (sampled : Nat → Int)
    (reqIdx : Nat) : (Nat → Int) × Nat :=
  let startIdx := cuNumLogits reqIdx
  let numDraftTokens := cuNumLogits (reqIdx + 1) - startIdx - 1
  let s := (List.range numDraftTokens).foldl (acceptToken argmaxes draft startIdx)
    ⟨true, 0, sampled⟩
  (Function.update s.sampled s.acceptedLength (argmaxes (startIdx + s.acceptedLength)),
    s.acceptedLength + 1)

/-! ## Greedy rejection -/

/-- Greedy rejection of drafts against the argmaxes of their rows: a draft that is the argmax is
accepted, the first other one is replaced by it, and the bonus row's argmax follows the last. -/
def greedyTokens (target : Nat → Int) : List Int → List Int
  | [] => [target 0]
  | d :: drafts =>
    if d = target 0 then d :: greedyTokens (fun i => target (i + 1)) drafts else [target 0]

/-- The draft tokens of a request. -/
def draftsOf (draft : Nat → Int) (cuNumLogits : Nat → Nat) (reqIdx : Nat) : List Int :=
  (List.range (cuNumLogits (reqIdx + 1) - cuNumLogits reqIdx - 1)).map fun i =>
    draft (cuNumLogits reqIdx + i + 1)

/-! ## The argmax of a shard

The loop keeps the first maximum of the columns so far: a block's own first maximum replaces it only
when it is strictly greater. Padding loads as minus infinity and stands behind the real columns.
-/

section Shards

variable {α : Type} [LinearOrder α] [OrderBot α] {x : Nat → α} {nReal block first : Nat}

/-- A block's first maximum is a real column. -/
theorem block_firstMax (hblock : 0 < block) (hfirst : first < nReal) :
    FirstMax x first (min (first + block) nReal)
      (first + (scan (lane x nReal first) (block - 1)).2) ∧
      (scan (lane x nReal first) (block - 1)).1 =
      x (first + (scan (lane x nReal first) (block - 1)).2) := by
  obtain ⟨hmax, hval⟩ := scan_firstMax (lane x nReal first) (block - 1)
  rw [Nat.sub_add_cancel hblock] at hmax
  generalize scan (lane x nReal first) (block - 1) = best at *
  have hreal : ∀ i, first + i < nReal → lane x nReal first i = x (first + i) :=
    fun i hi => if_pos hi
  have hin : first + best.2 < nReal := by
    by_contra hge
    have hzero : best.2 ≠ 0 := fun h0 => hge (by rw [h0]; exact hfirst)
    have hlt := hmax.first 0 le_rfl (Nat.pos_of_ne_zero hzero)
    rw [show lane x nReal first best.2 = ⊥ from if_neg hge] at hlt
    exact absurd hlt not_lt_bot
  have hib := hmax.in_range
  refine ⟨⟨Nat.le_add_right _ _, by omega, fun j hj hj' => ?_, fun j hj hj' => ?_⟩, by
    rw [hval, hreal _ hin]⟩
  · have h := hmax.greatest (j - first) (Nat.zero_le _) (by omega)
    rwa [hreal _ hin, hreal _ (by omega), Nat.add_sub_cancel' hj] at h
  · have h := hmax.first (j - first) (Nat.zero_le _) (by omega)
    rwa [hreal _ hin, hreal _ (by omega), Nat.add_sub_cancel' hj] at h

/-- **The loop over a shard's blocks finds the first maximum** of the columns it has read. -/
theorem localArgmax_firstMax (hblock : 0 < block) {k : Nat} (hk : k * block < nReal) :
    FirstMax x 0 (min ((k + 1) * block) nReal) (localArgmax x nReal block (k + 1)).2 ∧
      (localArgmax x nReal block (k + 1)).1 = x (localArgmax x nReal block (k + 1)).2 := by
  have hstep : ∀ k, localArgmax x nReal block (k + 1) =
      localStep x nReal block (localArgmax x nReal block k) (k * block) := by
    intro k
    unfold localArgmax
    rw [List.range_succ, List.foldl_append]
    rfl
  induction k with
  | zero =>
    -- the first block is compared with `-inf` at column 0
    obtain ⟨hmax, hval⟩ := @block_firstMax _ _ _ x nReal _ 0 hblock (by omega)
    have hfirst : localArgmax x nReal block (0 + 1) = localStep x nReal block (⊥, 0) 0 := by
      rw [hstep, Nat.zero_mul]
      rfl
    rw [hfirst, localStep, Nat.zero_add, Nat.one_mul]
    simp only [Nat.zero_add] at hmax hval ⊢
    generalize scan (lane x nReal 0) (block - 1) = best at *
    split_ifs with hlt
    · exact ⟨hmax, hval⟩
    · have hbot : best.1 = ⊥ := not_bot_lt_iff.mp hlt
      have hall : ∀ j < min block nReal, x j = ⊥ := fun j hj => by
        have := hmax.greatest j (Nat.zero_le j) hj
        rwa [← hval, hbot, le_bot_iff] at this
      have hpos : 0 < min block nReal := by omega
      refine ⟨⟨le_rfl, hpos, fun j _ hj => ?_, fun j _ hj => absurd hj (Nat.not_lt_zero j)⟩,
        (hall 0 hpos).symm⟩
      rw [hall j hj]
      exact bot_le
  | succ k ih =>
    have hprev : k * block < nReal := (Nat.mul_le_mul_right block (Nat.le_succ k)).trans_lt hk
    obtain ⟨hmax, hval⟩ := ih hprev
    obtain ⟨hbmax, hbval⟩ := block_firstMax (x := x) hblock hk
    rw [min_eq_left hk.le] at hmax
    rw [hstep, Nat.succ_mul (k + 1) block, localStep]
    generalize localArgmax x nReal block (k + 1) = best at *
    generalize scan (lane x nReal ((k + 1) * block)) (block - 1) = found at *
    have happ := hmax.append hbmax
    dsimp only
    rw [← hval, ← hbval] at happ
    split_ifs with hlt
    · rw [if_pos hlt] at happ
      exact ⟨happ, hbval⟩
    · rw [if_neg hlt] at happ
      exact ⟨happ, hval⟩

/-- A shard's columns. -/
theorem shard_firstMax (hreal : 0 < nReal) :
    FirstMax x 0 nReal (localArgmax x nReal 4096 ((nReal + 4096 - 1) / 4096)).2 ∧
      (localArgmax x nReal 4096 ((nReal + 4096 - 1) / 4096)).1 =
        x (localArgmax x nReal 4096 ((nReal + 4096 - 1) / 4096)).2 := by
  have hblocks : (nReal + 4096 - 1) / 4096 = (nReal - 1) / 4096 + 1 := by
    rw [show nReal + 4096 - 1 = nReal - 1 + 4096 by omega, Nat.add_div_right _ (by omega)]
  have hlast : (nReal - 1) / 4096 * 4096 < nReal := by
    have := Nat.div_mul_le_self (nReal - 1) 4096
    omega
  have hcover : nReal ≤ ((nReal - 1) / 4096 + 1) * 4096 := by
    have := Nat.lt_div_mul_add (a := nReal - 1) (b := 4096) (by omega)
    omega
  have hmax := @localArgmax_firstMax _ _ _ x _ 4096 (by omega) _ hlast
  rw [min_eq_right hcover] at hmax
  rw [hblocks]
  exact hmax

/-- A split of the vocabulary into contiguous shards, one for each rank, none of them empty. -/
structure Sharding (logits : Nat → Nat → α) (vocab tp : Nat) where
  shard : Nat → Shard α
  tp_pos : 0 < tp
  real_pos : ∀ r < tp, 0 < (shard r).nReal
  starts : ∀ r, (shard r).vocabStart = start (fun r => (shard r).nReal) r
  covers : start (fun r => (shard r).nReal) tp = vocab
  agrees : ∀ r < tp, ∀ row, ∀ c < (shard r).nReal,
    (shard r).logits row c = logits row ((shard r).vocabStart + c)

variable {logits : Nat → Nat → α} {vocab tp : Nat}

/-- **The gathered pairs give the argmax of the whole row.** -/
theorem combine_exact (S : Sharding logits vocab tp) (hvocab : vocab ≤ 2 ^ 24) (row : Nat) :
    targetArgmax tp S.shard row = argmax (logits row) vocab := by
  let best : Nat → Nat := fun r =>
    (S.shard r).vocabStart +
      (localArgmax ((S.shard r).logits row) (S.shard r).nReal 4096
      (((S.shard r).nReal + 4096 - 1) / 4096)).2
  have hlocal : ∀ r < tp, FirstMax (logits row) (start (fun r => (S.shard r).nReal) r)
      (start (fun r => (S.shard r).nReal) (r + 1)) (best r) ∧
        (localPair (S.shard r) row).1 = logits row (best r) := by
    intro r hr
    obtain ⟨hmax, hval⟩ := shard_firstMax (x := (S.shard r).logits row) (S.real_pos r hr)
    have hin := hmax.in_range
    refine ⟨?_, hval.trans (S.agrees r hr row _ hin)⟩
    rw [start_succ, ← S.starts r]
    exact (hmax.congr fun c _ hc => S.agrees r hr row c hc).shift (S.shard r).vocabStart
  -- the first greatest of the shards' maxima
  obtain ⟨r, hr⟩ := exists_firstMax (fun r => (localPair (S.shard r) row).1) S.tp_pos
  have hwhole : FirstMax (logits row) 0 vocab (best r) :=
    S.covers ▸ FirstMax.segments (fun k hk => (hlocal k hk).1) (hr.congr fun k _ hk =>
      (hlocal k hk).2)
  rw [argmax_eq hwhole]
  unfold targetArgmax combinePairs
  rw [argmax_eq hr]
  have hexact : toFloat32 (best r) = best r := toFloat32_exact (hwhole.in_range.trans_le hvocab)
  have hindex : (localPair (S.shard r) row).2 = toFloat32 (best r) :=
    congrArg toFloat32 (Nat.add_comm _ _)
  exact hindex.trans hexact

end Shards

/-! ## The accept kernel is greedy rejection

The kernel stores while it goes, the specification looks for the first draft that is not the argmax.
The loop's state says which of the two cases it is in.
-/

section Accept

variable {argmaxes draft : Nat → Int} {startIdx : Nat} {sampled : Nat → Int}

/-- Greedy rejection of drafts of which the first `a` are the argmaxes and the next one, if any, is
not. -/
theorem greedyTokens_eq {target d : Nat → Int} {n a : Nat} (ha : a ≤ n)
    (hacc : ∀ j < a, d j = target j)
    (hrej : a = n ∨ d a ≠ target a) :
    greedyTokens target ((List.range n).map d) = (List.range (a + 1)).map target := by
  induction n generalizing target d a with
  | zero =>
    rw [Nat.le_zero.mp ha]
    rfl
  | succ n ih =>
    rw [List.range_succ_eq_map, List.map_cons, List.map_map, greedyTokens]
    cases a with
    | zero =>
      rw [if_neg (hrej.resolve_left (by omega))]
      rfl
    | succ a =>
      have hrest := @ih (fun i => target (i + 1)) (fun i => d (i + 1)) a (by omega)
        (fun j hj => hacc (j + 1) (by omega)) (hrej.imp (by omega) id)
      rw [if_pos (hacc 0 (by omega)), hacc 0 (by omega), List.range_succ_eq_map (n := a + 1),
        List.map_cons, List.map_map]
      exact congrArg (target 0 :: ·) hrest

/-- What the accept kernel has done after `i` drafts: all accepted and still verifying, or stopped
at the first that is not the argmax. -/
structure Accepted (argmaxes draft : Nat → Int) (startIdx i : Nat) (s : Accept) : Prop where
  le : s.acceptedLength ≤ i
  accepted : ∀ j < s.acceptedLength, draft (startIdx + j + 1) = argmaxes (startIdx + j)
  stored : ∀ j < s.acceptedLength, s.sampled j = argmaxes (startIdx + j)
  verifying : s.verifying = true → s.acceptedLength = i
  rejected : s.verifying = false →
    s.acceptedLength < i ∧ draft (startIdx + s.acceptedLength + 1) ≠ argmaxes
    (startIdx + s.acceptedLength)

/-- **One draft keeps it.** -/
theorem accepted_step {i : Nat} {s : Accept} (hs : Accepted argmaxes draft startIdx i s)
    (htarget : 0 ≤ argmaxes (startIdx + i)) :
    Accepted argmaxes draft startIdx (i + 1) (acceptToken argmaxes draft startIdx s i) := by
  cases hv : s.verifying with
  | false =>
    have hsame : acceptToken argmaxes draft startIdx s i = s := by
      unfold acceptToken
      rw [hv]
      rfl
    rw [hsame]
    exact
      { le := hs.le.trans (Nat.le_succ i)
        accepted := hs.accepted
        stored := hs.stored
        verifying := fun h => absurd (hv.symm.trans h) Bool.false_ne_true
        rejected := fun h => ⟨(hs.rejected h).1.trans (Nat.lt_succ_self i), (hs.rejected h).2⟩ }
  | true =>
    have hlen := hs.verifying hv
    have hother : ∀ (v : Int), ∀ j < i, Function.update s.sampled i v j = argmaxes (startIdx + j) :=
      fun v j hj => by
      rw [Function.update_of_ne hj.ne]
      exact hs.stored j (hlen ▸ hj)
    unfold acceptToken
    rw [hv, if_pos rfl]
    by_cases heq : draft (startIdx + i + 1) = argmaxes (startIdx + i)
    · -- the draft is the argmax, so it is no placeholder
      have hacc : (argmaxes (startIdx + i) == max 0 (draft (startIdx + i + 1)) &&
          decide (0 ≤ draft (startIdx + i + 1))) = true := by
        rw [heq, max_eq_right htarget, beq_self_eq_true, decide_eq_true htarget]
        rfl
      simp only [hacc, if_true, Bool.toNat_true, hlen]
      refine ⟨le_rfl, fun j hj => ?_, fun j hj => ?_, fun _ => rfl, fun h => by cases h⟩
      · rcases Nat.lt_succ_iff_lt_or_eq.mp hj with hj | rfl
        · exact hs.accepted j (hlen ▸ hj)
        · exact heq
      · rcases Nat.lt_succ_iff_lt_or_eq.mp hj with hj | rfl
        · exact hother _ j hj
        · dsimp only
          rw [Function.update_self, heq, max_eq_right htarget]
    · have hrej : (argmaxes (startIdx + i) == max 0 (draft (startIdx + i + 1)) &&
          decide (0 ≤ draft (startIdx + i + 1))) = false := by
        rw [Bool.and_eq_false_iff]
        by_cases hvalid : 0 ≤ draft (startIdx + i + 1)
        · left
          rw [max_eq_right hvalid]
          exact beq_eq_false_iff_ne.mpr (Ne.symm heq)
        · exact Or.inr (decide_eq_false hvalid)
      simp only [hrej, Bool.toNat_false, Nat.add_zero, hlen]
      exact
        { le := Nat.le_succ i
          accepted := fun j hj => hs.accepted j (hlen ▸ hj)
          stored := fun j hj => hother _ j hj
          verifying := fun h => absurd h Bool.false_ne_true
          rejected := fun _ => ⟨Nat.lt_succ_self i, heq⟩ }

/-- **So do all drafts of a request.** -/
theorem accepted_run (htarget : ∀ i, 0 ≤ argmaxes i) (n : Nat) :
    Accepted argmaxes draft startIdx n
      ((List.range n).foldl (acceptToken argmaxes draft startIdx) ⟨true, 0, sampled⟩) := by
  induction n with
  | zero => exact ⟨le_rfl, nofun, nofun, fun _ => rfl, nofun⟩
  | succ n ih =>
    rw [List.range_succ, List.foldl_append]
    exact accepted_step ih (htarget _)

/-- **The accept kernel is greedy rejection**: it stores its tokens and their number. -/
theorem greedyAccept_exact {cuNumLogits : Nat → Nat} {reqIdx : Nat}
    (htarget : ∀ i, 0 ≤ argmaxes i) :
    let out := greedyAccept argmaxes draft cuNumLogits sampled reqIdx
    (List.range out.2).map out.1 =
      greedyTokens (fun i => argmaxes (cuNumLogits reqIdx + i))
        (draftsOf draft cuNumLogits reqIdx) := by
  have hrun := @accepted_run _ draft (cuNumLogits reqIdx) sampled htarget
    (cuNumLogits (reqIdx + 1) - cuNumLogits reqIdx - 1)
  unfold greedyAccept draftsOf
  dsimp only
  generalize (List.range (cuNumLogits (reqIdx + 1) - cuNumLogits reqIdx - 1)).foldl
    (acceptToken argmaxes draft (cuNumLogits reqIdx)) ⟨true, 0, sampled⟩ = s at *
  rw [greedyTokens_eq (a := s.acceptedLength) hrun.le hrun.accepted]
  · refine List.map_congr_left fun j hj => ?_
    rcases Nat.lt_succ_iff_lt_or_eq.mp (List.mem_range.mp hj) with hj | rfl
    · rw [Function.update_of_ne hj.ne]
      exact hrun.stored j hj
    · exact Function.update_self _ _ _
  · cases hv : s.verifying with
    | true => exact Or.inl (hrun.verifying hv)
    | false => exact Or.inr (hrun.rejected hv).2

end Accept

/-- **Sharded greedy verification is greedy rejection on the whole logits**: the tokens that the
accept kernel stores for a request, and so their number. -/
theorem greedy_verify_exact {α : Type} [LinearOrder α] [OrderBot α] {logits : Nat → Nat → α}
    {vocab tp : Nat} (S : Sharding logits vocab tp) (hvocab : vocab ≤ 2 ^ 24) (draft : Nat → Int)
    (cuNumLogits : Nat → Nat) (sampled : Nat → Int) (reqIdx : Nat) :
    let out := greedyAccept (fun row => targetArgmax tp S.shard row) draft cuNumLogits
      sampled reqIdx
    let tokens := greedyTokens (fun i => argmax (logits (cuNumLogits reqIdx + i)) vocab)
      (draftsOf draft cuNumLogits reqIdx)
    (List.range out.2).map out.1 = tokens ∧ out.2 = tokens.length := by
  have hexact := @greedyAccept_exact (fun row => targetArgmax tp S.shard row) draft sampled
    cuNumLogits reqIdx
    fun _ => Int.natCast_nonneg _
  simp only [combine_exact S hvocab] at hexact ⊢
  refine ⟨hexact, ?_⟩
  have hlen := congrArg List.length hexact
  rwa [List.length_map, List.length_range] at hlen

/-- Two shards of two columns; the first row is all minus infinity. -/
def twoShards : Sharding (fun row c => if row = 0 then
    ⊥ else ((c / 2 : Nat) : WithBot Nat)) 4 2 where
  shard r := ⟨2, start (fun _ => 2) r, fun row c => if row = 0 then
    ⊥ else (((start (fun _ => 2) r + c) / 2 : Nat) : WithBot Nat)⟩
  tp_pos := by decide
  real_pos := fun _ _ => Nat.two_pos
  starts := fun _ => rfl
  covers := rfl
  agrees := fun _ _ _ _ _ => rfl

/-- A draft that is the argmax of a row without finite logits, then the bonus row with a tie. -/
theorem two_shards_exact :
    let out := greedyAccept (fun row => targetArgmax 2 twoShards.shard row) (fun _ => 0)
      (fun r => 2 * r) (fun _ => 7) 0
    let tokens := greedyTokens
      (fun i => argmax (fun c => if 2 * 0 + i = 0 then ⊥ else ((c / 2 : Nat) : WithBot Nat)) 4)
        (draftsOf (fun _ => 0) (fun r => 2 * r) 0)
    (List.range out.2).map out.1 = tokens ∧ out.2 = tokens.length :=
  greedy_verify_exact twoShards (by decide) _ _ _ 0

end Ringside.GreedyVerify

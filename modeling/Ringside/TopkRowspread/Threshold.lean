import Ringside.RadixSelect
import Ringside.TopkRowspread.Safety

/-!
# The threshold of a radix row

Four rounds of eight bits find the `topK`-th greatest key of a row. What a block takes from a
histogram is one round of the selection by digits (the library's `RadixSelect`), so with the
invariant of the histograms every block has the right prefix at every moment.

* The host's chunks cover the row, and `topK` is at least one and no more than the threshold of the
  radix rows.
* Keys are the 32 bits that `convert_to_uint32_v2` makes of a score; that it keeps the order of the
  floats is not needed here.
* `IsKth` is stated by counting the keys of the row. The rounds and their prefixes do not occur in
  it.
* The sums over a histogram are the kernel's strided ones (`suffixSum`), not a sum over the bins.

Results:
* `suffixSum_eq`: the strided sums are those from a bin on.
* `pick_spec`: the bin of the cut, where there is one.
* `total_eq`: the chunks' histograms add up to the row's.
* `sel_cut`, `isKth_sel`: the cut before every round, and what the rounds find.
* `threshold_exact`: the prefixes and the pivot, in every state of a quiet launch.
-/

namespace Ringside.TopkRowspread

open RadixSelect (Cut)

/-! ## Sums of a histogram -/

section Sums

/-- One stride: sums of `m` bins become sums of `2 m`. -/
theorem stride_step {hist sum : Nat → Nat} {m : Nat}
    (h : ∀ tx < RADIX, sum tx = ∑ d ∈ Finset.Ico tx (min (tx + m) RADIX), hist d) :
    ∀ tx < RADIX, (sum tx + if tx + m < RADIX then sum (tx + m) else 0) =
      ∑ d ∈ Finset.Ico tx (min (tx + 2 * m) RADIX), hist d := by
  intro tx htx
  rw [h tx htx]
  split_ifs with hlt
  · rw [h _ hlt, Nat.min_eq_left hlt.le, show tx + 2 * m = tx + m + m by omega]
    exact Finset.sum_Ico_consecutive hist (Nat.le_add_right _ _)
      (le_min (Nat.le_add_right _ _) hlt.le)
  · rw [Nat.add_zero, Nat.min_eq_right (not_lt.mp hlt), Nat.min_eq_right (by omega)]

/-- **The suffix sums.** -/
theorem suffixSum_eq (hist : Nat → Nat) {tx : Nat} (htx : tx < RADIX) :
    suffixSum hist tx = ∑ d ∈ Finset.Ico tx RADIX, hist d := by
  have h1 : ∀ tx < RADIX, hist tx = ∑ d ∈ Finset.Ico tx (min (tx + 1) RADIX), hist d :=
    fun tx htx => by
    rw [Nat.min_eq_left htx, Nat.Ico_succ_singleton, Finset.sum_singleton]
  have h := stride_step (stride_step (stride_step
    (stride_step (stride_step (stride_step (stride_step (stride_step h1)))))))
  have hmin : min (tx + 2 * (2 * (2 * (2 * (2 * (2 * (2 * (2 * 1)))))))) RADIX = RADIX := by
    unfold RADIX
    omega
  rw [← hmin]
  exact h tx htx

/-- **The bin of the cut**, where there is one. -/
theorem pick_spec (sum : Nat → Nat) (remainingK : Nat)
    (h : ∃ b < RADIX, remainingK ≤ sum b ∧ (if b + 1 < RADIX then sum (b + 1)
      else 0) < remainingK) :
    ∃ b < RADIX, remainingK ≤ sum b ∧ (if b + 1 < RADIX then sum (b + 1) else 0) < remainingK ∧
      pick sum remainingK = (b, remainingK - if b + 1 < RADIX then sum (b + 1) else 0) := by
  obtain ⟨b, hb, hcut⟩ := h
  have hsome : ((List.range RADIX).find? fun tx => decide (remainingK ≤ sum tx ∧
      (if tx + 1 < RADIX then sum (tx + 1) else 0) < remainingK)).isSome :=
    List.find?_isSome.mpr ⟨b, List.mem_range.mpr hb, decide_eq_true hcut⟩
  obtain ⟨tx, htx⟩ := Option.isSome_iff_exists.mp hsome
  have hfound := List.find?_some htx
  have hspec := of_decide_eq_true hfound
  refine ⟨tx, List.mem_range.mp (List.mem_of_find?_eq_some htx), hspec.1, hspec.2, ?_⟩
  unfold pick
  dsimp only
  rw [htx]

end Sums

/-! ## Chunks -/

section Chunks

variable {p : Params}

theorem countP_range' (q : Nat → Prop) [DecidablePred q] (s n : Nat) :
    (List.range' s n).countP (q ·) = Nat.count (fun i => q (s + i)) n := by
  induction n with
  | zero => rfl
  | succ n ih =>
    rw [List.range'_1_concat, List.countP_append, ih, Nat.count_succ, List.countP_singleton]
    simp only [decide_eq_true_eq]

/-- The chunks of the first blocks are the first positions of the row. -/
theorem sum_chunk (q : Nat → Prop) [DecidablePred q] (r n : Nat) :
    ∑ cta ∈ Finset.range n, (p.chunk cta r).countP (q ·) =
      Nat.count q (min (n * p.chunkSize) (p.seqLen r)) := by
  induction n with
  | zero => simp
  | succ n ih =>
    have hsplit : min ((n + 1) * p.chunkSize) (p.seqLen r) = min (n * p.chunkSize) (p.seqLen r) +
        (min (n * p.chunkSize + p.chunkSize) (p.seqLen r) - n * p.chunkSize) := by
      rw [Nat.succ_mul]
      omega
    rw [Finset.sum_range_succ, ih, hsplit, Nat.count_add]
    unfold Params.chunk
    rw [countP_range']
    rcases Nat.le_total (n * p.chunkSize) (p.seqLen r) with hle | hle
    · rw [Nat.min_eq_left hle]
    · rw [Nat.sub_eq_zero_of_le ((Nat.min_le_right _ _).trans hle), Nat.count_zero, Nat.count_zero]

/-- **The histogram of the row.** -/
theorem total_eq (hcover : p.stride ≤ p.ctasPerGroup * p.chunkSize) {round : Nat}
    (hround : round < 4) (r pfx bin : Nat) :
    total p r round pfx bin = RadixSelect.hist (p.key r) (p.seqLen r) (shift round) 8 pfx bin := by
  have hlen : p.seqLen r ≤ p.ctasPerGroup * p.chunkSize :=
    ((Nat.min_le_right _ _).trans (Nat.min_le_left _ _)).trans hcover
  have hbits : 32 - round * 8 = shift round + 8 := by
    unfold shift
    omega
  unfold total Params.localHist
  rw [sum_chunk, Nat.min_eq_right hlen, hbits]
  rfl

end Chunks

/-! ## Rounds -/

section Rounds

variable {p : Params} {r : Nat}

/-- A value with fewer than `topK` keys above it and `topK` from it on: the `topK`-th greatest key.
-/
def IsKth (p : Params) (r v : Nat) : Prop :=
  Nat.count (fun i => v < p.key r i) (p.seqLen r) < p.topK ∧
    p.topK ≤ Nat.count (fun i => v ≤ p.key r i) (p.seqLen r)

theorem key_lt (hbits : ∀ r i, p.input r i < 2 ^ 32) (r i : Nat) : p.key r i < 2 ^ 32 := by
  have h := hbits r i
  unfold Params.key convertToUint32V2
  split_ifs <;> omega

/-- A round of the selection. -/
theorem select_cut (hcover : p.stride ≤ p.ctasPerGroup * p.chunkSize) {round pfx rem : Nat}
    (hround : round < 4)
    (h : Cut (p.key r) (p.seqLen r) p.topK (32 - round * 8) pfx rem) (hpos : 0 < rem) :
    Cut (p.key r) (p.seqLen r) p.topK (32 - (round + 1) * 8)
      (select (total p r round pfx) round (pfx, rem)).1
        (select (total p r round pfx) round (pfx, rem)).2 ∧
        0 < (select (total p r round pfx) round (pfx, rem)).2 := by
  have hbits : 32 - round * 8 = shift round + 8 := by
    unfold shift
    omega
  have hshift : 32 - (round + 1) * 8 = shift round := by
    unfold shift
    omega
  rw [hbits] at h
  have hsum : ∀ b < RADIX, suffixSum (total p r round pfx) b =
      RadixSelect.suffix (p.key r) (p.seqLen r) (shift round) 8 pfx b := fun b hb => by
    rw [suffixSum_eq _ hb, RadixSelect.suffix_eq _ _ _ _ _ hb.le]
    exact Finset.sum_congr rfl fun d _ => total_eq hcover hround r pfx d
  have hgt : ∀ b < RADIX, (if b + 1 < RADIX then suffixSum (total p r round pfx) (b + 1) else 0) =
      RadixSelect.suffix (p.key r) (p.seqLen r) (shift round) 8 pfx (b + 1) := fun b hb => by
    split_ifs with hlt
    · exact hsum _ hlt
    · exact (RadixSelect.suffix_end _ _ _ _ _ (not_lt.mp hlt)).symm
  obtain ⟨b, hb, hge, hlt⟩ := RadixSelect.exists_digit h hpos
  obtain ⟨b, hb, hge, hlt, hpick⟩ := pick_spec (suffixSum (total p r round pfx)) rem
    ⟨b, hb, by rwa [hsum b hb], by rwa [hgt b hb]⟩
  rw [hsum b hb] at hge
  rw [hgt b hb] at hlt hpick
  unfold select
  dsimp only
  rw [hpick, hshift]
  exact ⟨h.refine hb hge hlt.le, Nat.sub_pos_of_lt hlt⟩

/-- **The cut before every round**, and after the last. -/
theorem sel_cut (hbits : ∀ r i, p.input r i < 2 ^ 32)
    (hcover : p.stride ≤ p.ctasPerGroup * p.chunkSize)
    (hpos : 0 < p.topK) (hlen : p.topK ≤ p.seqLen r) : ∀ round ≤ 4,
    Cut (p.key r) (p.seqLen r) p.topK (32 - round * 8) (sel p r round).1 (sel p r round).2 ∧
    0 < (sel p r round).2
  | 0, _ => ⟨Cut.start (fun i _ => key_lt hbits r i) hlen, hpos⟩
  | round + 1, h => by
    obtain ⟨hcut, hrem⟩ := sel_cut hbits hcover hpos hlen round (Nat.le_of_succ_le h)
    exact select_cut hcover h hcut hrem

/-- There is one such value at most. -/
theorem IsKth.unique {v w : Nat} (hv : IsKth p r v) (hw : IsKth p r w) : v = w := by
  have hle : ∀ {v w : Nat}, v < w → Nat.count (fun i => w ≤ p.key r i) (p.seqLen r) ≤
      Nat.count (fun i => v < p.key r i) (p.seqLen r) :=
      fun h => Nat.count_mono_left fun i _ hi => h.trans_le hi
  rcases Nat.lt_trichotomy v w with h | h | h
  · exact absurd (hw.2.trans (hle h)) hv.1.not_ge
  · exact h
  · exact absurd (hv.2.trans (hle h)) hw.1.not_ge

/-- The class of a cut holds the `topK`-th greatest key. -/
theorem IsKth.high_eq {v s P rem : Nat} (hv : IsKth p r v)
    (h : Cut (p.key r) (p.seqLen r) p.topK s P rem) (hpos : 0 < rem) :
    high s v = P := by
  have hmono : ∀ {q w : Nat → Prop} [DecidablePred q] [DecidablePred w], (∀ i, q i → w i) →
      Nat.count q (p.seqLen r) ≤ Nat.count w (p.seqLen r) :=
      fun h => Nat.count_mono_left (fun i _ => h i)
  have habove := h.above
  have hwidth := Nat.two_pow_pos s
  refine (RadixSelect.high_eq_iff h.dvd v).mpr ⟨?_, ?_⟩
  · by_contra hlt
    -- then the class and what lies above it are all greater
    have hsplit := RadixSelect.count_split (n := p.seqLen r) (p := fun i => P + 2 ^ s ≤ p.key r i)
      (q := fun i => RadixSelect.high s (p.key r i) = P) fun i hi hc => by
        have := ((RadixSelect.high_eq_iff h.dvd _).mp hc).2
        omega
    have hle := hmono (q := fun i => P + 2 ^ s ≤ p.key r i ∨ RadixSelect.high s (p.key r i) = P)
      (w := fun i => v < p.key r i) fun i hi => by
        rcases hi with hi | hi
        · omega
        · have := ((RadixSelect.high_eq_iff h.dvd _).mp hi).1
          omega
    have := h.le
    have := hv.1
    omega
  · by_contra hge
    have hle := hmono (q := fun i => v ≤ p.key r i) (w := fun i => P + 2 ^ s ≤ p.key r i) fun i
      hi => by omega
    have := hv.2
    omega

/-- **What the rounds find.** -/
theorem isKth_sel (hbits : ∀ r i, p.input r i < 2 ^ 32)
    (hcover : p.stride ≤ p.ctasPerGroup * p.chunkSize)
    (hpos : 0 < p.topK) (hlen : p.topK ≤ p.seqLen r) : IsKth p r (sel p r 4).1 := by
  obtain ⟨hcut, hrem⟩ := sel_cut hbits hcover hpos hlen 4 le_rfl
  obtain ⟨habove, hle⟩ := hcut.above_zero
  have hsplit := RadixSelect.count_split (n := p.seqLen r) (p := fun i => (sel p r 4).1 < p.key r i)
    (q := fun i => p.key r i = (sel p r 4).1) fun i hi heq => hi.ne' heq
  have hiff := RadixSelect.count_congr (n := p.seqLen r) (p := fun i => (sel p r 4).1 ≤ p.key r i)
    (q := fun i => (sel p r 4).1 < p.key r i ∨ p.key r i = (sel p r 4).1) fun i _ => by omega
  refine ⟨by omega, ?_⟩
  rw [hiff, hsplit]
  omega

end Rounds

/-! ## Every block, at every moment -/

/-- The round a block is in, with its prefix and `remaining_k`. -/
def Pc.round? : Pc → Option (Nat × Nat × Nat)
  | .round _ n pfx rem _ _ _ | .scan _ n pfx rem _ _ => some (n, pfx, rem)
  | _ => none

/-- The pivot a block has. -/
def Pc.pivot? : Pc → Option Nat
  | .claim _ pivot | .gt _ pivot _ _ _ _ | .ties _ pivot _ => some pivot
  | _ => none

section Grid

variable {p : Params} {short : Nat → (Nat → Int) → Prop} {S : p.Schedule} {out₀ : Nat → Nat → Int}
  {quiet : Prop} {t : State}

theorem Knows.round {cta r n pfx rem : Nat} {pc : Pc} (h : Knows p cta pc) (hbounded : pc.Bounded)
    (hrow : pc.row? = some r) (hround : pc.round? = some (n, pfx, rem)) :
    n < 4 ∧ (pfx, rem) = sel p r n := by
  cases pc with
  | round | scan =>
    cases hrow
    cases hround
    exact ⟨hbounded, h.1⟩
  | _ => cases hround

theorem Knows.pivot {cta r pivot : Nat} {pc : Pc} (h : Knows p cta pc) (hrow : pc.row? = some r)
    (hpivot : pc.pivot? = some pivot) : pivot = (sel p r 4).1 := by
  cases pc with
  | claim | gt | ties =>
    cases hrow
    cases hpivot
    exact h
  | _ => cases hpivot

/-- **The threshold is exact.** In every quiet run, a block on a radix row has in every round the
digits of the `topK`-th greatest key that are settled, and `remaining_k` is what is left of `topK`
below the keys with greater ones; the pivot it collects with is that key. -/
theorem threshold_exact (hbits : ∀ r i, p.input r i < 2 ^ 32)
    (hcover : p.stride ≤ p.ctasPerGroup * p.chunkSize) (hpos : 0 < p.topK)
    (hk : p.topK ≤ radixThreshold) (ht : Reachable p short quiet S out₀ t) (hq : quiet) {c : Nat}
    (hc : c < p.totalCtas) {r : Nat} (hrow : (t.cta c).pc.row? = some r) :
    ∃! v, IsKth p r v ∧
      (∀ n pfx rem, (t.cta c).pc.round? = some (n, pfx, rem) → pfx = high (32 - n * 8) v ∧
        0 < rem ∧
        Nat.count (fun i => pfx + 2 ^ (32 - n * 8) ≤ p.key r i) (p.seqLen r) + rem = p.topK) ∧
      ∀ pivot, (t.cta c).pc.pivot? = some pivot → pivot = v := by
  have hg := Params.group_lt hc
  have hi := Nat.mod_lt c p.ctas_pos
  have hplaced := (quiet_inv ht hq _ hg).placed _ hi
  have hknows := (quiet_inv ht hq _ hg).knows _ hi
  rw [blocks_self] at hplaced hknows
  have hmem : r ∈ p.radixRows (c / p.ctasPerGroup) := by
    have hrows := hplaced.rows
    unfold OnRows at hrows
    rw [hrow] at hrows
    exact List.mem_of_getElem? hrows.1
  have hlen : p.topK ≤ p.seqLen r :=
    hk.trans (not_le.mp ((Params.mem_radixRows hg).mp hmem).2.1).le
  have hkth := isKth_sel hbits hcover hpos hlen
  refine ⟨(sel p r 4).1, ⟨hkth, fun n pfx rem hround => ?_,
    fun pivot hpivot => hknows.pivot hrow hpivot⟩, fun v hv => hv.1.unique hkth⟩
  obtain ⟨hn, hsel⟩ := hknows.round hplaced.bounded hrow hround
  obtain ⟨hcut, hrem⟩ := sel_cut hbits hcover hpos hlen n hn.le
  rw [← hsel] at hcut hrem
  exact ⟨(hkth.high_eq hcut hrem).symm, hrem, hcut.above⟩

end Grid

end Ringside.TopkRowspread

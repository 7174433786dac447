import Ringside.Checks
import Ringside.MoeDecode.RouteTable

/-!
# Tasks, token map and quantization of the decode fast path (`patch_b12x_moe_decode.py`)

With its route table every CTA quantizes a share of the routed rows (phase 7), and CTA 0 publishes
the tasks and the token map (phase 6). This file assembles the phases into what a launch leaves.

* `_publish_deferred_tasks` is called with an expert, a tile and its valid rows; here the calls are
  listed, those of a thread in order, thread after thread. Threads interleave them, which changes
  none of the statements.
* The row stride of the packed activations and the K tiles of the scale layout come from the
  kernel's operands (`Grid`): a row has room for its packed blocks of 8 bytes, and the scale layout
  for the blocks of a row, four a tile.
* Every CTA has a table of its own; a launch has one outcome of the phases for each (`Routing`).
* A route whose id is no expert's takes no row and no block.

Results:
* `filter_tasks`: the tasks of an expert are one for each of its tiles, with the rows of the tile.
* `rowOf_inj`, `rowOf_nth`: the rows of the routes.
* `owner_spec`: what the owner of a row stores there; the other rows stay.
* `mem_blocks`, `nodup_blocks`: every block of every active route, once.
* `decode_routing`: all of it, for every launch that the host admits.
* `selected_routing`: among them those that `_glm53_decode_fastpath_selected` selects.

Out of scope: the values of a quantized block, and the expert kernels behind the tasks.
-/

namespace Ringside.MoeDecode

open Ringside.Races Ringside.Checks Ringside.Scatter

/-- A published task. -/
structure Task where
  expert : Nat
  tile : Int
  validRows : Int
deriving DecidableEq

/-- A quantized block: the route, its scale block, and where its bytes go. -/
structure Block where
  pair : Nat
  sf : Nat
deriving DecidableEq

/-- The launch grid and the operands' strides. -/
structure Grid (c : Config) where
  gdimZ : Nat
  ctaWarps : Nat
  numTopk : Nat
  numGroups : Nat
  outputBytesPerRow : Nat
  numKTiles : Nat
  gdimZ_pos : 0 < gdimZ
  ctaWarps_pos : 0 < ctaWarps
  rowBytes : 8 * c.sfBlocks ≤ outputBytesPerRow
  kTiles : c.sfBlocks ≤ 4 * numKTiles

section Defs

variable {W : Type} (c : Config) (grid : Grid c) (tileM totalPairs : Nat)
    (topkIds : Nat → Int) (m : Mem)

/-- Phase 6: the token map. -/
def tokenMap : Launch Int Nat := (List.range c.threads).map fun t =>
  (strided t totalPairs c.threads).flatMap fun p =>
    if 0 ≤ m (.pair p) then [(m (.pair p), p / grid.numTopk)] else []

/-- Phase 6: the token weights. -/
def tokenWeights (topkWeights : Nat → W) : Launch Int W := (List.range c.threads).map fun t =>
  (strided t totalPairs c.threads).flatMap fun p => if 0 ≤ m (.pair p) then
    [(m (.pair p), topkWeights p)] else []

/-- The tasks of an expert; there are no more turns than rows. -/
def expertTasks (e : Nat) : Nat → Int → Int → List Task
  | 0, _, _ => []
  | fuel + 1, rows, tile =>
    if 0 < rows then
      ⟨e, tile, if rows > tileM then tileM else rows⟩ :: expertTasks e fuel
        (rows - tileM) (tile + 1)
    else []

/-- Phase 6: the published tasks. -/
def tasks : List Task := (List.range c.threads).flatMap fun t =>
  (strided t c.numExperts c.threads).flatMap fun e =>
    let word := m (.hist e)
    expertTasks tileM e (wordRows word).toNat (wordRows word) (wordBase word)

/-- Phase 6: the task tail. -/
def taskTail : Int := m (.scan c.threads) * grid.numGroups

/-- Phase 7: the blocks of a lane of a warp of a CTA. -/
def laneBlocks (cta warp lane : Nat) : List Block :=
  let blocksPerSplit := c.sfBlocks / c.kSplits
  (strided (cta * grid.ctaWarps + warp) (totalPairs * c.kSplits)
    (grid.gdimZ * grid.ctaWarps)).flatMap fun u =>
    let p := u / c.kSplits
    let split := u - p * c.kSplits
    if 0 ≤ m (.pair p) then
      (strided (split * blocksPerSplit + lane) ((split + 1) * blocksPerSplit) 32).map
        fun sf => ⟨p, sf⟩
    else []

/-- Where the packed bytes of a block go. -/
def packedOffset (row : Int) (sf : Nat) : Int := row * grid.outputBytesPerRow + sf * 8

/-- Where the scale of a block goes. -/
def scaleOffset (row sf : Nat) : Nat :=
  let sfAtom := row >>> 7
  let sfRow := row &&& 127
  sfAtom * grid.numKTiles * (32 * 4 * 4) + sf / 4 * (32 * 4 * 4) + sfRow % 32 * (4 * 4) +
    sfRow / 32 * 4 + sf % 4

end Defs

/-- All blocks of the grid, each CTA with its own table. -/
def blocks (c : Config) (grid : Grid c) (totalPairs : Nat) (tables : Nat → Mem) : List Block :=
  (List.range grid.gdimZ).flatMap fun cta => (List.range grid.ctaWarps).flatMap fun warp =>
    (List.range 32).flatMap fun lane => laneBlocks c grid totalPairs (tables cta) cta warp lane

/-! ## Tasks

A task is one tile of an expert's rows. The phase goes through the experts in order, so the tasks of
an expert are a segment of the list.
-/

section Tasks

variable {c : Config} {tileM totalPairs : Nat} {topkIds : Nat → Int} {m : Mem}

theorem expertTasks_nonpos {e fuel : Nat} {rows tile : Int} (h : rows ≤ 0) :
    expertTasks tileM e fuel rows tile = [] := by
  cases fuel with
  | zero => rfl
  | succ fuel => rw [expertTasks, if_neg (by omega)]

/-- **The loop over the tiles of an expert.** -/
theorem expertTasks_eq (hm : 0 < tileM) (e : Nat) : ∀ (fuel rows base : Nat), rows ≤ fuel →
    expertTasks tileM e fuel rows base = (List.range ((rows + tileM - 1) / tileM)).map fun j =>
      ⟨e, (base + j : Nat), (min tileM (rows - j * tileM) : Nat)⟩
  | 0, rows, base, h => by
    obtain rfl : rows = 0 := by omega
    rw [Nat.zero_add, Nat.div_eq_of_lt (by omega)]
    rfl
  | fuel + 1, rows, base, h => by
    rw [expertTasks]
    rcases Nat.eq_zero_or_pos rows with rfl | hpos
    · rw [if_neg (by simp), Nat.zero_add, Nat.div_eq_of_lt (by omega)]
      rfl
    rw [if_pos (by exact_mod_cast hpos)]
    rcases Nat.lt_or_ge tileM rows with hgt | hle
    · -- a full tile, then the rest
      have hcount : (rows + tileM - 1) / tileM = (rows - tileM + tileM - 1) / tileM + 1 := by
        rw [← Nat.add_div_right _ hm]
        congr 1
        omega
      have hrest := expertTasks_eq hm e fuel (rows - tileM) (base + 1) (by omega)
      rw [Nat.cast_sub hgt.le, Nat.cast_add, Nat.cast_one] at hrest
      rw [if_pos (by exact_mod_cast hgt), hrest, hcount, List.range_succ_eq_map,
        List.map_cons, List.map_map]
      refine congrArg₂ List.cons ?_ (List.map_congr_left fun j _ => ?_)
      · rw [Nat.zero_mul, Nat.sub_zero, min_eq_left hgt.le, Nat.add_zero]
      · dsimp only [Function.comp_apply]
        rw [Nat.succ_mul, Nat.sub_sub, Nat.add_comm tileM, Nat.succ_eq_add_one, Nat.add_comm j 1,
          ← Nat.add_assoc]
    · have hcount : (rows + tileM - 1) / tileM = 1 := by
        rw [Nat.div_eq_iff hm]
        omega
      rw [if_neg (by simpa using hle), expertTasks_nonpos (by omega), hcount]
      simpa using hle

/-- A part of a list of parts, when the others are empty. -/
theorem flatMap_single {α γ : Type} {l : List α} {a : α} {f : α → List γ}
    (hnodup : l.Nodup) (ha : a ∈ l)
    (hf : ∀ x ∈ l, x ≠ a → f x = []) : l.flatMap f = f a := by
  induction l with
  | nil => cases ha
  | cons x l ih =>
    rw [List.nodup_cons] at hnodup
    rw [List.flatMap_cons]
    rcases List.mem_cons.mp ha with rfl | hmem
    · have hrest : l.flatMap f = [] := by
        rw [List.flatMap_eq_nil_iff]
        exact fun y hy => hf y (List.mem_cons_of_mem _ hy) fun heq => hnodup.1 (heq ▸ hy)
      rw [hrest, List.append_nil]
    · rw [hf x List.mem_cons_self fun heq => hnodup.1 (heq ▸ hmem), List.nil_append,
        ih hnodup.2 hmem fun y hy => hf y (List.mem_cons_of_mem _ hy)]

theorem expertTasks_expert {e fuel : Nat} {rows tile : Int} :
    ∀ task ∈ expertTasks tileM e fuel rows tile, task.expert = e := by
  induction fuel generalizing rows tile with
  | zero => exact nofun
  | succ fuel ih =>
    rw [expertTasks]
    by_cases hpos : 0 < rows
    · rw [if_pos hpos]
      intro task htask
      rcases List.mem_cons.mp htask with rfl | hrest
      · rfl
      · exact ih task hrest
    · rw [if_neg hpos]
      exact nofun

/-- **The tasks of an expert**: one for each of its tiles, with the rows of the tile. -/
theorem filter_tasks (ha : Admitted c tileM totalPairs)
    (hhist : ∀ e < c.numExperts, m (.hist e) =
      packWord (rowsOf totalPairs topkIds e : Nat) (tileBase tileM totalPairs topkIds e : Nat))
    {e : Nat} (he : e < c.numExperts) : (tasks c tileM m).filter (·.expert = e) =
      (List.range (tiles tileM totalPairs topkIds e)).map fun j =>
      ⟨e, (tileBase tileM totalPairs topkIds e + j : Nat),
        (min tileM (rowsOf totalPairs topkIds e - j * tileM) : Nat)⟩ := by
  have hpairs := ha.pairs
  have hrows : rowsOf totalPairs topkIds e ≤ totalPairs := Nat.count_le _
  have hbase : tileBase tileM totalPairs topkIds e ≤ totalPairs := tileBase_le ha.tileM e
  obtain ⟨hunrows, hunbase⟩ := @word_unpack (rowsOf totalPairs topkIds e)
    (tileBase tileM totalPairs topkIds e) (by omega) (by omega)
  have hkeep : ∀ e', (expertTasks tileM e' (wordRows (m (.hist e'))).toNat (wordRows (m (.hist e')))
      (wordBase (m (.hist e')))).filter (·.expert = e) =
      if e' = e then
        expertTasks tileM e' (wordRows (m (.hist e'))).toNat (wordRows (m (.hist e')))
          (wordBase (m (.hist e')))
      else [] := by
    intro e'
    split_ifs with heq
    · exact List.filter_eq_self.mpr fun task htask => by simp [expertTasks_expert task htask, heq]
    · exact List.filter_eq_nil_iff.mpr fun task htask => by
        simp [expertTasks_expert task htask, heq]
  unfold tasks
  simp only [List.filter_flatMap, hkeep]
  rw [flatMap_single List.nodup_range (List.mem_range.mpr (Nat.mod_lt e ha.threads)),
    flatMap_single (a := e) (nodup_strided ha.threads), if_pos rfl, hhist e he, hunrows, hunbase,
    Int.toNat_natCast, expertTasks_eq ha.tileM e _ _ _ le_rfl]
  · rfl
  · exact (mem_strided ha.threads).mpr ⟨Nat.mod_le e _, he, (Nat.mod_mod e _).symm⟩
  · exact fun x _ hx => if_neg hx
  · intro t ht hne
    rw [List.flatMap_eq_nil_iff]
    intro x hx
    refine if_neg fun heq => hne ?_
    have hmod := ((mem_strided ha.threads).mp hx).2.2
    rw [heq, Nat.mod_eq_of_lt (List.mem_range.mp ht)] at hmod
    exact hmod.symm

end Tasks

/-! ## Blocks

A unit of the grid, and in it a lane of a warp, quantizes the blocks that its number picks out of
all pairs of a route and a scale block. Numbers with remainder tell the pairs apart: nothing is left
out and nothing is done twice. The offsets of bytes and scales are injective in the same way.
-/

section Blocks

variable {c : Config} {grid : Grid c} {totalPairs : Nat} {m : Mem}

/-- **The blocks of a lane**: its unit of the grid, its lane of the unit's blocks. -/
theorem mem_laneBlocks (hk : 0 < c.kSplits) (hdvd : c.kSplits ∣ c.sfBlocks)
    {cta warp lane p sf : Nat}
    (hcta : cta < grid.gdimZ) (hwarp : warp < grid.ctaWarps) (hlane : lane < 32) :
    ⟨p, sf⟩ ∈ laneBlocks c grid totalPairs m cta warp lane ↔
      (p < totalPairs ∧ 0 ≤ m (.pair p) ∧ sf < c.sfBlocks) ∧
      (p * c.kSplits + sf / (c.sfBlocks / c.kSplits)) % (grid.gdimZ * grid.ctaWarps) =
      cta * grid.ctaWarps + warp ∧
      sf % (c.sfBlocks / c.kSplits) % 32 = lane := by
  have hstride : 0 < grid.gdimZ * grid.ctaWarps := Nat.mul_pos grid.gdimZ_pos grid.ctaWarps_pos
  have hstart : cta * grid.ctaWarps + warp < grid.gdimZ * grid.ctaWarps := digits_lt hcta hwarp
  obtain ⟨bps, hbps⟩ := hdvd
  have hdiv : c.sfBlocks / c.kSplits = bps := by rw [hbps, Nat.mul_div_cancel_left _ hk]
  unfold laneBlocks
  rw [List.mem_flatMap, hdiv]
  have hsub : ∀ u, u - u / c.kSplits * c.kSplits = u % c.kSplits := fun u => by
    have := Nat.div_add_mod' u c.kSplits
    omega
  constructor
  · rintro ⟨u, hu, hin⟩
    obtain ⟨-, hlt, hmod⟩ := (mem_strided hstride).mp hu
    dsimp only at hin
    split_ifs at hin with hrow
    · obtain ⟨x, hx, heq⟩ := List.mem_map.mp hin
      obtain ⟨rfl, rfl⟩ := Block.mk.inj heq
      rw [hsub] at hx
      obtain ⟨hle, hlt', hmod'⟩ := (mem_strided (by omega)).mp hx
      rw [Nat.succ_mul] at hlt'
      have hsplit : x / bps = u % c.kSplits :=
        Nat.div_eq_of_lt_le (by omega) (by rw [Nat.succ_mul]; omega)
      have hrest : x % bps = x - u % c.kSplits * bps := by
        have := Nat.div_add_mod' x bps
        rw [hsplit] at this
        omega
      refine ⟨⟨Nat.div_lt_of_lt_mul (by rwa [Nat.mul_comm]), hrow, ?_⟩, ?_, ?_⟩
      · have hsucc := Nat.mul_le_mul_right bps (Nat.succ_le_of_lt (Nat.mod_lt u hk))
        rw [Nat.succ_mul] at hsucc
        omega
      · rw [hsplit, Nat.div_add_mod', hmod, Nat.mod_eq_of_lt hstart]
      · rw [hrest]
        omega
    · cases hin
  · rintro ⟨⟨hp, hrow, hsf⟩, hunit, hlane'⟩
    have hbpos : 0 < bps := by
      rcases Nat.eq_zero_or_pos bps with h0 | h0
      · rw [h0] at hbps
        omega
      · exact h0
    have hsplit : sf / bps < c.kSplits := (Nat.div_lt_iff_lt_mul hbpos).mpr (hbps ▸ hsf)
    have hquot : (p * c.kSplits + sf / bps) / c.kSplits = p := by
      rw [Nat.mul_comm, Nat.mul_add_div hk, Nat.div_eq_of_lt hsplit, Nat.add_zero]
    have hrem : (p * c.kSplits + sf / bps) % c.kSplits = sf / bps := by
      rw [Nat.mul_comm, Nat.mul_add_mod, Nat.mod_eq_of_lt hsplit]
    refine ⟨p * c.kSplits + sf / bps, (mem_strided hstride).mpr ⟨?_, digits_lt hp hsplit, ?_⟩, ?_⟩
    · rw [← hunit]
      exact Nat.mod_le _ _
    · rw [hunit, Nat.mod_eq_of_lt hstart]
    · dsimp only
      rw [hsub, hquot, hrem, if_pos hrow]
      refine List.mem_map.mpr ⟨sf, (mem_strided (by omega)).mpr ?_, rfl⟩
      have hsfd := Nat.div_add_mod' sf bps
      have hlt := Nat.mod_lt sf hbpos
      rw [Nat.succ_mul]
      omega

/-- A split of a row tells its blocks apart from those of the others. -/
theorem split_unique {bps lane split split' sf : Nat}
    (h : sf ∈ strided (split * bps + lane) ((split + 1) * bps) 32)
    (h' : sf ∈ strided (split' * bps + lane) ((split' + 1) * bps) 32) : split = split' := by
  obtain ⟨hle, hlt, -⟩ := (mem_strided (by omega)).mp h
  obtain ⟨hle', hlt', -⟩ := (mem_strided (by omega)).mp h'
  have hquot : sf / bps = split := Nat.div_eq_of_lt_le (by omega) hlt
  have hquot' : sf / bps = split' := Nat.div_eq_of_lt_le (by omega) hlt'
  exact hquot.symm.trans hquot'

theorem nodup_laneBlocks {cta warp lane : Nat} :
    (laneBlocks c grid totalPairs m cta warp lane).Nodup := by
  have hstride : 0 < grid.gdimZ * grid.ctaWarps := Nat.mul_pos grid.gdimZ_pos grid.ctaWarps_pos
  unfold laneBlocks
  refine List.nodup_flatMap.mpr ⟨fun u _ => ?_, (nodup_strided hstride).pairwise_of_forall_ne fun u
    _ u' _ hne => ?_⟩
  · dsimp only
    split_ifs
    · exact (nodup_strided (by omega)).map fun x y h => (Block.mk.inj h).2
    · exact List.nodup_nil
  · -- a block tells its unit
    rintro ⟨p, sf⟩ hb hb'
    dsimp only at hb hb'
    split_ifs at hb hb'
    · obtain ⟨x, hx, heq⟩ := List.mem_map.mp hb
      obtain ⟨x', hx', heq'⟩ := List.mem_map.mp hb'
      obtain ⟨hp, rfl⟩ := Block.mk.inj heq
      obtain ⟨hp', rfl⟩ := Block.mk.inj heq'
      have hsplit := split_unique hx hx'
      have hd := Nat.div_add_mod' u c.kSplits
      have hd' := Nat.div_add_mod' u' c.kSplits
      refine hne ?_
      rw [hp] at hsplit hd
      rw [hp'] at hsplit hd'
      omega
    all_goals first | cases hb | cases hb'

/-- **Every block of every active route is quantized**, and no other. -/
theorem mem_blocks (hk : 0 < c.kSplits) (hdvd : c.kSplits ∣ c.sfBlocks) {tables : Nat → Mem}
    {row : Nat → Int}
    (htables : ∀ cta < grid.gdimZ, ∀ p < totalPairs, tables cta (.pair p) = row p) {p sf : Nat} :
    ⟨p, sf⟩ ∈ blocks c grid totalPairs tables ↔ p < totalPairs ∧ 0 ≤ row p ∧ sf < c.sfBlocks := by
  have hstride : 0 < grid.gdimZ * grid.ctaWarps := Nat.mul_pos grid.gdimZ_pos grid.ctaWarps_pos
  unfold blocks
  simp only [List.mem_flatMap, List.mem_range]
  constructor
  · rintro ⟨cta, hcta, warp, hwarp, lane, hlane, hb⟩
    obtain ⟨⟨hp, hrow, hsf⟩, -⟩ := (mem_laneBlocks hk hdvd hcta hwarp hlane).mp hb
    exact ⟨hp, htables cta hcta p hp ▸ hrow, hsf⟩
  · rintro ⟨hp, hrow, hsf⟩
    generalize hunit : (p * c.kSplits + sf / (c.sfBlocks / c.kSplits)) %
      (grid.gdimZ * grid.ctaWarps) = unit
    have hlt : unit < grid.gdimZ * grid.ctaWarps := hunit ▸ Nat.mod_lt _ hstride
    have hcta : unit / grid.ctaWarps < grid.gdimZ :=
      (Nat.div_lt_iff_lt_mul grid.ctaWarps_pos).mpr hlt
    have hwarp := Nat.mod_lt unit grid.ctaWarps_pos
    have hlane := Nat.mod_lt (sf % (c.sfBlocks / c.kSplits)) (show 0 < 32 by omega)
    refine ⟨_, hcta, _, hwarp, _, hlane, (mem_laneBlocks hk hdvd hcta hwarp hlane).mpr
      ⟨⟨hp, ?_, hsf⟩, ?_, rfl⟩⟩
    · rwa [htables _ hcta p hp]
    · rw [hunit, Nat.div_add_mod']

/-- **... and only once**, over all lanes of the grid. -/
theorem nodup_blocks (hk : 0 < c.kSplits) (hdvd : c.kSplits ∣ c.sfBlocks) (tables : Nat → Mem) :
    (blocks c grid totalPairs tables).Nodup := by
  refine nodup_flatMap_range (fun cta hcta => ?_) fun cta hcta cta' hcta' hne b hb hb' => ?_
  · refine nodup_flatMap_range (fun warp hwarp => ?_) fun warp hwarp warp' hwarp' hne b hb hb' => ?_
    · refine nodup_flatMap_range (fun lane hlane => nodup_laneBlocks) fun lane hlane lane' hlane'
        hne b hb hb' => ?_
      have hlane := ((mem_laneBlocks hk hdvd hcta hwarp hlane).mp hb).2.2
      exact hne (hlane.symm.trans ((mem_laneBlocks hk hdvd hcta hwarp hlane').mp hb').2.2)
    · obtain ⟨lane, hlane, hb⟩ := List.mem_flatMap.mp hb
      obtain ⟨lane', hlane', hb'⟩ := List.mem_flatMap.mp hb'
      have hunit := ((mem_laneBlocks hk hdvd hcta hwarp (List.mem_range.mp hlane)).mp hb).2.1
      have hunit' := ((mem_laneBlocks hk hdvd hcta hwarp' (List.mem_range.mp hlane')).mp hb').2.1
      omega
  · obtain ⟨warp, hwarp, hb⟩ := List.mem_flatMap.mp hb
    obtain ⟨warp', hwarp', hb'⟩ := List.mem_flatMap.mp hb'
    obtain ⟨lane, hlane, hb⟩ := List.mem_flatMap.mp hb
    obtain ⟨lane', hlane', hb'⟩ := List.mem_flatMap.mp hb'
    rw [List.mem_range] at hwarp hwarp' hlane hlane'
    have hunit := ((mem_laneBlocks hk hdvd hcta hwarp hlane).mp hb).2.1
    have hunit' := ((mem_laneBlocks hk hdvd hcta' hwarp' hlane').mp hb').2.1
    exact hne (digits_inj hwarp hwarp' (hunit.symm.trans hunit')).1

/-- Different blocks have different bytes. -/
theorem packedOffset_disjoint {row row' : Nat} {sf sf' : Nat} (hsf : sf < c.sfBlocks)
    (hsf' : sf' < c.sfBlocks)
    (hne : row ≠ row' ∨ sf ≠ sf') : packedOffset c grid row sf + 8 ≤ packedOffset c grid row' sf' ∨
      packedOffset c grid row' sf' + 8 ≤ packedOffset c grid row sf := by
  have hbytes := grid.rowBytes
  have hbefore : ∀ {a b i j : Nat}, i < c.sfBlocks → j < c.sfBlocks → a < b →
      (a : Int) * grid.outputBytesPerRow + i * 8 + 8 ≤
        (b : Int) * grid.outputBytesPerRow + j * 8 := by
    intro a b i j hi hj hab
    have hrow := Nat.mul_le_mul_right grid.outputBytesPerRow (Nat.succ_le_of_lt hab)
    rw [Nat.succ_mul] at hrow
    exact_mod_cast
      (by omega : a * grid.outputBytesPerRow + i * 8 + 8 ≤ b * grid.outputBytesPerRow + j * 8)
  unfold packedOffset
  rcases Nat.lt_trichotomy row row' with hlt | rfl | hlt
  · exact Or.inl (hbefore hsf hsf' hlt)
  · omega
  · exact Or.inr (hbefore hsf' hsf hlt)

theorem scaleOffset_eq (row sf : Nat) : scaleOffset c grid row sf =
    (row / 128 * grid.numKTiles + sf / 4) * 512 +
    (row % 128 % 32 * 16 + row % 128 / 32 * 4 + sf % 4) := by
  have hatom : row >>> 7 = row / 128 := Nat.shiftRight_eq_div_pow row 7
  have hrow : row &&& 127 = row % 128 := Nat.and_two_pow_sub_one_eq_mod row 7
  unfold scaleOffset
  dsimp only
  rw [hatom, hrow]
  ring

/-- The place of a row's scale within a tile of 128 rows and four blocks. -/
theorem scaleDigits_inj {r r' s s' : Nat} (hr : r < 128) (hr' : r' < 128) (hs : s < 4)
    (hs' : s' < 4)
    (h : r % 32 * 16 + r / 32 * 4 + s = r' % 32 * 16 + r' / 32 * 4 + s') : r = r' ∧ s = s' := by
  have hlow : r % 32 * 4 + r / 32 = r' % 32 * 4 + r' / 32 := by omega
  have hquot : r / 32 = r' / 32 := by omega
  have hmod : r % 32 = r' % 32 := by omega
  exact ⟨by omega, by omega⟩

/-- Different blocks have different scales. -/
theorem scaleOffset_inj {row row' sf sf' : Nat} (hsf : sf < c.sfBlocks) (hsf' : sf' < c.sfBlocks)
    (h : scaleOffset c grid row sf = scaleOffset c grid row' sf') : row = row' ∧ sf = sf' := by
  have hk := grid.kTiles
  have hlow : ∀ r s : Nat, r % 128 % 32 * 16 + r % 128 / 32 * 4 + s % 4 < 512 := fun r s => by omega
  rw [scaleOffset_eq, scaleOffset_eq] at h
  obtain ⟨htile, hrest⟩ := digits_inj (hlow row sf) (hlow row' sf') h
  obtain ⟨hatom, hkt⟩ := digits_inj (show sf / 4 < grid.numKTiles by omega) (by omega) htile
  obtain ⟨hmod, hinner⟩ := scaleDigits_inj (Nat.mod_lt row (by omega)) (Nat.mod_lt row' (by omega))
    (Nat.mod_lt sf (by omega)) (Nat.mod_lt sf' (by omega)) hrest
  have hrow : row = row' := by
    rw [← Nat.div_add_mod row 128, hatom, hmod, Nat.div_add_mod]
  have hsfs : sf = sf' := by
    rw [← Nat.div_add_mod sf 4, hkt, hinner, Nat.div_add_mod]
  exact ⟨hrow, hsfs⟩

end Blocks

/-! ## Rows

The row of a route is its expert's base and its rank among that expert's routes. The rows of one
expert end before the base of the next, so different experts have disjoint ranges.
-/

section Rows

variable {c : Config} {tileM totalPairs : Nat} {topkIds : Nat → Int}

theorem rowOf_active {e p : Nat} (he : e < c.numExperts) (hp : topkIds p = e) :
    rowOf c tileM totalPairs topkIds p =
      (tileBase tileM totalPairs topkIds e * tileM + rankOf topkIds p : Nat) := by
  rw [rowOf, hp, if_pos ⟨Int.natCast_nonneg e, by exact_mod_cast he⟩, Int.toNat_natCast]
  push_cast
  rfl

theorem rankOf_eq {e p : Nat} (hp : topkIds p = e) : rankOf topkIds p = rowsOf p topkIds e := by
  rw [rankOf, rowsOf, hp]

/-- The ranks of an expert's routes lie within its rows. -/
theorem rankOf_lt {e p : Nat} (hlt : p < totalPairs) (hp : topkIds p = e) :
    rankOf topkIds p < rowsOf totalPairs topkIds e := by
  rw [rankOf_eq hp]
  exact count_lt_of_lt (p := fun q => topkIds q = (e : Int)) hp hlt

/-- The rows of an expert end before those of the next. -/
theorem rows_le (hm : 0 < tileM) {e e' : Nat} (h : e < e') :
    tileBase tileM totalPairs topkIds e * tileM + rowsOf totalPairs topkIds e ≤
      tileBase tileM totalPairs topkIds e' * tileM := by
  have hmono : tileBase tileM totalPairs topkIds (e + 1) ≤ tileBase tileM totalPairs topkIds e' :=
    Finset.sum_le_sum_of_subset (Finset.range_mono h)
  have hceil : rowsOf totalPairs topkIds e ≤ tiles tileM totalPairs topkIds e * tileM := by
    unfold tiles
    have := Nat.div_add_mod' (rowsOf totalPairs topkIds e + tileM - 1) tileM
    have := Nat.mod_lt (rowsOf totalPairs topkIds e + tileM - 1) hm
    omega
  calc _ ≤ tileBase tileM totalPairs topkIds e * tileM + tiles tileM totalPairs topkIds e * tileM :=
        Nat.add_le_add_left hceil _
    _ = tileBase tileM totalPairs topkIds (e + 1) * tileM := by rw [tileBase_succ, Nat.add_mul]
    _ ≤ _ := Nat.mul_le_mul_right _ hmono

theorem active_cast {p : Nat} (h : Active c (topkIds p)) : ∃ e : Nat, e < c.numExperts ∧
    topkIds p = e := by
  obtain ⟨e, he⟩ := Int.eq_ofNat_of_zero_le h.1
  have := h.2
  exact ⟨e, by omega, he⟩

/-- **Active routes have different rows.** -/
theorem rowOf_inj (hm : 0 < tileM) {p q : Nat} (hp : p < totalPairs) (hq : q < totalPairs)
    (hpa : Active c (topkIds p)) (hqa : Active c (topkIds q))
    (h : rowOf c tileM totalPairs topkIds p = rowOf c tileM totalPairs topkIds q) : p = q := by
  obtain ⟨e, he, hpe⟩ := active_cast hpa
  obtain ⟨e', he', hqe⟩ := active_cast hqa
  rw [rowOf_active he hpe, rowOf_active he' hqe, Nat.cast_inj] at h
  have hrp := rankOf_lt hp hpe
  have hrq := rankOf_lt hq hqe
  rcases Nat.lt_trichotomy e e' with hlt | rfl | hlt
  · have := @rows_le tileM totalPairs topkIds hm e e' hlt
    omega
  · rw [Nat.add_left_cancel_iff, rankOf_eq hpe, rankOf_eq hqe] at h
    exact Nat.count_injective (p := fun r => topkIds r = (e : Int)) hpe hqe h
  · have := @rows_le tileM totalPairs topkIds hm e' e hlt
    omega

/-- **The rows of an expert** are the slots from its base on, as many as it has routes. -/
theorem rowOf_nth {e : Nat} (he : e < c.numExperts) (j : Nat) :
    (∃ p < totalPairs, topkIds p = e ∧
      rowOf c tileM totalPairs topkIds p =
        (tileBase tileM totalPairs topkIds e * tileM + j : Nat)) ↔
      j < rowsOf totalPairs topkIds e := by
  constructor
  · rintro ⟨p, hp, hpe, hrow⟩
    rw [rowOf_active he hpe, Nat.cast_inj, Nat.add_left_cancel_iff] at hrow
    exact hrow ▸ rankOf_lt hp hpe
  · intro hj
    obtain ⟨p, hp, hpe, hcount⟩ := exists_count_eq hj
    refine ⟨p, hp, hpe, ?_⟩
    rw [rowOf_active he hpe, rankOf_eq hpe, rowsOf, hcount]

/-- ... in pair order. -/
theorem rowOf_lt {e p q : Nat} (he : e < c.numExperts) (hpe : topkIds p = e)
    (hqe : topkIds q = e) (h : p < q) :
    rowOf c tileM totalPairs topkIds p < rowOf c tileM totalPairs topkIds q := by
  rw [rowOf_active he hpe, rowOf_active he hqe, rankOf_eq hpe, rankOf_eq hqe, Nat.cast_lt]
  exact Nat.add_lt_add_left (count_lt_of_lt (p := fun r => topkIds r = (e : Int)) hpe h) _

end Rows

/-! ## A launch

The phases are put together: the tables that the first five leave are given, and the two that
publish write what the rows say.
-/

section Launch

variable {c : Config} {tileM totalPairs : Nat} {topkIds : Nat → Int} {m : Mem}

/-- The rows of the first tiles of an expert. -/
theorem sum_tileRows (T R : Nat) : ∀ n, ∑ j ∈ Finset.range n, min T (R - j * T) = min (n * T) R
  | 0 => by simp
  | n + 1 => by
    rw [Finset.sum_range_succ, sum_tileRows T R n, Nat.succ_mul]
    omega

theorem tiles_bounds (hm : 0 < tileM) (e : Nat) :
    rowsOf totalPairs topkIds e ≤ tiles tileM totalPairs topkIds e * tileM ∧
      ∀ j < tiles tileM totalPairs topkIds e, j * tileM < rowsOf totalPairs topkIds e := by
  unfold tiles
  have hceil := Nat.div_add_mod' (rowsOf totalPairs topkIds e + tileM - 1) tileM
  have hlt := Nat.mod_lt (rowsOf totalPairs topkIds e + tileM - 1) hm
  refine ⟨by omega, fun j hj => ?_⟩
  have hmul := Nat.mul_le_mul_right tileM (Nat.succ_le_of_lt hj)
  rw [Nat.succ_mul] at hmul
  omega

theorem mem_tasks (hthreads : 0 < c.threads) {task : Task} (h : task ∈ tasks c tileM m) :
    task.expert < c.numExperts := by
  unfold tasks at h
  obtain ⟨t, _, ht⟩ := List.mem_flatMap.mp h
  obtain ⟨e, he, htask⟩ := List.mem_flatMap.mp ht
  rw [expertTasks_expert task htask]
  exact ((mem_strided hthreads).mp he).2.1

theorem rowOf_nonneg {p : Nat} : 0 ≤ rowOf c tileM totalPairs topkIds p ↔ Active c (topkIds p) := by
  unfold rowOf
  split_ifs with hactive
  · exact iff_of_true (by positivity) hactive
  · exact iff_of_false (by omega) hactive

/-- **What the owner of a row stores there**; the other rows stay. -/
theorem owner_spec {β : Type} {val : Nat → β} {mem mem' : Int → β}
    (ha : Admitted c tileM totalPairs)
    (hrow : ∀ p < totalPairs, m (.pair p) = rowOf c tileM totalPairs topkIds p)
    (h : Outcome ((List.range c.threads).map fun t =>
      (strided t totalPairs c.threads).flatMap fun p =>
      if 0 ≤ m (.pair p) then [(m (.pair p), val p)] else []) mem mem') :
    (∀ p < totalPairs, Active c (topkIds p) → mem' (rowOf c tileM totalPairs topkIds p) = val p) ∧
      ∀ r, (∀ p < totalPairs, Active c (topkIds p) → r ≠ rowOf c tileM totalPairs topkIds p) →
      mem' r = mem r := by
  have hstores : ∀ {k v}, Stores ((List.range c.threads).map fun t =>
    (strided t totalPairs c.threads).flatMap fun p =>
      if 0 ≤ m (.pair p) then [(m (.pair p), val p)] else []) k v ↔
      ∃ p < totalPairs, Active c (topkIds p) ∧ k = rowOf c tileM totalPairs topkIds p ∧
      v = val p := by
    intro k v
    refine Iff.trans ?_ (exists_strided ha.threads)
    unfold Stores
    simp only [List.mem_map, List.mem_range, exists_exists_and_eq_and, List.mem_flatMap]
    refine exists_congr fun t => and_congr_right fun _ => exists_congr fun p =>
      and_congr_right fun hp => ?_
    have hlt := ((mem_strided ha.threads).mp hp).2.1
    rw [hrow p hlt]
    by_cases hactive : Active c (topkIds p)
    · rw [if_pos (rowOf_nonneg.mpr hactive), List.mem_singleton, Prod.mk.injEq]
      exact (and_iff_right hactive).symm
    · rw [if_neg fun h0 => hactive (rowOf_nonneg.mp h0)]
      exact iff_of_false List.not_mem_nil fun h0 => hactive h0.1
  refine ⟨fun p hp hactive => h.stored (hstores.mpr ⟨p, hp, hactive, rfl, rfl⟩) fun v hv => ?_,
    fun r hr => h.kept fun v hv => ?_⟩
  · obtain ⟨q, hq, hqa, hkey, rfl⟩ := hstores.mp hv
    rw [rowOf_inj ha.tileM hp hq hactive hqa hkey]
  · obtain ⟨p, hp, hactive, rfl, -⟩ := hstores.mp hv
    exact hr p hp hactive rfl

/-- The number of tiles is the sum of the experts' tasks. -/
theorem length_filter_tasks (ha : Admitted c tileM totalPairs)
    (hhist : ∀ e < c.numExperts, m (.hist e) =
      packWord (rowsOf totalPairs topkIds e : Nat) (tileBase tileM totalPairs topkIds e : Nat)) :
    (tasks c tileM m).length = tileBase tileM totalPairs topkIds c.numExperts := by
  have hcount : (tasks c tileM m).length =
      ∑ e ∈ Finset.range c.numExperts, ((tasks c tileM m).filter (·.expert = e)).length := by
    have hall : ∀ task ∈ tasks c tileM m, task.expert < c.numExperts := fun task htask =>
      mem_tasks ha.threads htask
    generalize tasks c tileM m = ts at hall
    induction ts with
    | nil => simp
    | cons task ts ih =>
      rw [List.length_cons, ih fun t ht => hall t (List.mem_cons_of_mem _ ht)]
      have hone : ∑ e ∈ Finset.range c.numExperts, (if task.expert = e then 1 else 0) = 1 := by
        rw [Finset.sum_ite_eq, if_pos (Finset.mem_range.mpr (hall task List.mem_cons_self))]
      rw [← hone, ← Finset.sum_add_distrib]
      refine Finset.sum_congr rfl fun e _ => ?_
      rw [List.filter_cons]
      by_cases he : task.expert = e
      · simp [he]
      · simp [he]
  rw [hcount]
  refine Finset.sum_congr rfl fun e he => ?_
  rw [filter_tasks ha hhist (Finset.mem_range.mp he), List.length_map, List.length_range]

/-- The valid rows of an expert's tasks. -/
theorem validRows_tasks (ha : Admitted c tileM totalPairs)
    (hhist : ∀ e < c.numExperts, m (.hist e) =
      packWord (rowsOf totalPairs topkIds e : Nat) (tileBase tileM totalPairs topkIds e : Nat))
    {e : Nat} (he : e < c.numExperts) :
    (∀ task ∈ tasks c tileM m, task.expert = e → 0 < task.validRows ∧ task.validRows ≤ tileM) ∧
      (((tasks c tileM m).filter (·.expert = e)).map (·.validRows)).sum =
        rowsOf totalPairs topkIds e := by
  obtain ⟨hceil, hin⟩ := @tiles_bounds tileM totalPairs topkIds ha.tileM e
  constructor
  · intro task htask hexpert
    have hmem : task ∈ (tasks c tileM m).filter (·.expert = e) :=
      List.mem_filter.mpr ⟨htask, by simpa using hexpert⟩
    rw [filter_tasks ha hhist he] at hmem
    obtain ⟨j, hj, rfl⟩ := List.mem_map.mp hmem
    have hpos := hin j (List.mem_range.mp hj)
    have hm := ha.tileM
    dsimp only
    omega
  · have hsum := sum_tileRows tileM (rowsOf totalPairs topkIds e) (tiles tileM totalPairs topkIds e)
    rw [min_eq_right hceil] at hsum
    rw [filter_tasks ha hhist he, List.map_map]
    calc _ = ∑ j ∈ Finset.range (tiles tileM totalPairs topkIds e),
          ((min tileM (rowsOf totalPairs topkIds e - j * tileM) : Nat) : Int) := rfl
      _ = _ := by rw [← Nat.cast_sum, hsum]

/-- A correct routing: `tables` of the CTAs, token map and weights before and after. -/
structure Routing {W : Type} (c : Config) (grid : Grid c) (tileM totalPairs : Nat)
    (topkIds : Nat → Int) (topkWeights : Nat → W) (tables : Nat → Mem) (map map' : Int → Nat)
    (weights weights' : Int → W) : Prop where
  inactive : ∀ cta < grid.gdimZ, ∀ p < totalPairs, ¬ Active c (topkIds p) →
    tables cta (.pair p) = -1
  distinct : ∀ cta < grid.gdimZ, ∀ cta' < grid.gdimZ, ∀ p < totalPairs, ∀ q < totalPairs,
    Active c (topkIds p) →
    Active c (topkIds q) → tables cta (.pair p) = tables cta' (.pair q) → p = q
  consecutive : ∀ cta < grid.gdimZ, ∀ e < c.numExperts, ∀ j :
    Nat, (∃ p < totalPairs, topkIds p = e ∧
    tables cta (.pair p) = (tileBase tileM totalPairs topkIds e * tileM + j : Nat)) ↔
    j < rowsOf totalPairs topkIds e
  pairOrder : ∀ cta < grid.gdimZ, ∀ p q, p < q → q < totalPairs → Active c (topkIds p) →
    topkIds q = topkIds p →
    tileBase tileM totalPairs topkIds (topkIds p).toNat * tileM ≤ tables cta (.pair p) ∧
      tables cta (.pair p) < tables cta (.pair q)
  perTile : ∀ e < c.numExperts, (tasks c tileM (tables 0)).filter (·.expert = e) =
    (List.range (tiles tileM totalPairs topkIds e)).map fun j =>
    ⟨e, (tileBase tileM totalPairs topkIds e + j : Nat),
      (min tileM (rowsOf totalPairs topkIds e - j * tileM) : Nat)⟩
  experts : ∀ task ∈ tasks c tileM (tables 0), task.expert < c.numExperts ∧ 0 < task.validRows ∧
    task.validRows ≤ tileM
  validRows : ∀ e < c.numExperts, (((tasks c tileM (tables 0)).filter (·.expert = e)).map
    (·.validRows)).sum =
    rowsOf totalPairs topkIds e
  tail : taskTail c grid (tables 0) = (tasks c tileM (tables 0)).length * grid.numGroups
  owner : ∀ p < totalPairs, Active c (topkIds p) → map' (tables 0 (.pair p)) = p / grid.numTopk ∧
    weights' (tables 0 (.pair p)) = topkWeights p
  unowned : ∀ r, (∀ p < totalPairs, Active c (topkIds p) → r ≠ tables 0 (.pair p)) →
    map' r = map r ∧ weights' r = weights r
  quantized : ∀ p sf, ⟨p, sf⟩ ∈ blocks c grid totalPairs tables ↔ p < totalPairs ∧
    Active c (topkIds p) ∧ sf < c.sfBlocks
  once : (blocks c grid totalPairs tables).Nodup
  apart : ∀ cta < grid.gdimZ, ∀ cta' < grid.gdimZ, ∀ b ∈ blocks c grid totalPairs tables,
    ∀ b' ∈ blocks c grid totalPairs tables, b ≠ b' →
    let row := tables cta (.pair b.pair)
    let row' := tables cta' (.pair b'.pair)
    (packedOffset c grid row b.sf + 8 ≤ packedOffset c grid row' b'.sf ∨
      packedOffset c grid row' b'.sf + 8 ≤ packedOffset c grid row b.sf) ∧
      scaleOffset c grid row.toNat b.sf ≠ scaleOffset c grid row'.toNat b'.sf

/-- The routing of an admitted launch whose K splits cut its scale blocks evenly. -/
theorem routing_of_admitted {W : Type} {grid : Grid c} {topkWeights : Nat → W}
    {before tables : Nat → Mem} {map map' : Int → Nat} {weights weights' : Int → W}
    (ha : Admitted c tileM totalPairs) (hk : 0 < c.kSplits) (hdvd : c.kSplits ∣ c.sfBlocks)
    (htables : ∀ cta < grid.gdimZ, Table c tileM totalPairs topkIds (before cta) (tables cta))
    (hmap : Outcome (tokenMap c grid totalPairs (tables 0)) map map')
    (hweights : Outcome (tokenWeights c totalPairs (tables 0) topkWeights) weights weights') :
    Routing c grid tileM totalPairs topkIds topkWeights tables map map' weights weights' := by
  have htile := ha.tileM
  have hpair : ∀ cta < grid.gdimZ, ∀ p < totalPairs,
    tables cta (.pair p) = rowOf c tileM totalPairs topkIds p :=
    fun cta hcta => (table_spec ha (htables cta hcta)).2.1
  obtain ⟨hhist, hrow, htotal⟩ := table_spec ha (htables 0 grid.gdimZ_pos)
  have hblocks : ∀ p sf, (⟨p, sf⟩ : Block) ∈ blocks c grid totalPairs tables ↔
      p < totalPairs ∧ Active c (topkIds p) ∧ sf < c.sfBlocks := fun p sf => by
    rw [mem_blocks hk hdvd hpair, rowOf_nonneg]
  obtain ⟨hmapOwner, hmapKept⟩ := owner_spec ha hrow hmap
  obtain ⟨hweightsOwner, hweightsKept⟩ := owner_spec ha hrow hweights
  constructor
  case inactive =>
    exact fun cta hcta p hp hinactive => by rw [hpair cta hcta p hp, rowOf, if_neg hinactive]
  case distinct =>
    intro cta hcta cta' hcta' p hp q hq hpa hqa heq
    rw [hpair cta hcta p hp, hpair cta' hcta' q hq] at heq
    exact rowOf_inj htile hp hq hpa hqa heq
  case consecutive =>
    intro cta hcta e he j
    rw [← rowOf_nth he j]
    exact exists_congr fun p => and_congr_right fun hp => by rw [hpair cta hcta p hp]
  case pairOrder =>
    intro cta hcta p q hpq hq hpa hqe
    obtain ⟨e, he, hpe⟩ := active_cast hpa
    rw [hpair cta hcta p (by omega), hpair cta hcta q hq]
    refine ⟨?_, rowOf_lt he hpe (hqe.trans hpe) hpq⟩
    rw [rowOf_active he hpe, hpe, Int.toNat_natCast]
    push_cast
    omega
  case perTile => exact fun e he => filter_tasks ha hhist he
  case experts =>
    intro task htask
    have he := mem_tasks ha.threads htask
    exact ⟨he, (validRows_tasks ha hhist he).1 task htask rfl⟩
  case validRows => exact fun e he => (validRows_tasks ha hhist he).2
  case tail => rw [taskTail, htotal, length_filter_tasks ha hhist]
  case owner =>
    intro p hp hpa
    rw [hrow p hp]
    exact ⟨hmapOwner p hp hpa, hweightsOwner p hp hpa⟩
  case unowned =>
    intro r hr
    have hr' : ∀ p < totalPairs, Active c (topkIds p) → r ≠ rowOf c tileM totalPairs topkIds p :=
      fun p hp hpa =>
      hrow p hp ▸ hr p hp hpa
    exact ⟨hmapKept r hr', hweightsKept r hr'⟩
  case quantized => exact hblocks
  case once => exact nodup_blocks hk hdvd tables
  case apart =>
    rintro cta hcta cta' hcta' ⟨p, sf⟩ hb ⟨q, sf'⟩ hb' hne
    obtain ⟨hp, hpa, hsf⟩ := (hblocks p sf).mp hb
    obtain ⟨hq, hqa, hsf'⟩ := (hblocks q sf').mp hb'
    have hnonneg : ∀ i, Active c (topkIds i) → 0 ≤ rowOf c tileM totalPairs topkIds i :=
      fun i => rowOf_nonneg.mpr
    obtain ⟨r, hr⟩ := Int.eq_ofNat_of_zero_le (hnonneg p hpa)
    obtain ⟨r', hr'⟩ := Int.eq_ofNat_of_zero_le (hnonneg q hqa)
    have hdiff : r ≠ r' ∨ sf ≠ sf' := by
      by_contra hsame
      rw [not_or, not_not, not_not] at hsame
      refine hne (congrArg₂ Block.mk (rowOf_inj htile hp hq hpa hqa ?_) hsame.2)
      rw [hr, hr', hsame.1]
    dsimp only
    rw [hpair cta hcta p hp, hpair cta' hcta' q hq, hr, hr', Int.toNat_natCast, Int.toNat_natCast]
    refine ⟨packedOffset_disjoint hsf hsf' hdiff, fun heq => ?_⟩
    obtain ⟨hrr, hss⟩ := scaleOffset_inj hsf hsf' heq
    exact hdiff.elim (fun h => h hrr) fun h => h hss

/-- **The routing of a launch**, for every configuration and number of routed rows that the host
admits. -/
theorem decode_routing {W : Type} {b : Backend} {E env hidden kSplits : Int} {grid : Grid c}
    {topkWeights : Nat → W} {before tables : Nat → Mem} {map map' : Int → Nat}
    {weights weights' : Int → W}
    (hconfig : configureDecodeFastpath b E (decodeFastpathMaxRows env) hidden kSplits = .ok c)
    (hthreads : 0 < b.threadsPerCta) (htile : 0 < tileM)
    (hrows : totalPairs ≤ decodeFastpathMaxRows env)
    (htables : ∀ cta < grid.gdimZ, Table c tileM totalPairs topkIds (before cta) (tables cta))
    (hmap : Outcome (tokenMap c grid totalPairs (tables 0)) map map')
    (hweights : Outcome (tokenWeights c totalPairs (tables 0) topkWeights) weights weights') :
    Routing c grid tileM totalPairs topkIds topkWeights tables map map' weights weights' := by
  obtain ⟨-, -, -, hk, hdvd⟩ := configure_spec hconfig hthreads
  exact routing_of_admitted (admitted_of_rows hconfig hthreads htile hrows) hk hdvd
    htables hmap hweights

/-- **Every launch that the host selects** for the fast path is routed so. -/
theorem selected_routing {W : Type} {b : Backend} {E env hidden kSplits n : Int}
    {on nvfp4 silu direct deterministic repacked queue : Bool} {grid : Grid c}
    {topkWeights : Nat → W} {before tables : Nat → Mem} {map map' : Int → Nat}
    {weights weights' : Int → W}
    (hselected : decodeFastpathSelected on (decodeFastpathMaxRows env) nvfp4 silu
      totalPairs n direct
      deterministic repacked tileM queue = true)
    (hconfig : configureDecodeFastpath b E (decodeFastpathMaxRows env) hidden kSplits = .ok c)
    (hthreads : 0 < b.threadsPerCta)
    (htables : ∀ cta < grid.gdimZ, Table c tileM totalPairs topkIds (before cta) (tables cta))
    (hmap : Outcome (tokenMap c grid totalPairs (tables 0)) map map')
    (hweights : Outcome (tokenWeights c totalPairs (tables 0) topkWeights) weights weights') :
    Routing c grid tileM totalPairs topkIds topkWeights tables map map' weights weights' := by
  obtain ⟨htile, -, hrows⟩ := selected_bounds hselected
  obtain ⟨-, -, -, hk, hdvd⟩ := configure_spec hconfig hthreads
  exact routing_of_admitted (admitted_of_rows hconfig hthreads (by omega) hrows) hk hdvd htables
    hmap hweights

/-- Two experts, two threads, two warps in all. -/
def smallConfig : Config := ⟨2, 64, 1, 2, 2, 2⟩

def smallGrid : Grid smallConfig where
  gdimZ := 2
  ctaWarps := 1
  numTopk := 1
  numGroups := 3
  outputBytesPerRow := 16
  numKTiles := 1
  gdimZ_pos := Nat.two_pos
  ctaWarps_pos := Nat.one_pos
  rowBytes := Nat.le_refl 16
  kTiles := Nat.le_add_left 2 2

/-- Three routes, one of them inactive, two at one expert with tiles of one row. -/
theorem small_routing : ∃ (tables : Nat → Mem) (map' : Int → Nat) (weights' : Int → Nat),
    Routing smallConfig smallGrid 1 3 (fun p => if p = 1 then -1 else 1) id tables (fun _ => 0) map'
      (fun _ => 0) weights' :=
  ⟨_, _, _, @decode_routing smallConfig 1 3 (fun p => if p = 1 then -1 else 1) Nat
    ⟨true, false, false, false, false, false, false, false, true, 2⟩ 2 64 32 2 smallGrid id
      (fun _ _ => 0) _ _ _ _ _ rfl
    Nat.two_pos Nat.one_pos (by decide)
    (fun _ _ => ⟨_, _, _, outcome_serial, outcome_serial, outcome_serial, outcome_serial⟩)
      outcome_serial outcome_serial⟩

end Launch

end Ringside.MoeDecode

import Ringside.Races

/-!
# The tiles of the sparse MLA kernels (`csrc/sparse_mla.cu`)

Model of `load_tile`, `load_idx`, `load_kv` and `store_tile`, and of the loops around them. The
threads of a block load the rows that a tile of the index row names, in chunks, and publish them to
shared memory with one flag for each row. The index-pipelined kernel loads the indices one tile
ahead of the rows.

* A cache row is its elements; `conv` is the conversion to the shared tile's type (`bf16`, with the
  scale of an fp8 cache).
* A tile's chunks are dealt to the threads as in the macros `CPR` and `NPF` (`cpr`, `npf`, `chunk`);
  that every chunk is dealt once is a field of `Chunking`.
* A thread's registers are functions of the number of the chunk; `valid_bits` is one flag for each.
  An index that names no row loads row 0 (`clamp`: `KV[-1]` is out of bounds) and clears its flag.
* The stores of the threads race (`Races.Outcome`).
* A loop is a state before tile `n`: registers, shared tile, and what the body has computed. Double
  buffers and the barriers between tiles are one tile, published whole.

Results:
* `loadKv_loadIdx`: the two halves of the pipelined load leave what `load_tile` leaves.
* `kv_outcome`, `valid_outcome`, `storeTile_holds`: in whatever order the threads store, the tile
  holds the rows and flags of its indices.
* `pipeAt_eq`: at every tile the pipelined loop has loaded, published and computed what the plain
  one has.
-/

namespace Ringside.SparseMla

open Races Scatter

/-- `kBI`, the columns of a tile. -/
def kBI : Nat := 32

/-- `kDim`. -/
def kDim : Nat := 512

/-- How a tile is cut into chunks (`kElemsPerChunk`) and dealt to the threads. -/
structure Chunking where
  elems : Nat
  threads : Nat
  elems_pos : 0 < elems
  elems_dvd : elems ∣ kDim
  threads_pos : 0 < threads
  threads_dvd : threads ∣ kBI * (kDim / elems)

namespace Chunking

variable (g : Chunking)

/-- `CPR`, the chunks of a row. -/
def cpr : Nat := kDim / g.elems

/-- `NPF`, the chunks of a thread. -/
def npf : Nat := kBI * g.cpr / g.threads

/-- The chunk that thread `tid` loads as its `i`-th. -/
def chunk (tid i : Nat) : Nat := tid + i * g.threads

theorem cpr_mul : g.cpr * g.elems = kDim := Nat.div_mul_cancel g.elems_dvd

theorem npf_mul : g.npf * g.threads = kBI * g.cpr := Nat.div_mul_cancel g.threads_dvd

end Chunking

variable {α R : Type}

/-- What a thread has prefetched: `pf` and `valid_bits`. -/
structure Regs (α : Type) where
  pf : Nat → Nat → α
  validBits : Nat → Bool

/-- The row that is loaded for an index: `KV[-1]` is out of bounds. -/
def clamp (raw : Int) : Nat := if raw < 0 then 0 else raw.toNat

section Loads

variable (g : Chunking) (KV : Nat → Nat → α) (idxRow : Nat → Int)

/-- `load_tile`. -/
def loadTile (tile tid : Nat) : Regs α where
  pf i e :=
    let c := g.chunk tid i
    KV (clamp (idxRow (tile * kBI + c / g.cpr))) (c % g.cpr * g.elems + e)
  validBits i := decide (0 ≤ idxRow (tile * kBI + g.chunk tid i / g.cpr))

/-- `load_idx`. -/
def loadIdx (tile tid : Nat) (i : Nat) : Int := idxRow (tile * kBI + g.chunk tid i / g.cpr)

/-- `load_kv`. -/
def loadKv (ix : Nat → Int) (tid : Nat) : Regs α where
  pf i e := KV (clamp (ix i)) (g.chunk tid i % g.cpr * g.elems + e)
  validBits i := decide (0 ≤ ix i)

/-- **`load_idx` and `load_kv` on one tile leave what `load_tile` leaves.** -/
theorem loadKv_loadIdx (tile tid : Nat) : loadKv g KV (loadIdx g idxRow tile tid) tid = loadTile g
    KV idxRow tile tid := rfl

end Loads

/-! ## Publishing a tile -/

/-- The shared tile: rows and flags. -/
structure Tile (R : Type) where
  kv : Nat × Nat → R
  valid : Nat → Bool

section Stores

variable (g : Chunking) (conv : α → R)

/-- The stores of `store_tile` to the rows, thread by thread. -/
def storeKv (regs : Nat → Regs α) : Launch (Nat × Nat) R :=
  (List.range g.threads).map fun tid => (List.range g.npf).flatMap fun i =>
    let c := g.chunk tid i
    (List.range g.elems).map fun e => ((c / g.cpr, c % g.cpr * g.elems + e),
      conv ((regs tid).pf i e))

/-- Its stores to the flags: the thread that publishes a row's first chunk. -/
def storeValid (regs : Nat → Regs α) : Launch Nat Bool :=
  (List.range g.threads).map fun tid => ((List.range g.npf).filter fun i =>
    g.chunk tid i % g.cpr = 0).map fun i =>
    (g.chunk tid i / g.cpr, (regs tid).validBits i)

/-- `store_tile`, one thread after another. -/
def storeTile (regs : Nat → Regs α) (t : Tile R) : Tile R :=
  ⟨stores (storeKv g conv regs).flatten t.kv, stores (storeValid g regs).flatten t.valid⟩

variable {g}

/-- Every chunk is some thread's. -/
theorem exists_chunk {c : Nat} (h : c < kBI * g.cpr) : ∃ tid i, tid < g.threads ∧ i < g.npf ∧
    g.chunk tid i = c := by
  refine ⟨c % g.threads, c / g.threads, Nat.mod_lt _ g.threads_pos, ?_, ?_⟩
  · exact Nat.div_lt_of_lt_mul (by rw [Nat.mul_comm, g.npf_mul]; exact h)
  · unfold Chunking.chunk
    rw [Nat.mul_comm]
    exact Nat.mod_add_div _ _

theorem mem_storeKv {regs : Nat → Regs α} {k : Nat × Nat} {v : R} :
    Stores (storeKv g conv regs) k v ↔
    ∃ tid i e, tid < g.threads ∧ i < g.npf ∧ e < g.elems ∧
      k = (g.chunk tid i / g.cpr, g.chunk tid i % g.cpr * g.elems + e) ∧
      v = conv ((regs tid).pf i e) := by
  unfold Stores storeKv
  constructor
  · rintro ⟨p, hp, hkv⟩
    obtain ⟨tid, htid, rfl⟩ := List.mem_map.mp hp
    obtain ⟨i, hi, hkv⟩ := List.mem_flatMap.mp hkv
    obtain ⟨e, he, heq⟩ := List.mem_map.mp hkv
    obtain ⟨rfl, rfl⟩ := Prod.mk.inj heq
    exact ⟨tid, i, e, List.mem_range.mp htid, List.mem_range.mp hi, List.mem_range.mp he, rfl, rfl⟩
  · rintro ⟨tid, i, e, htid, hi, he, rfl, rfl⟩
    exact ⟨_, List.mem_map_of_mem (List.mem_range.mpr htid),
      List.mem_flatMap.mpr ⟨i, List.mem_range.mpr hi,
      List.mem_map_of_mem (List.mem_range.mpr he)⟩⟩

theorem mem_storeValid {regs : Nat → Regs α} {r : Nat} {v : Bool} : Stores (storeValid g regs) r v ↔
    ∃ tid i, tid < g.threads ∧ i < g.npf ∧ g.chunk tid i % g.cpr = 0 ∧ r = g.chunk tid i / g.cpr ∧
      v = (regs tid).validBits i := by
  unfold Stores storeValid
  constructor
  · rintro ⟨p, hp, hrv⟩
    obtain ⟨tid, htid, rfl⟩ := List.mem_map.mp hp
    obtain ⟨i, hi, heq⟩ := List.mem_map.mp hrv
    obtain ⟨hi, hzero⟩ := List.mem_filter.mp hi
    obtain ⟨rfl, rfl⟩ := Prod.mk.inj heq
    exact ⟨tid, i, List.mem_range.mp htid, List.mem_range.mp hi, by simpa using hzero, rfl, rfl⟩
  · rintro ⟨tid, i, htid, hi, hzero, rfl, rfl⟩
    exact ⟨_, List.mem_map_of_mem (List.mem_range.mpr htid), List.mem_map.mpr
      ⟨i, List.mem_filter.mpr ⟨List.mem_range.mpr hi, by simpa using hzero⟩, rfl⟩⟩

/-- **The rows of a tile**, whatever the order of the stores. -/
theorem kv_outcome {KV : Nat → Nat → α} {idxRow : Nat → Int} {tile : Nat} {m m' : Nat × Nat → R}
    (h : Outcome (storeKv g conv (loadTile g KV idxRow tile)) m m') {r d : Nat} (hr : r < kBI)
    (hd : d < kDim) :
    m' (r, d) = conv (KV (clamp (idxRow (tile * kBI + r))) d) := by
  have hcpr : d / g.elems < g.cpr := Nat.div_lt_of_lt_mul
    (by rw [Nat.mul_comm, g.cpr_mul]; exact hd)
  have hpos : 0 < g.cpr := Nat.zero_lt_of_lt hcpr
  -- what is stored to an element is told by its place
  have hone : ∀ v, Stores (storeKv g conv (loadTile g KV idxRow tile)) (r, d) v →
      v = conv (KV (clamp (idxRow (tile * kBI + r))) d) := by
    intro v hv
    obtain ⟨tid, i, e, -, -, -, hk, rfl⟩ := (mem_storeKv conv).mp hv
    obtain ⟨hrow, hdim⟩ := Prod.mk.inj hk
    simp only [loadTile, ← hrow, ← hdim]
  obtain ⟨tid, i, htid, hi, hc⟩ := exists_chunk (g := g) (digits_lt hr hcpr)
  refine h.stored ((mem_storeKv conv).mpr ⟨tid, i, d % g.elems, htid, hi,
    Nat.mod_lt _ g.elems_pos, ?_, ?_⟩) hone
  · rw [hc, Nat.add_comm, Nat.add_mul_div_right _ _ hpos, Nat.div_eq_of_lt hcpr, Nat.zero_add,
      Nat.add_mul_mod_self_right, Nat.mod_eq_of_lt hcpr, Nat.div_add_mod']
  · simp only [loadTile, hc]
    rw [Nat.add_comm (r * g.cpr), Nat.add_mul_div_right _ _ hpos,
      Nat.div_eq_of_lt hcpr, Nat.zero_add,
      Nat.add_mul_mod_self_right, Nat.mod_eq_of_lt hcpr, Nat.div_add_mod']

/-- **The flags of a tile**, whatever the order of the stores. -/
theorem valid_outcome {KV : Nat → Nat → α} {idxRow : Nat → Int} {tile : Nat} {m m' : Nat → Bool}
    (h : Outcome (storeValid g (loadTile g KV idxRow tile)) m m') {r : Nat} (hr : r < kBI) :
    m' r = decide (0 ≤ idxRow (tile * kBI + r)) := by
  have hpos : 0 < g.cpr := Nat.pos_of_ne_zero fun h0 => by
    have := g.cpr_mul
    rw [h0, Nat.zero_mul] at this
    cases this
  have hone : ∀ v, Stores (storeValid g (loadTile g KV idxRow tile)) r v →
    v = decide (0 ≤ idxRow (tile * kBI + r)) := by
    intro v hv
    obtain ⟨tid, i, -, -, -, rfl, rfl⟩ := mem_storeValid.mp hv
    rfl
  obtain ⟨tid, i, htid, hi, hc⟩ := exists_chunk (g := g) (Nat.mul_lt_mul_of_pos_right hr hpos)
  refine h.stored (mem_storeValid.mpr ⟨tid, i, htid, hi, ?_, ?_, ?_⟩) hone
  · rw [hc, Nat.mul_mod_left]
  · rw [hc, Nat.mul_div_cancel _ hpos]
  · simp only [loadTile, hc, Nat.mul_div_cancel _ hpos]

/-- The tile holds what its indices name. -/
structure Holds (conv : α → R) (KV : Nat → Nat → α) (idxRow : Nat → Int) (tile : Nat)
    (t : Tile R) : Prop where
  kv : ∀ r < kBI, ∀ d < kDim, t.kv (r, d) = conv (KV (clamp (idxRow (tile * kBI + r))) d)
  valid : ∀ r < kBI, t.valid r = decide (0 ≤ idxRow (tile * kBI + r))

/-- **A published tile**: any order of the stores leaves the rows and flags that one thread after
another leaves. -/
theorem storeTile_holds (KV : Nat → Nat → α) (idxRow : Nat → Int) (tile : Nat) (t : Tile R) :
    Holds conv KV idxRow tile (storeTile g conv (loadTile g KV idxRow tile) t) :=
  ⟨fun _ hr _ hd => kv_outcome conv outcome_serial hr hd, fun _ hr =>
    valid_outcome outcome_serial hr⟩

end Stores

/-! ## The loop over the tiles -/

section Loop

variable {σ : Type} (g : Chunking) (conv : α → R) (KV : Nat → Nat → α) (idxRow : Nat → Int)
    (numTiles : Nat)
  (body : Tile R → σ → σ)

/-- Registers, shared tile, and what the body has computed. -/
structure LoopState (α R σ : Type) where
  regs : Nat → Regs α
  tile : Tile R
  state : σ

/-- The loop of `sparse_fwd_kernel`, before tile `n`. -/
def plainAt (s : LoopState α R σ) : Nat → LoopState α R σ
  | 0 => { s with regs := if 0 < numTiles then loadTile g KV idxRow 0 else s.regs }
  | n + 1 =>
    let s := plainAt s n
    let tile := storeTile g conv s.regs s.tile
    { regs := if n + 1 < numTiles then loadTile g KV idxRow (n + 1) else s.regs, tile := tile,
      state := body tile s.state }

/-- The loop of `sparse_fwd_pipe_kernel`, before tile `n`: with the indices that are loaded ahead.
-/
def pipeAt (ix : Nat → Nat → Int) (s : LoopState α R σ) : Nat → (Nat → Nat → Int) × LoopState α R σ
  | 0 =>
    let ix := if 0 < numTiles then loadIdx g idxRow 0 else ix
    let regs := if 0 < numTiles then fun tid => loadKv g KV (ix tid) tid else s.regs
    (if 1 < numTiles then loadIdx g idxRow 1 else ix, { s with regs := regs })
  | n + 1 =>
    let (ix, s) := pipeAt ix s n
    let tile := storeTile g conv s.regs s.tile
    let regs := if n + 1 < numTiles then fun tid => loadKv g KV (ix tid) tid else s.regs
    let ix := if n + 1 < numTiles ∧ n + 2 < numTiles then loadIdx g idxRow (n + 2) else ix
    (ix, { regs := regs, tile := tile, state := body tile s.state })

variable {g conv KV idxRow numTiles body} {s : LoopState α R σ}

/-- What the plain loop has loaded. -/
theorem plainAt_regs {n : Nat} (h : n < numTiles) :
    (plainAt g conv KV idxRow numTiles body s n).regs = loadTile g KV idxRow n := by
  cases n with
  | zero => exact if_pos h
  | succ n => exact if_pos h

/-- What the plain loop has published. -/
theorem plainAt_holds {n : Nat} (h : n < numTiles) :
    Holds conv KV idxRow n (plainAt g conv KV idxRow numTiles body s (n + 1)).tile := by
  unfold plainAt
  simp only [plainAt_regs h]
  exact storeTile_holds conv KV idxRow n _

/-- The pipelined loop has the indices of the next tile. -/
theorem pipeAt_ix {ix : Nat → Nat → Int} {n : Nat} (h : n + 1 < numTiles) :
    (pipeAt g conv KV idxRow numTiles body ix s n).1 = loadIdx g idxRow (n + 1) := by
  cases n with
  | zero => exact if_pos h
  | succ n => exact if_pos ⟨Nat.lt_of_succ_lt h, h⟩

/-- **The pipelined loop does what the plain one does**: registers, published tile and results at
every tile. -/
theorem pipeAt_eq (ix : Nat → Nat → Int) : ∀ {n : Nat}, n ≤ numTiles →
    (pipeAt g conv KV idxRow numTiles body ix s n).2 = plainAt g conv KV idxRow numTiles body s n
  | 0, _ => by
    unfold pipeAt plainAt
    by_cases h : 0 < numTiles
    · simp only [if_pos h, loadKv_loadIdx]
    · simp only [if_neg h]
  | n + 1, h => by
    have ih := pipeAt_eq ix (n := n) (Nat.le_of_succ_le h)
    unfold pipeAt plainAt
    simp only [ih]
    by_cases hnext : n + 1 < numTiles
    · simp only [if_pos hnext, pipeAt_ix hnext, loadKv_loadIdx]
    · simp only [if_neg hnext]

end Loop

end Ringside.SparseMla

import Ringside.Races

/-!
# The route table of the decode fast path (`patch_b12x_moe_decode.py`)

Every CTA of the MoE decode kernel resolves the whole routing in its shared memory, in phases
between barriers: the rows of each expert and each route's rank among them (phases 1 and 2), the
expert's first tile by a two-level prefix scan (phases 3 and 4), and the physical row of every route
(phase 5).

* The threads of a phase store at once; a thread reads only what no other thread stores in the
  phase. A phase of one thread is a loop. The phases are barriers apart, as in the source.
* Words of shared memory are `Int32`. Only the packing of rows and tile base into one word gets near
  its bounds and is written with bit vectors; everything else is a count of at most 256 routes, here
  an integer.
* `Config` is what `configure_decode_fastpath` sets, with its refusals; `decodeFastpathSelected` is
  the host's guard on a launch. `Admitted` is what the device code needs of both.
* A route with an id outside the experts takes part in nothing (`Active`).

Results:
* `rankPass_spec`: rows of the experts and ranks of the routes.
* `scanPass_spec`, `packed_spec`: the tile bases, and a word that gives back what was packed.
* `tileBase_le`: there are no more tiles than routes.
* `table_spec`: what every run of the phases leaves.
* `configure_spec`, `admitted_of_rows`, `selected_bounds`: what the host's configuration and guard
  admit.
-/

namespace Ringside.MoeDecode

open Ringside.Races

/-! ## Configuration and dispatch -/

/-- The kernel on which the fast path is configured. -/
structure Backend where
  quantNvfp4 : Bool
  isW4a8 : Bool
  isW6a8 : Bool
  directRouting : Bool
  deterministicOutput : Bool
  swapAb : Bool
  materializeIntermediate : Bool
  w4a8M1Materialized : Bool
  materializedQueue : Bool
  threadsPerCta : Nat

/-- What `configure_decode_fastpath` sets. -/
structure Config where
  numExperts : Nat
  maxPairs : Nat
  scanSpan : Nat
  kSplits : Nat
  threads : Nat
  sfBlocks : Nat

/-- `configure_decode_fastpath`. -/
def configureDecodeFastpath (b : Backend) (numExperts maxPairs hiddenSize kSplits : Int) :
    Except String Config := do
  if b.quantNvfp4 = false ∨ b.isW4a8 ∨ b.isW6a8 then
    throw "decode fast path requires the nvfp4 recipe"
  if b.directRouting ∨ b.deterministicOutput ∨ b.swapAb then
    throw "decode fast path requires grouped, non-deterministic, non-swapped NVFP4 routing"
  if b.materializeIntermediate ∨ b.w4a8M1Materialized then
    throw "decode fast path excludes materialized regimes"
  if b.materializedQueue = false then throw "decode fast path requires the materialized work queue"
  if numExperts < 1 ∨ ¬ (1 ≤ maxPairs ∧ maxPairs < 65536) then
    throw s!"decode fast path geometry out of range: E={numExperts}, max_pairs={maxPairs}"
  if hiddenSize % 16 ≠ 0 then throw "decode fast path requires hidden_size % 16 == 0"
  let sfBlocks := hiddenSize / 16
  let kSplits := if kSplits < 1 ∨ sfBlocks % kSplits ≠ 0 then 1 else kSplits
  return ⟨numExperts.toNat, maxPairs.toNat,
    ((numExperts + b.threadsPerCta - 1) / b.threadsPerCta).toNat,
    kSplits.toNat, b.threadsPerCta, sfBlocks.toNat⟩

/-- `_GLM53_DECODE_FASTPATH_MAX_ROWS`, from the environment's number. -/
def decodeFastpathMaxRows (env : Int) : Int := max 0 (min 256 env)

/-- `_glm53_decode_fastpath_selected`. -/
def decodeFastpathSelected (on : Bool) (maxRows : Int) (nvfp4 silu : Bool) (routedRows n : Int)
    (directRouting deterministicOutput w4a8Repacked : Bool) (selectedTileM : Int)
    (materializedQueue : Bool) : Bool :=
  on && (nvfp4 && silu && !w4a8Repacked && !directRouting && !deterministicOutput &&
    (decide (0 < routedRows) && decide (routedRows ≤ maxRows)) && decide (selectedTileM = 16) &&
    decide (n % 128 = 0) &&
    materializedQueue)

/-! ## The phases

A phase of many threads is a launch, with any outcome that its stores allow; a phase of one thread
is a function of the tables. Between two phases there is a barrier.
-/

/-- The shared-memory tables. -/
inductive Slot where
  | hist (e : Nat)
  | pair (p : Nat)
  | scan (t : Nat)
deriving DecidableEq

abbrev Mem := Slot → Int

/-- `rows | (base << 16)`. -/
def packWord (rows base : Int) : Int := (BitVec.ofInt 32 rows ||| BitVec.ofInt 32 base <<< 16).toInt

/-- `word & 0xFFFF`. -/
def wordRows (word : Int) : Int := (BitVec.ofInt 32 word &&& 0xFFFF#32).toInt

/-- `word >> 16`. -/
def wordBase (word : Int) : Int := ((BitVec.ofInt 32 word).sshiftRight 16).toInt

section Phases

variable (c : Config) (tileM totalPairs : Nat) (topkIds : Nat → Int)

/-- Phase 1: the histogram is zeroed and the ids staged. -/
def stage : Launch Slot Int := (List.range c.threads).map fun t =>
  (strided t c.numExperts c.threads).map (fun e => (Slot.hist e, 0)) ++
    (strided t totalPairs c.threads).map fun p => (Slot.pair p, topkIds p)

/-- The expert takes routes. -/
def Active (e : Int) : Prop := 0 ≤ e ∧ e < c.numExperts

instance (e : Int) : Decidable (Active c e) := inferInstanceAs (Decidable (_ ∧ _))

/-- A turn of phase 2. -/
def rankTurn (m : Mem) (p : Nat) : Mem :=
  let e := m (.pair p)
  if Active c e then
    let rank := m (.hist e.toNat)
    Function.update (Function.update m (.hist e.toNat) (rank + 1)) (.pair p) rank
  else Function.update m (.pair p) (-1)

/-- Phase 2: one thread replaces each id by its rank. -/
def rankPass (m : Mem) : Mem := (List.range totalPairs).foldl (rankTurn c) m

/-- `(rows + tile_m - 1) // tile_m`. -/
def tilesOf (rows : Int) : Int := (rows + tileM - 1) / tileM

/-- The tiles of the experts of a thread, as far as it has come. -/
def localTiles (m : Mem) (t n : Nat) : Int :=
  (List.range n).foldl (fun acc j =>
    let e := t * c.scanSpan + j
    if e < c.numExperts then acc + tilesOf tileM (m (.hist e)) else acc) 0

/-- Phase 3: the partials of the threads. -/
def partials (m : Mem) : Launch Slot Int := (List.range c.threads).map fun t =>
  [(.scan t, localTiles c tileM m t c.scanSpan)]

/-- Phase 3: one thread scans the partials. -/
def scanPass (m : Mem) : Mem :=
  let s := (List.range c.threads).foldl (fun (s : Mem × Int) t =>
    (Function.update s.1 (.scan t) s.2, s.2 + s.1 (.scan t))) (m, 0)
  Function.update s.1 (.scan c.threads) s.2

/-- Phase 4, one thread: its experts' words, as far as it has come. -/
def packLoop (m : Mem) (t n : Nat) : Int × List (Slot × Int) :=
  (List.range n).foldl (fun (s : Int × List (Slot × Int)) j =>
    let e := t * c.scanSpan + j
    if e < c.numExperts then
      let rows := m (.hist e)
      (s.1 + tilesOf tileM rows, s.2 ++ [(.hist e, packWord rows s.1)])
    else s) (m (.scan t), [])

/-- Phase 4: rows and tile base in one word. -/
def packed (m : Mem) : Launch Slot Int := (List.range c.threads).map fun t =>
    (packLoop c tileM m t c.scanSpan).2

/-- Phase 5, one route. -/
def physicalRow (m : Mem) (p : Nat) : Int :=
  let rank := m (.pair p)
  if 0 ≤ rank then
    let base := wordBase (m (.hist (topkIds p).toNat))
    (base + rank / tileM) * tileM + rank % tileM
  else -1

/-- Phase 5: the physical row of every route. -/
def place (m : Mem) : Launch Slot Int := (List.range c.threads).map fun t =>
  (strided t totalPairs c.threads).map fun p => (.pair p, physicalRow tileM topkIds m p)

/-- What the phases of a CTA may leave in its shared memory. -/
def Table (m m' : Mem) : Prop :=
  ∃ m₁ m₂ m₃, Outcome (stage c totalPairs topkIds) m m₁ ∧
    Outcome (partials c tileM (rankPass c totalPairs m₁)) (rankPass c totalPairs m₁) m₂ ∧
    Outcome (packed c tileM (scanPass c m₂)) (scanPass c m₂) m₃ ∧
    Outcome (place c tileM totalPairs topkIds m₃) m₃ m'

end Phases

/-! ## What the table says

The specification of the table: how many routes an expert has, which rank a route has among them,
and where the rows of the expert begin. It is stated on the ids, and knows of no thread.
-/

section Spec

variable (c : Config) (tileM totalPairs : Nat) (topkIds : Nat → Int)

/-- The routes that an expert takes. -/
def rowsOf (e : Nat) : Nat := Nat.count (fun p => topkIds p = e) totalPairs

/-- A route's rank, in pair order, among those of its expert. -/
def rankOf (p : Nat) : Nat := Nat.count (fun q => topkIds q = topkIds p) p

/-- The M tiles of an expert. -/
def tiles (e : Nat) : Nat := (rowsOf totalPairs topkIds e + tileM - 1) / tileM

/-- The exclusive prefix sum of the tiles. -/
def tileBase (e : Nat) : Nat := ∑ e' ∈ Finset.range e, tiles tileM totalPairs topkIds e'

/-- The row of a route: its rank from the first row of its expert's first tile. -/
def rowOf (p : Nat) : Int :=
  if Active c (topkIds p) then
    tileBase tileM totalPairs topkIds (topkIds p).toNat * tileM + rankOf topkIds p else -1

end Spec

section Proofs

variable {c : Config} {tileM totalPairs : Nat} {topkIds : Nat → Int} {m m' : Mem}

theorem stores_stage (hthreads : 0 < c.threads) {k : Slot} {v : Int} :
    Stores (stage c totalPairs topkIds) k v ↔
    (∃ e < c.numExperts, k = .hist e ∧ v = 0) ∨ ∃ p < totalPairs, k = .pair p ∧ v = topkIds p := by
  refine Iff.trans ?_ (or_congr (exists_strided hthreads) (exists_strided hthreads))
  unfold Stores stage
  simp only [List.mem_map, List.mem_range, exists_exists_and_eq_and, List.mem_append,
    Prod.mk.injEq, and_or_left, exists_or, eq_comm (a := k), eq_comm (a := v)]

/-- What phase 1 leaves. -/
theorem stage_spec (hthreads : 0 < c.threads) (h : Outcome (stage c totalPairs topkIds) m m') :
    (∀ e < c.numExperts, m' (.hist e) = 0) ∧ ∀ p < totalPairs, m' (.pair p) = topkIds p := by
  constructor
  · intro e he
    refine h.stored ((stores_stage hthreads).mpr (Or.inl ⟨e, he, rfl, rfl⟩)) fun v hv => ?_
    obtain ⟨_, _, _, hv⟩ | ⟨_, _, hk, _⟩ := (stores_stage hthreads).mp hv
    · exact hv
    · cases hk
  · intro p hp
    refine h.stored ((stores_stage hthreads).mpr (Or.inr ⟨p, hp, rfl, rfl⟩)) fun v hv => ?_
    obtain ⟨_, _, hk, _⟩ | ⟨_, _, hk, hv⟩ := (stores_stage hthreads).mp hv
    · cases hk
    · cases hk
      exact hv

/-- The tables after `j` turns of phase 2. -/
structure Ranked (c : Config) (totalPairs : Nat) (topkIds : Nat → Int) (j : Nat)
    (m : Mem) : Prop where
  hist : ∀ e < c.numExperts, m (.hist e) = (rowsOf j topkIds e : Nat)
  done : ∀ p < j, m (.pair p) = if Active c (topkIds p) then
    ((rankOf topkIds p : Nat) : Int) else -1
  left : ∀ p, j ≤ p → p < totalPairs → m (.pair p) = topkIds p

/-- One turn of phase 2. -/
theorem Ranked.turn {j : Nat} (h : Ranked c totalPairs topkIds j m) (hj : j < totalPairs) :
    Ranked c totalPairs topkIds (j + 1) (rankTurn c m j) := by
  have hid := h.left j le_rfl hj
  have hcount : ∀ e, rowsOf (j + 1) topkIds e = rowsOf j topkIds e + if topkIds j = e then
    1 else 0 := fun e =>
    Nat.count_succ _ _
  unfold rankTurn
  dsimp only
  rw [hid]
  by_cases hactive : Active c (topkIds j)
  · rw [if_pos hactive]
    obtain ⟨e, he⟩ := Int.eq_ofNat_of_zero_le hactive.1
    have hlt : e < c.numExperts := by
      have := hactive.2
      omega
    rw [he, Int.toNat_natCast, h.hist e hlt]
    refine ⟨fun e' he' => ?_, fun p hp => ?_, fun p hp hpt => ?_⟩
    · rw [Function.update_of_ne (by simp), hcount, he]
      by_cases heq : e' = e
      · rw [heq, Function.update_self, if_pos rfl]
        rfl
      · rw [Function.update_of_ne (by simpa using heq), h.hist e' he',
          if_neg (by simpa using Ne.symm heq)]
        rfl
    · rcases Nat.lt_succ_iff_lt_or_eq.mp hp with hlt' | rfl
      · rw [Function.update_of_ne (by simp; omega), Function.update_of_ne (by simp), h.done p hlt']
      · rw [Function.update_self, if_pos hactive, rankOf, he]
        rfl
    · rw [Function.update_of_ne (by simp; omega), Function.update_of_ne (by simp),
        h.left p (by omega) hpt]
  · rw [if_neg hactive]
    refine ⟨fun e' he' => ?_, fun p hp => ?_, fun p hp hpt => ?_⟩
    · rw [Function.update_of_ne (by simp), hcount, h.hist e' he', if_neg]
      · rfl
      · rintro heq
        exact hactive ⟨by omega, by omega⟩
    · rcases Nat.lt_succ_iff_lt_or_eq.mp hp with hlt' | rfl
      · rw [Function.update_of_ne (by simp; omega), h.done p hlt']
      · rw [Function.update_self, if_neg hactive]
    · rw [Function.update_of_ne (by simp; omega), h.left p (by omega) hpt]

/-- **Phase 2**: rows of the experts, ranks of the routes. -/
theorem rankPass_spec (hhist : ∀ e < c.numExperts, m (.hist e) = 0)
    (hpair : ∀ p < totalPairs, m (.pair p) = topkIds p) :
    Ranked c totalPairs topkIds totalPairs (rankPass c totalPairs m) := by
  have hloop : ∀ j ≤ totalPairs, Ranked c totalPairs topkIds j
    ((List.range j).foldl (rankTurn c) m) := by
    intro j hj
    induction j with
    | zero =>
      exact ⟨fun e he => by rw [rowsOf, Nat.count_zero]; exact hhist e he, nofun,
        fun p _ hp => hpair p hp⟩
    | succ j ih =>
      rw [List.range_succ, List.foldl_append]
      exact (ih (by omega)).turn hj
  exact hloop totalPairs le_rfl

/-! ## Packed words -/

theorem toInt_ofNat {w : Nat} (hw : w < 2 ^ 31) : (BitVec.ofNat 32 w).toInt = w := by
  have hlt : (BitVec.ofNat 32 w).toNat = w := by
    rw [BitVec.toNat_ofNat, Nat.mod_eq_of_lt (by omega)]
  rw [BitVec.toInt_eq_toNat_of_lt (by omega), hlt]

/-- The packed word. -/
theorem packWord_eq {rows base : Nat} (hrows : rows < 2 ^ 16) (hbase : base < 2 ^ 15) :
    packWord rows base = (base * 2 ^ 16 + rows : Nat) := by
  have hor : base <<< 16 ||| rows = base * 2 ^ 16 + rows := by
    rw [← Nat.shiftLeft_add_eq_or_of_lt hrows, Nat.shiftLeft_eq]
  unfold packWord
  rw [BitVec.ofInt_natCast, BitVec.ofInt_natCast]
  have hword : BitVec.ofNat 32 rows ||| BitVec.ofNat 32 base <<< 16 =
    BitVec.ofNat 32 (base * 2 ^ 16 + rows) := by
    apply BitVec.eq_of_toNat_eq
    rw [BitVec.toNat_or, BitVec.toNat_shiftLeft, BitVec.toNat_ofNat, BitVec.toNat_ofNat,
      BitVec.toNat_ofNat,
      Nat.mod_eq_of_lt (show rows < 2 ^ 32 by omega),
      Nat.mod_eq_of_lt (show base < 2 ^ 32 by omega),
      Nat.mod_eq_of_lt (show base <<< 16 < 2 ^ 32 by rw [Nat.shiftLeft_eq]; omega),
      Nat.or_comm, hor, Nat.mod_eq_of_lt (by omega)]
  rw [hword, toInt_ofNat (by omega)]

/-- **A word gives back what was packed.** -/
theorem word_unpack {rows base : Nat} (hrows : rows < 2 ^ 16) (hbase : base < 2 ^ 15) :
    wordRows (packWord rows base) = rows ∧ wordBase (packWord rows base) = base := by
  rw [packWord_eq hrows hbase]
  constructor
  · unfold wordRows
    rw [BitVec.ofInt_natCast]
    have hand : BitVec.ofNat 32 (base * 2 ^ 16 + rows) &&& 0xFFFF#32 = BitVec.ofNat 32 rows := by
      apply BitVec.eq_of_toNat_eq
      rw [BitVec.toNat_and, BitVec.toNat_ofNat, BitVec.toNat_ofNat, BitVec.toNat_ofNat,
        Nat.mod_eq_of_lt (show base * 2 ^ 16 + rows < 2 ^ 32 by omega),
        Nat.mod_eq_of_lt (show rows < 2 ^ 32 by omega)]
      show (base * 2 ^ 16 + rows) &&& (2 ^ 16 - 1) = rows
      rw [Nat.and_two_pow_sub_one_eq_mod]
      omega
    rw [hand, toInt_ofNat (by omega)]
  · unfold wordBase
    rw [BitVec.ofInt_natCast, BitVec.toInt_sshiftRight, toInt_ofNat (by omega),
      Int.shiftRight_eq_div_pow]
    omega
/-! ## The tile bases

A scan in two levels: each thread sums its own experts, one thread scans the sums, and each thread
goes over its experts again from its base.
-/

theorem tilesOf_rows (hm : 0 < tileM) {e : Nat}
    (h : m (.hist e) = (rowsOf totalPairs topkIds e : Nat)) :
    tilesOf tileM (m (.hist e)) = (tiles tileM totalPairs topkIds e : Nat) := by
  rw [tilesOf, tiles, h]
  push_cast
  congr 1
  omega

theorem tileBase_succ (e : Nat) : tileBase tileM totalPairs topkIds (e + 1) =
    tileBase tileM totalPairs topkIds e + tiles tileM totalPairs topkIds e :=
    Finset.sum_range_succ _ _

/-- The partials of phase 3. -/
theorem partials_spec (h : Outcome (partials c tileM m) m m') :
    (∀ t < c.threads, m' (.scan t) = localTiles c tileM m t c.scanSpan) ∧
      ∀ k, (∀ t, k ≠ .scan t) → m' k = m k := by
  have hstores : ∀ {k v}, Stores (partials c tileM m) k v ↔
      ∃ t < c.threads, k = .scan t ∧ v = localTiles c tileM m t c.scanSpan := by
    intro k v
    unfold Stores partials
    simp only [List.mem_map, List.mem_range, exists_exists_and_eq_and, List.mem_singleton,
      Prod.mk.injEq]
  refine ⟨fun t ht => h.stored (hstores.mpr ⟨t, ht, rfl, rfl⟩) fun v hv => ?_, fun k hk =>
    h.kept fun v hv => ?_⟩
  · obtain ⟨t', _, hk, rfl⟩ := hstores.mp hv
    cases hk
    rfl
  · obtain ⟨t, _, rfl, _⟩ := hstores.mp hv
    exact hk t rfl

section Scan

variable (hm : 0 < tileM) (hhist : ∀ e < c.numExperts,
    m (.hist e) = (rowsOf totalPairs topkIds e : Nat))

include hm hhist in
/-- **The local sums** go from the base of a thread's first expert to that of the next. -/
theorem localTiles_spec (t n : Nat) :
    (tileBase tileM totalPairs topkIds (min (t * c.scanSpan) c.numExperts) : Int) + localTiles
      c tileM m t n =
      (tileBase tileM totalPairs topkIds (min (t * c.scanSpan + n) c.numExperts) : Nat) := by
  induction n with
  | zero => simp [localTiles]
  | succ n ih =>
    unfold localTiles at ih ⊢
    rw [List.range_succ, List.foldl_append, List.foldl_cons, List.foldl_nil]
    dsimp only
    split_ifs with he
    · rw [← add_assoc, ih, tilesOf_rows hm (hhist _ he), min_eq_left he.le, min_eq_left (by omega),
        ← Nat.cast_add, ← tileBase_succ, Nat.add_assoc]
    · rw [ih, min_eq_right (by omega), min_eq_right (by omega)]

/-- **The scan** leaves at each thread the base of its first expert, and the number of tiles behind
them. -/
theorem scanPass_spec (hscan : ∀ t < c.threads,
      (tileBase tileM totalPairs topkIds (min (t * c.scanSpan) c.numExperts) : Int) + m (.scan t) =
        (tileBase tileM totalPairs topkIds (min (t * c.scanSpan + c.scanSpan) c.numExperts) :
        Nat)) :
    (∀ t ≤ c.threads, scanPass c m (.scan t) =
      (tileBase tileM totalPairs topkIds (min (t * c.scanSpan) c.numExperts) : Nat)) ∧
      ∀ k, (∀ t, k ≠ .scan t) → scanPass c m k = m k := by
  have hloop : ∀ j ≤ c.threads,
      let s := (List.range j).foldl (fun (s : Mem × Int) t =>
        (Function.update s.1 (.scan t) s.2, s.2 + s.1 (.scan t))) (m, 0)
      s.2 = (tileBase tileM totalPairs topkIds (min (j * c.scanSpan) c.numExperts) : Nat) ∧
        (∀ t < j, s.1 (.scan t) = (tileBase tileM totalPairs topkIds
        (min (t * c.scanSpan) c.numExperts) : Nat)) ∧
        (∀ t, j ≤ t → s.1 (.scan t) = m (.scan t)) ∧ ∀ k, (∀ t, k ≠ .scan t) → s.1 k = m k := by
    intro j hj
    induction j with
    | zero => simp [tileBase]
    | succ j ih =>
      dsimp only at ih ⊢
      rw [List.range_succ, List.foldl_append, List.foldl_cons, List.foldl_nil]
      generalize (List.range j).foldl _ (m, (0 : Int)) = s at ih ⊢
      obtain ⟨hacc, hdone, hleft, hrest⟩ := ih (by omega)
      dsimp only
      refine ⟨?_, fun t ht => ?_, fun t ht => ?_, fun k hk => ?_⟩
      · rw [hacc, hleft j le_rfl, hscan j (by omega), Nat.succ_mul]
      · rcases Nat.lt_succ_iff_lt_or_eq.mp ht with hlt | rfl
        · rw [Function.update_of_ne (by simp; omega), hdone t hlt]
        · rw [Function.update_self, hacc]
      · rw [Function.update_of_ne (by simp; omega), hleft t (by omega)]
      · rw [Function.update_of_ne (hk j), hrest k hk]
  obtain ⟨hacc, hdone, -, hrest⟩ := hloop c.threads le_rfl
  unfold scanPass
  generalize (List.range c.threads).foldl _ (m, (0 : Int)) = s at hacc hdone hrest ⊢
  refine ⟨fun t ht => ?_, fun k hk => ?_⟩
  · rcases Nat.lt_or_eq_of_le ht with hlt | rfl
    · rw [Function.update_of_ne (by simp; omega), hdone t hlt]
    · rw [Function.update_self, hacc]
  · rw [Function.update_of_ne (hk _), hrest k hk]

include hm hhist in
/-- The words of a thread's experts, as far as it has come. -/
theorem packLoop_spec {t : Nat}
    (hscan : m (.scan t) = (tileBase tileM totalPairs topkIds (min (t * c.scanSpan) c.numExperts) :
      Nat)) (n : Nat) :
    (packLoop c tileM m t n).1 = (tileBase tileM totalPairs topkIds
      (min (t * c.scanSpan + n) c.numExperts) : Nat) ∧
      ∀ k v, (k, v) ∈ (packLoop c tileM m t n).2 ↔ ∃ j < n, t * c.scanSpan + j < c.numExperts ∧
        k = .hist (t * c.scanSpan + j) ∧ v = packWord
          (rowsOf totalPairs topkIds (t * c.scanSpan + j) : Nat)
          (tileBase tileM totalPairs topkIds (t * c.scanSpan + j) : Nat) := by
  induction n with
  | zero => exact ⟨hscan, fun k v => iff_of_false (by simp [packLoop]) (by simp)⟩
  | succ n ih =>
    unfold packLoop at ih ⊢
    rw [List.range_succ, List.foldl_append, List.foldl_cons, List.foldl_nil]
    generalize (List.range n).foldl _ (m (.scan t), ([] : List (Slot × Int))) = s at ih ⊢
    obtain ⟨hrun, hmem⟩ := ih
    dsimp only
    have hlast : ∀ P : Nat → Prop, (∃ j < n + 1, P j) ↔ (∃ j < n, P j) ∨ P n := by
      intro P
      constructor
      · rintro ⟨j, hj, h⟩
        rcases Nat.lt_succ_iff_lt_or_eq.mp hj with hlt | rfl
        · exact Or.inl ⟨j, hlt, h⟩
        · exact Or.inr h
      · rintro (⟨j, hj, h⟩ | h)
        · exact ⟨j, by omega, h⟩
        · exact ⟨n, by omega, h⟩
    split_ifs with he
    · refine ⟨?_, fun k v => ?_⟩
      · rw [hrun, tilesOf_rows hm (hhist _ he), min_eq_left he.le, min_eq_left (by omega),
          ← Nat.cast_add, ← tileBase_succ, Nat.add_assoc]
      · rw [List.mem_append, List.mem_singleton, hmem, hlast, Prod.mk.injEq, hrun,
          min_eq_left he.le, hhist _ he]
        simp only [he, true_and]
    · refine ⟨?_, fun k v => ?_⟩
      · rw [hrun, min_eq_right (by omega), min_eq_right (by omega)]
      · rw [hmem, hlast]
        simp only [he, false_and, or_false]

include hm hhist in
/-- The words of phase 4. -/
theorem packed_spec (hspan : c.numExperts ≤ c.threads * c.scanSpan)
    (hscan : ∀ t ≤ c.threads, m (.scan t) = (tileBase tileM totalPairs topkIds
      (min (t * c.scanSpan) c.numExperts) : Nat))
    (h : Outcome (packed c tileM m) m m') :
    (∀ e < c.numExperts, m' (.hist e) =
        packWord (rowsOf totalPairs topkIds e : Nat) (tileBase tileM totalPairs topkIds e : Nat)) ∧
      ∀ k, (∀ e, k ≠ .hist e) → m' k = m k := by
  have hstores : ∀ {k v}, Stores (packed c tileM m) k v ↔ ∃ e < c.numExperts, k = .hist e ∧
      v = packWord (rowsOf totalPairs topkIds e : Nat)
      (tileBase tileM totalPairs topkIds e : Nat) := by
    intro k v
    unfold Stores packed
    simp only [List.mem_map, List.mem_range, exists_exists_and_eq_and]
    constructor
    · rintro ⟨t, ht, hkv⟩
      obtain ⟨j, hj, he, hk, hv⟩ := ((packLoop_spec hm hhist (hscan t ht.le) _).2 k v).mp hkv
      exact ⟨_, he, hk, hv⟩
    · rintro ⟨e, he, hk, hv⟩
      have hpos : 0 < c.scanSpan := by
        rcases Nat.eq_zero_or_pos c.scanSpan with h0 | h0
        · rw [h0] at hspan
          omega
        · exact h0
      have ht : e / c.scanSpan < c.threads := (Nat.div_lt_iff_lt_mul hpos).mpr (by omega)
      refine ⟨e / c.scanSpan, ht, ((packLoop_spec hm hhist (hscan _ ht.le) _).2 k v).mpr
        ⟨e % c.scanSpan, ?_⟩⟩
      rw [Nat.div_add_mod']
      exact ⟨Nat.mod_lt e hpos, he, hk, hv⟩
  refine ⟨fun e he => h.stored (hstores.mpr ⟨e, he, rfl, rfl⟩) fun v hv => ?_, fun k hk =>
    h.kept fun v hv => ?_⟩
  · obtain ⟨e', _, hk, rfl⟩ := hstores.mp hv
    cases hk
    rfl
  · obtain ⟨e, _, rfl, _⟩ := hstores.mp hv
    exact hk e rfl

end Scan

/-- The rows of phase 5. -/
theorem place_spec (hthreads : 0 < c.threads)
    (h : Outcome (place c tileM totalPairs topkIds m) m m') :
    (∀ p < totalPairs, m' (.pair p) = physicalRow tileM topkIds m p) ∧ ∀ k, (∀ p, k ≠ .pair p) →
    m' k = m k := by
  have hstores : ∀ {k v}, Stores (place c tileM totalPairs topkIds m) k v ↔
      ∃ p < totalPairs, k = .pair p ∧ v = physicalRow tileM topkIds m p := by
    intro k v
    refine Iff.trans ?_ (exists_strided hthreads)
    unfold Stores place
    simp only [List.mem_map, List.mem_range, exists_exists_and_eq_and, Prod.mk.injEq,
      eq_comm (a := k), eq_comm (a := v)]
  refine ⟨fun p hp => h.stored (hstores.mpr ⟨p, hp, rfl, rfl⟩) fun v hv => ?_, fun k hk =>
    h.kept fun v hv => ?_⟩
  · obtain ⟨p', _, hk, rfl⟩ := hstores.mp hv
    cases hk
    rfl
  · obtain ⟨p, _, rfl, _⟩ := hstores.mp hv
    exact hk p rfl

/-- Every route is a row of one expert at most. -/
theorem sum_rowsOf_le (topkIds : Nat → Int) (n e : Nat) : ∑ e' ∈ Finset.range e,
    rowsOf n topkIds e' ≤ n := by
  induction n with
  | zero => simp [rowsOf]
  | succ n ih =>
    have hone : ∑ e' ∈ Finset.range e, (if topkIds n = (e' : Int) then 1 else 0) ≤ 1 := by
      rw [← Finset.card_filter]
      refine Finset.card_le_one.mpr fun a ha b hb => ?_
      have hab := (Finset.mem_filter.mp ha).2.symm.trans (Finset.mem_filter.mp hb).2
      exact_mod_cast hab
    have hstep : ∑ e' ∈ Finset.range e, rowsOf (n + 1) topkIds e' =
        ∑ e' ∈ Finset.range e, rowsOf n topkIds e' + ∑ e' ∈ Finset.range e,
        (if topkIds n = (e' : Int) then 1 else 0) := by
      rw [← Finset.sum_add_distrib]
      exact Finset.sum_congr rfl fun e' _ => Nat.count_succ _ _
    omega

/-- **There are no more tiles than routes.** -/
theorem tileBase_le (hm : 0 < tileM) (e : Nat) :
    tileBase tileM totalPairs topkIds e ≤ totalPairs := by
  refine le_trans (Finset.sum_le_sum fun e' _ => ?_) (sum_rowsOf_le topkIds totalPairs e)
  unfold tiles
  rw [Nat.div_le_iff_le_mul_add_pred hm]
  have := Nat.mul_le_mul_right (rowsOf totalPairs topkIds e') hm
  omega

/-- A launch that the host admits: its threads, its tile height, its routes. -/
structure Admitted (c : Config) (tileM totalPairs : Nat) : Prop where
  threads : 0 < c.threads
  tileM : 0 < tileM
  span : c.numExperts ≤ c.threads * c.scanSpan
  pairs : totalPairs ≤ 256

/-- The spans of the threads cover the experts. -/
theorem span_covers {E : Int} {threads : Nat} (hE : 1 ≤ E) (hthreads : 0 < threads) :
    E.toNat ≤ threads * ((E + threads - 1) / threads).toNat := by
  obtain ⟨n, rfl⟩ := Int.eq_ofNat_of_zero_le (show 0 ≤ E by omega)
  have hceil : ((n : Int) + threads - 1) / threads = ((n + threads - 1) / threads : Nat) := by
    push_cast
    congr 1
    omega
  have hlt := Nat.mod_lt (n + threads - 1) hthreads
  have hdiv := Nat.div_add_mod (n + threads - 1) threads
  rw [hceil, Int.toNat_natCast, Int.toNat_natCast]
  omega

/-- **What the configuration sets.** -/
theorem configure_spec {b : Backend} {E maxPairs hidden ks : Int}
    (h : configureDecodeFastpath b E maxPairs hidden ks = .ok c) (hthreads : 0 < b.threadsPerCta) :
    (c.numExperts : Int) = E ∧ 0 < c.threads ∧ c.numExperts ≤ c.threads * c.scanSpan ∧
      0 < c.kSplits ∧
      c.kSplits ∣ c.sfBlocks := by
  unfold configureDecodeFastpath at h
  simp only [bind, Except.bind, pure, Except.pure, throw, throwThe, MonadExceptOf.throw] at h
  split_ifs at h with hrecipe hgrouped hregime hqueue hgeometry hhidden hks
  all_goals
    have hE : 1 ≤ E := by omega
    cases h
  · exact ⟨Int.toNat_of_nonneg (by omega), hthreads, span_covers hE hthreads,
      Nat.one_pos, one_dvd _⟩
  · rw [not_or, not_lt, not_not] at hks
    refine ⟨Int.toNat_of_nonneg (by omega), hthreads, span_covers hE hthreads, by
      dsimp only; omega, ?_⟩
    obtain ⟨k, rfl⟩ := Int.eq_ofNat_of_zero_le (show 0 ≤ ks by omega)
    rcases Int.le_total 0 (hidden / 16) with hpos | hneg
    · obtain ⟨blocks, hblocks⟩ := Int.eq_ofNat_of_zero_le hpos
      dsimp only
      rw [hblocks] at hks ⊢
      exact Int.natCast_dvd_natCast.mp (Int.dvd_of_emod_eq_zero hks.2)
    · dsimp only
      rw [Int.toNat_of_nonpos hneg]
      exact dvd_zero _

/-- The environment cannot raise the limit above 256 rows. -/
theorem maxRows_le (env : Int) : decodeFastpathMaxRows env ≤ 256 := by
  unfold decodeFastpathMaxRows
  omega

/-- A configured launch within the row limit is admitted. -/
theorem admitted_of_rows {b : Backend} {E env hidden ks : Int}
    (hconfig : configureDecodeFastpath b E (decodeFastpathMaxRows env) hidden ks = .ok c)
    (hthreads : 0 < b.threadsPerCta) (htile : 0 < tileM)
    (hrows : totalPairs ≤ decodeFastpathMaxRows env) : Admitted c tileM totalPairs := by
  obtain ⟨-, hthreads', hspan, -, -⟩ := configure_spec hconfig hthreads
  have := maxRows_le env
  exact ⟨hthreads', htile, hspan, by omega⟩

/-- The launches that the host selects have tiles of 16 rows and no more routes than the limit. -/
theorem selected_bounds {on nvfp4 silu direct deterministic repacked queue : Bool}
    {env routedRows n tile : Int}
    (h : decodeFastpathSelected on (decodeFastpathMaxRows env) nvfp4 silu routedRows n direct
      deterministic repacked tile queue = true) :
    tile = 16 ∧ 0 < routedRows ∧ routedRows ≤ decodeFastpathMaxRows env := by
  unfold decodeFastpathSelected at h
  simp only [Bool.and_eq_true, decide_eq_true_eq] at h
  omega

/-- **The route table**, after every run of the phases. -/
theorem table_spec (ha : Admitted c tileM totalPairs) (h : Table c tileM totalPairs topkIds m m') :
    (∀ e < c.numExperts, m' (.hist e) =
        packWord (rowsOf totalPairs topkIds e : Nat) (tileBase tileM totalPairs topkIds e : Nat)) ∧
      (∀ p < totalPairs, m' (.pair p) = rowOf c tileM totalPairs topkIds p) ∧
      m' (.scan c.threads) = (tileBase tileM totalPairs topkIds c.numExperts : Nat) := by
  obtain ⟨m₁, m₂, m₃, h₁, h₂, h₃, h₄⟩ := h
  obtain ⟨hzero, hstaged⟩ := stage_spec ha.threads h₁
  have hranked := rankPass_spec hzero hstaged
  generalize rankPass c totalPairs m₁ = r at h₂ hranked
  obtain ⟨hsums, hkept₂⟩ := partials_spec h₂
  have hscan : ∀ t < c.threads,
    (tileBase tileM totalPairs topkIds (min (t * c.scanSpan) c.numExperts) : Int) + m₂ (.scan t) =
      (tileBase tileM totalPairs topkIds (min (t * c.scanSpan + c.scanSpan) c.numExperts) : Nat) :=
      fun t ht => by
    rw [hsums t ht]
    exact localTiles_spec ha.tileM hranked.hist t c.scanSpan
  obtain ⟨hbase, hkeptS⟩ := scanPass_spec hscan
  generalize scanPass c m₂ = s at h₃ hbase hkeptS
  have hhist : ∀ e < c.numExperts, s (.hist e) = (rowsOf totalPairs topkIds e : Nat) :=
    fun e he => by
    rw [hkeptS _ (by simp), hkept₂ _ (by simp), hranked.hist e he]
  obtain ⟨hword, hkept₃⟩ := packed_spec ha.tileM hhist ha.span hbase h₃
  obtain ⟨hrow, hkept₄⟩ := place_spec ha.threads h₄
  refine ⟨fun e he => by rw [hkept₄ _ (by simp), hword e he], fun p hp => ?_, ?_⟩
  · have hrank : m₃ (.pair p) = if Active c (topkIds p) then
      ((rankOf topkIds p : Nat) : Int) else -1 := by
      rw [hkept₃ _ (by simp), hkeptS _ (by simp), hkept₂ _ (by simp), hranked.done p hp]
    rw [hrow p hp, physicalRow, rowOf]
    dsimp only
    by_cases hactive : Active c (topkIds p)
    · rw [if_pos hactive] at hrank
      rw [hrank, if_pos hactive]
      obtain ⟨e, he⟩ := Int.eq_ofNat_of_zero_le hactive.1
      have hlt : e < c.numExperts := by
        have := hactive.2
        omega
      have hrows : rowsOf totalPairs topkIds e ≤ totalPairs := Nat.count_le _
      have hbase' : tileBase tileM totalPairs topkIds e ≤ totalPairs := tileBase_le ha.tileM e
      have hpairs := ha.pairs
      rw [if_pos (by omega), he, Int.toNat_natCast, hword e hlt,
        (word_unpack (by omega) (by omega)).2, add_mul, add_assoc,
        Int.ediv_mul_add_emod]
    · rw [if_neg hactive] at hrank
      rw [hrank, if_neg hactive, if_neg (by omega)]
  · rw [hkept₄ _ (by simp), hkept₃ _ (by simp), hbase _ le_rfl, min_eq_right ha.span]

end Proofs

end Ringside.MoeDecode

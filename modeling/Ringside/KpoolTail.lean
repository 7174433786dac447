import Ringside.Races

/-!
# The kpool tail ring (`kpool_compress.py`, `kpool_tail_ring_size`)

The indexer caches one entry for each pool of `kpool` tokens. The key and gate rows of a request's
open pool wait in a ring of slots. Prefill seeds it; a verify step stashes all its rows before it is
known how many of them are accepted, and a row that completes a pool reads the others back.

* A request has one block of the tail cache and its own slots of the pool cache. The slot mappings
  are made from them: tail slots for every token, pool slots for the last token of a pool, -1 for
  padding.
* The programs of a decode launch are those of different requests and touch different memory: here
  they run one after another. The programs of a prefill launch store at once.
* The arithmetic on the rows of a pool is one function of the rows that are read.
* A prefill inserts pools from the rows of its own batch, for chunks that start on a pool boundary.
  A pool that two chunks share (`ragged`) is inserted wrongly or not at all: `split_pool`.

## Results

* `stepped`: every pool completion of a step combines the `kpool` rows up to its own.
* `reach_inv`: the ring holds the open pool of the committed rows, for every history of prefills and
  steps.
* `tail_ring_exact`: with that, the completions of every step and the entries of the pool cache.
-/

namespace Ringside.KpoolTail

open Ringside.Races

/-- `kpool_tail_ring_size`. -/
def kpoolTailRingSize (indexKpool : Nat) (numSpeculativeTokens : Int) : Nat :=
  let span : Int := indexKpool + max numSpeculativeTokens 0
  indexKpool * (-(-span / indexKpool)).toNat

/-! ## The kernels

A decode row first completes its pool, if it ends one, and then puts itself into the ring. The
pool's other rows are therefore read from the ring as the rows before it left it. The prefill
kernels take the rows of a pool from the batch instead.
-/

section Kernels

variable {E P : Type} (ring kpool : Nat)

/-- The tail cache, by block and slot: the key and the gate row of a token. -/
abbrev Tail (E : Type) := Nat × Nat → E

/-- `_kpool_tail_seed_kernel`: what program `i` stores. -/
def tailSeed (tslot : List Int) (rows : List E) (i : Nat) : List ((Nat × Nat) × E) :=
  match tslot[i]?, rows[i]? with
  | some t, some row =>
    if t < 0 then []
    else
      let blk := t.toNat / ring
      let ahead := tslot.getD (i + kpool) (-1)
      if 0 ≤ ahead ∧ ahead.toNat / ring = blk then [] else [((blk, t.toNat % ring), row)]
  | _, _ => []

/-- `kpool_seed_tail_cache`. -/
def seedTailCache (tslot : List Int) (rows : List E) : Launch (Nat × Nat) E :=
  (List.range tslot.length).map (tailSeed ring kpool tslot rows)

/-- `_kpool_compress_insert`: row `i` with the rows before it, where a pool ends. -/
def compressInsert (compress : List E → P) (slotMapping : List Int) (rows : List E) :
    Launch Nat P :=
  if slotMapping.length < kpool then []
  else
    (List.range slotMapping.length).map fun i =>
      let slot := slotMapping.getD i (-1)
      if 0 ≤ slot ∧ kpool - 1 ≤ i then
        [(slot.toNat, compress ((rows.drop (i - (kpool - 1))).take kpool))] else []

/-- A row of a decode batch, with what the metadata says of it. -/
structure DecodeRow (E : Type) where
  row : E
  cacheLoc : Int
  pos : Int
  tailSlot : Int

/-- The two caches. -/
structure Caches (E P : Type) where
  tail : Tail E
  cache : Nat → P

namespace DecodeRow

variable (r : DecodeRow E)

def safePos : Nat := (max r.pos 0).toNat

def block : Nat := (max r.tailSlot 0).toNat / ring

/-- The rows that a completion combines: its own, and the others of its pool from the ring. -/
def poolRows (tail : Tail E) : List E :=
  let slot := r.safePos % kpool
  (List.range kpool).map fun poolSlot =>
    if poolSlot = slot then r.row else tail (r.block ring, (r.safePos - slot + poolSlot) % ring)

/-- The row completes its pool. -/
def Completes : Prop := (0 ≤ r.cacheLoc ∧ 0 ≤ r.pos) ∧ r.safePos % kpool = kpool - 1

instance : Decidable (r.Completes kpool) := by unfold Completes; infer_instance

end DecodeRow

/-- One turn of `_kpool_decode_update_batched_kernel`: the completion first, then the stash. -/
def decodeTurn (compress : List E → P) (s : Caches E P) (r : DecodeRow E) : Caches E P where
  cache :=
    if r.Completes kpool then
      Function.update s.cache r.cacheLoc.toNat (compress (r.poolRows ring kpool s.tail))
    else s.cache
  tail :=
    if 0 ≤ r.pos ∧ 0 ≤ r.tailSlot then Function.update s.tail (r.block ring, r.safePos % ring) r.row
      else s.tail

end Kernels

/-! ## Requests

A request has one block of the ring and its own pool slots. A verify step runs rows of which some
are accepted afterwards; the world keeps the accepted ones only, and the next step starts behind
them. A rejected row stays in the ring and in the pool cache until its position comes again.
-/

/-- The requests' memory, and what is computed with the rows of a pool. -/
structure Setup (R E P : Type) where
  kpool : Nat
  numSpec : Int
  /-- The tail block of a request. -/
  block : R → Nat
  /-- The slots of a request's pools. -/
  loc : R → Nat → Nat
  compress : List E → P
  kpool_pos : 0 < kpool
  block_inj : Function.Injective block
  loc_inj : ∀ r r' m m', loc r m = loc r' m' → r = r' ∧ m = m'

variable {R E P : Type} (S : Setup R E P)

namespace Setup

def ring : Nat := kpoolTailRingSize S.kpool S.numSpec

/-- The tail slot of a position. -/
def tailSlot (r : R) (pos : Nat) : Int := (S.block r * S.ring + pos % S.ring : Nat)

/-- The pool slot of a position: only the last of a pool has one. -/
def slotMapping (r : R) (pos : Nat) : Int := if pos % S.kpool = S.kpool - 1 then
    S.loc r (pos / S.kpool) else -1

/-- The rows of a step, from position `c` on. -/
def stepRows (r : R) (c : Nat) (rows : List E) : List (DecodeRow E) :=
  rows.zipIdx.map fun (row, t) => ⟨row, S.slotMapping r (c + t), (c + t : Nat),
    S.tailSlot r (c + t)⟩

/-- Padding of a request that has fewer rows than others. -/
def padRow (row : E) : DecodeRow E := ⟨row, -1, -1, -1⟩

end Setup

/-- The caches, and each request's committed rows. -/
structure World (R E P : Type) where
  caches : Caches E P
  committed : R → List E
  /-- The pools that ended in a prefill chunk and began before it. There are none as long as
  "chunked-prefill boundaries stay pool-aligned", for which the indexer cache asserts its block
  size. -/
  ragged : R → Nat → Prop

inductive Event (R E : Type) where
  /-- A prefill batch: the requests' chunks one after another, then padding. -/
  | prefill (batch : List (R × List E)) (padding : List E)
  /-- A verify step of a request: its rows, how many of them are accepted, and padding. -/
  | verify (r : R) (rows : List E) (accepted : Nat) (padding : List E)

section Prefill

variable (committed : R → List E)

/-- The tokens of a chunk: request, position and row. -/
def chunkTokens (x : R × List E) : List (R × Nat × E) :=
  x.2.zipIdx.map fun (row, t) => (x.1, (committed x.1).length + t, row)

/-- The tokens of a batch. -/
def tokens (batch : List (R × List E)) : List (R × Nat × E) := batch.flatMap (chunkTokens committed)

/-- The rows of a batch. -/
def batchRows (batch : List (R × List E)) (padding : List E) : List E :=
  (tokens committed batch).map (·.2.2) ++ padding

/-- A slot mapping of a batch. -/
def batchSlots (slotOf : R → Nat → Int) (batch : List (R × List E)) (padding : List E) : List Int :=
  (tokens committed batch).map (fun x => slotOf x.1 x.2.1) ++ List.replicate padding.length (-1)

/-- The committed rows after a batch. -/
def commitBatch [DecidableEq R] (batch : List (R × List E)) : R → List E := fun r =>
  committed r ++ (batch.lookup r).getD []

/-- The pools that end in a chunk of a batch and began before it. -/
def raggedIn (kpool : Nat) (batch : List (R × List E)) (r : R) (m : Nat) : Prop :=
  ∃ chunk, (r, chunk) ∈ batch ∧ m = (committed r).length / kpool ∧
    (committed r).length % kpool ≠ 0 ∧
    kpool * (m + 1) ≤ (committed r).length + chunk.length

end Prefill

/-- The caches after a step of a request. -/
def verifyCaches (s : Caches E P) (r : R) (c : Nat) (rows padding : List E) : Caches E P :=
  (S.stepRows r c rows ++ padding.map Setup.padRow).foldl (decodeTurn S.ring S.kpool S.compress) s

/-- What happens. -/
inductive Step [DecidableEq R] : World R E P → Event R E → World R E P → Prop
  | prefill {w : World R E P} {batch : List (R × List E)} {padding : List E} {s' : Caches E P}
      (hdistinct : (batch.map Prod.fst).Nodup)
      (htail : Outcome (seedTailCache S.ring S.kpool
        (batchSlots w.committed S.tailSlot batch padding)
        (batchRows w.committed batch padding)) w.caches.tail s'.tail)
      (hcache : Outcome (compressInsert S.kpool S.compress
        (batchSlots w.committed S.slotMapping batch padding)
        (batchRows w.committed batch padding)) w.caches.cache s'.cache) :
      Step w (.prefill batch padding)
        ⟨s', commitBatch w.committed batch, fun r m => w.ragged r m ∨
          raggedIn w.committed S.kpool batch r m⟩
  | verify {w : World R E P} {r : R} {rows : List E} {accepted : Nat} {padding : List E}
      (hrows : (rows.length : Int) ≤ max S.numSpec 0 + 1) (haccepted : accepted ≤ rows.length) :
      Step w (.verify r rows accepted padding)
        ⟨verifyCaches S w.caches r (w.committed r).length rows padding,
          Function.update w.committed r (w.committed r ++ rows.take accepted), w.ragged⟩

/-- A world that a history leads to, from no committed rows and any contents of the caches. -/
inductive Reach [DecidableEq R] : World R E P → Prop
  | start (caches : Caches E P) : Reach ⟨caches, fun _ => [], fun _ _ => False⟩
  | step {w w' : World R E P} {e : Event R E} (h : Reach w) (hstep : Step S w e w') : Reach w'

/-! ## The ring

The rows that are still read at position `p` are those of its pool, and the rows a step writes are
at most `K + 1` positions from the first open one. Both lie within a ring, where a position is
determined by its slot.
-/

/-- The speculative rows of a step. -/
def Setup.spec : Nat := (max S.numSpec 0).toNat

/-- **The ring has room for the open pool and a step's rows.** -/
theorem ring_ge : S.kpool + S.spec ≤ S.ring := by
  have hpos : (0 : Int) < S.kpool := by exact_mod_cast S.kpool_pos
  have hspan : (S.spec : Int) = max S.numSpec 0 := Int.toNat_of_nonneg (le_max_right _ _)
  have hle := Int.mul_ediv_self_le (x := -(S.kpool + S.spec : Int)) (k := S.kpool) hpos.ne'
  unfold Setup.ring kpoolTailRingSize
  dsimp only
  rw [← hspan]
  generalize hd : -(S.kpool + S.spec : Int) / S.kpool = d at hle ⊢
  have hd0 : d ≤ 0 := hd ▸ Int.ediv_nonpos_of_nonpos_of_neg (by omega) hpos
  have hmul : ((S.kpool * (-d).toNat : Nat) : Int) = -(S.kpool * d) := by
    rw [Nat.cast_mul, Int.toNat_of_nonneg (by omega), mul_neg]
  omega

theorem ring_pos : 0 < S.ring := by
  have := ring_ge S
  have := S.kpool_pos
  omega

/-- The rows of the pool that position `p` ends. -/
def window (kpool : Nat) (all : List E) (p : Nat) : List E := (all.drop (p + 1 - kpool)).take kpool

/-- The ring of a request holds the rows of the positions from `lo` up to `hi`. -/
def Holds (tail : Tail E) (r : R) (all : List E) (lo hi : Nat) : Prop :=
  ∀ q, lo ≤ q → q < hi → all[q]? = some (tail (S.block r, q % S.ring))

/-- Positions less than a ring apart have different slots. -/
theorem slot_inj {ring lo q q' : Nat} (h : lo ≤ q) (h' : lo ≤ q') (hq : q < lo + ring)
    (hq' : q' < lo + ring)
    (heq : q % ring = q' % ring) : q = q' := by
  have hzero := Nat.sub_mod_eq_zero_of_mod_eq heq
  have hzero' := Nat.sub_mod_eq_zero_of_mod_eq heq.symm
  rw [Nat.mod_eq_of_lt (by omega)] at hzero hzero'
  omega

theorem slotMapping_end {r : R} {p : Nat} (h : p % S.kpool = S.kpool - 1) :
    S.slotMapping r p = (S.loc r (p / S.kpool) : Nat) := if_pos h

theorem slotMapping_open {r : R} {p : Nat} (h : p % S.kpool ≠ S.kpool - 1) :
    S.slotMapping r p = -1 := if_neg h

theorem tailSlot_nonneg (r : R) (p : Nat) : 0 ≤ S.tailSlot r p := Int.natCast_nonneg _

theorem tailSlot_div (r : R) (p : Nat) : (S.tailSlot r p).toNat / S.ring = S.block r := by
  have hpos := ring_pos S
  rw [Setup.tailSlot, Int.toNat_natCast, Nat.add_comm, Nat.add_mul_div_right _ _ hpos,
    Nat.div_eq_of_lt (Nat.mod_lt _ hpos), zero_add]

theorem tailSlot_mod (r : R) (p : Nat) : (S.tailSlot r p).toNat % S.ring = p % S.ring := by
  rw [Setup.tailSlot, Int.toNat_natCast, Nat.add_comm, Nat.add_mul_mod_self_right, Nat.mod_mod]

section Turn

variable {S} {s : Caches E P} {r : R} {all : List E} {lo p : Nat} {row : E}

/-- A row of a step. -/
def Setup.rowAt (S : Setup R E P) (r : R) (p : Nat) (row : E) : DecodeRow E :=
  ⟨row, S.slotMapping r p, p, S.tailSlot r p⟩

theorem block_rowAt : (S.rowAt r p row).block S.ring = S.block r := by
  rw [DecodeRow.block, Setup.rowAt, max_eq_left (tailSlot_nonneg S r p), tailSlot_div]

theorem safePos_rowAt : (S.rowAt r p row).safePos = p := by
  simp [Setup.rowAt, DecodeRow.safePos]

theorem completes_rowAt : (S.rowAt r p row).Completes S.kpool ↔ p % S.kpool = S.kpool - 1 := by
  rw [DecodeRow.Completes, safePos_rowAt]
  refine ⟨And.right, fun h => ⟨⟨?_, ?_⟩, h⟩⟩
  · simp [Setup.rowAt, Setup.slotMapping, h]
  · simp [Setup.rowAt]

/-- **A completion reads the rows up to its own**, from a ring that holds its pool. -/
theorem poolRows_eq {tail : Tail E} (hp : p % S.kpool = S.kpool - 1) (hrow : all[p]? = some row)
    (hholds : Holds S tail r all lo p) (hlo : lo ≤ p + 1 - S.kpool) :
    (S.rowAt r p row).poolRows S.ring S.kpool tail = window S.kpool all p := by
  have hpos := S.kpool_pos
  have hle : S.kpool - 1 ≤ p := hp ▸ Nat.mod_le _ _
  unfold DecodeRow.poolRows window
  rw [safePos_rowAt, block_rowAt, hp]
  refine List.ext_getElem? fun j => ?_
  rw [List.getElem?_map, List.getElem?_take, List.getElem?_drop]
  by_cases hj : j < S.kpool
  · rw [List.getElem?_range hj, if_pos hj, Option.map_some]
    by_cases hown : j = S.kpool - 1
    · rw [if_pos hown, show p + 1 - S.kpool + j = p by omega, hrow]
      rfl
    · rw [if_neg hown, show p - (S.kpool - 1) + j = p + 1 - S.kpool + j by omega]
      exact (hholds _ (by omega) (by omega)).symm
  · rw [List.getElem?_eq_none (by simpa using hj), if_neg hj]
    rfl

/-- What a turn does: the next row is in the ring, and a completed pool is in the cache. -/
theorem turn_spec (hrow : all[p]? = some row) (hholds : Holds S s.tail r all lo p) (hp : lo ≤ p)
    (hring : p < lo + S.ring) (hlo : p % S.kpool = S.kpool - 1 → lo ≤ p + 1 - S.kpool) :
    let s' := decodeTurn S.ring S.kpool S.compress s (S.rowAt r p row)
    Holds S s'.tail r all lo (p + 1) ∧ (∀ b x, b ≠ S.block r → s'.tail (b, x) = s.tail (b, x)) ∧
      s'.cache = if p % S.kpool = S.kpool - 1 then
        Function.update s.cache (S.loc r (p / S.kpool))
          (S.compress (window S.kpool all p)) else s.cache := by
  have htail : (decodeTurn S.ring S.kpool S.compress s (S.rowAt r p row)).tail =
      Function.update s.tail (S.block r, p % S.ring) row := by
    unfold decodeTurn
    dsimp only
    rw [block_rowAt, safePos_rowAt, if_pos]
    · rfl
    · exact ⟨Int.natCast_nonneg _, Int.natCast_nonneg _⟩
  refine ⟨fun q hq hqp => ?_, fun b x hb => ?_, ?_⟩
  · rw [htail]
    by_cases hqp' : q = p
    · rw [hqp', Function.update_self, hrow]
    · rw [Function.update_of_ne, hholds q hq (by omega)]
      exact fun heq => hqp' (slot_inj hq hp (by omega) hring (Prod.mk.inj heq).2)
  · rw [htail, Function.update_of_ne fun heq => hb (Prod.mk.inj heq).1]
  · unfold decodeTurn
    dsimp only
    by_cases hc : p % S.kpool = S.kpool - 1
    · rw [if_pos (completes_rowAt.mpr hc), if_pos hc, poolRows_eq hc hrow hholds (hlo hc)]
      congr 1
      simp [Setup.rowAt, Setup.slotMapping, hc]
    · rw [if_neg (fun h => hc (completes_rowAt.mp h)), if_neg hc]

end Turn

/-! ## A verify step

The induction is on the rows of the step, for any state whose ring holds the open pool. Padding rows
come last and do nothing.
-/

section Verify

variable {S}

theorem stepRows_cons (r : R) (c : Nat) (row : E) (rows : List E) :
    S.stepRows r c (row :: rows) = S.rowAt r c row :: S.stepRows r (c + 1) rows := by
  unfold Setup.stepRows
  rw [List.zipIdx_cons, List.zipIdx_succ, List.map_cons, List.map_map]
  refine congrArg₂ _ rfl (List.map_congr_left fun x _ => ?_)
  simp only [Function.comp_apply, Nat.add_assoc, Nat.add_comm 1]

/-- Padding does nothing. -/
theorem foldl_padRow (s : Caches E P) (padding : List E) :
    (padding.map Setup.padRow).foldl (decodeTurn S.ring S.kpool S.compress) s = s := by
  induction padding with
  | nil => rfl
  | cons row padding ih =>
    have hpad : decodeTurn S.ring S.kpool S.compress s (Setup.padRow row) = s := by
      unfold decodeTurn
      rw [if_neg, if_neg]
      · exact fun h => absurd h.1.1 (by simp [Setup.padRow])
      · simp [Setup.padRow]
    rw [List.map_cons, List.foldl_cons, hpad, ih]

/-- Positions that end different pools. -/
theorem pool_ne {k p q : Nat} (hp : p % k = k - 1) (hq : q % k = k - 1) (h : p ≠ q) :
    p / k ≠ q / k := by
  intro heq
  have hdp := Nat.div_add_mod p k
  have hdq := Nat.div_add_mod q k
  rw [heq, hp] at hdp
  rw [hq] at hdq
  omega

/-- What a step's turns leave: the rows in the ring, the completed pools in the cache, the rest
alone. -/
structure Stepped (S : Setup R E P) (r : R) (all : List E) (lo c n : Nat)
    (s s' : Caches E P) : Prop where
  tail : Holds S s'.tail r all lo (c + n)
  other : ∀ b x, b ≠ S.block r → s'.tail (b, x) = s.tail (b, x)
  pooled : ∀ t < n, (c + t) % S.kpool = S.kpool - 1 →
    s'.cache (S.loc r ((c + t) / S.kpool)) = S.compress (window S.kpool all (c + t))
  kept : ∀ x, (∀ t < n, (c + t) % S.kpool = S.kpool - 1 → x ≠ S.loc r ((c + t) / S.kpool)) →
    s'.cache x = s.cache x

/-- **The turns of a step**, by induction on its rows: the ring holds the rows so far. -/
theorem stepped {r : R} {all rows : List E} {lo c : Nat} {s : Caches E P}
    (hrows : ∀ t row, rows[t]? = some row → all[c + t]? = some row)
    (hholds : Holds S s.tail r all lo c) (hc : lo ≤ c) (hring : c + rows.length ≤ lo + S.ring)
    (hlo : ∀ p, c ≤ p → p % S.kpool = S.kpool - 1 → lo ≤ p + 1 - S.kpool) :
    Stepped S r all lo c rows.length s ((S.stepRows r c rows).foldl
      (decodeTurn S.ring S.kpool S.compress) s) := by
  induction rows generalizing c s with
  | nil => exact ⟨hholds, fun _ _ _ => rfl, nofun, fun _ _ => rfl⟩
  | cons row rows ih =>
    rw [List.length_cons] at hring
    obtain ⟨htail, hother, hcache⟩ := turn_spec (hrows 0 row rfl) hholds hc (by omega)
      (hlo c le_rfl)
    rw [stepRows_cons, List.foldl_cons]
    generalize decodeTurn S.ring S.kpool S.compress s (S.rowAt r c row) = s₁ at htail hother hcache
    obtain ⟨itail, iother, ipooled, ikept⟩ := ih (c := c + 1) (s := s₁)
      (fun t row' h => by rw [Nat.add_assoc, Nat.add_comm 1]; exact hrows (t + 1) row' h) htail
        (by omega) (by omega)
      fun p hp => hlo p (by omega)
    generalize (S.stepRows r (c + 1) rows).foldl (decodeTurn S.ring S.kpool S.compress) s₁ = s₂ at *
    have hshift : ∀ t, c + (t + 1) = c + 1 + t := fun t => by omega
    refine ⟨by rw [List.length_cons, hshift]; exact itail, fun b x hb =>
      (iother b x hb).trans (hother b x hb), ?_, ?_⟩
    · intro t ht hend
      cases t with
      | zero =>
        -- the first row's pool: the rows after it end other pools
        rw [ikept, hcache, if_pos hend, Nat.add_zero, Function.update_self]
        intro t' _ hend' heq
        exact pool_ne hend hend' (by omega) (S.loc_inj _ _ _ _ heq).2
      | succ t =>
        rw [hshift] at hend ⊢
        exact ipooled t (by simpa using ht) hend
    · intro x hx
      rw [ikept, hcache]
      · split_ifs with hend
        · rw [Function.update_of_ne (hx 0 (by simp) hend)]
        · rfl
      · intro t ht hend
        rw [← hshift] at hend ⊢
        exact hx (t + 1) (by simpa using ht) hend

end Verify

/-! ## Every history

The invariant says nothing of what lies behind the committed rows, neither in the ring nor in the
cache. So it does not matter which rows of a step are accepted: what was stored for the others lies
behind.
-/

/-- The ring holds the open pool of the committed rows, the cache their pools. -/
structure Inv (w : World R E P) : Prop where
  tail : ∀ r, Holds S w.caches.tail r (w.committed r) (S.kpool * ((w.committed r).length / S.kpool))
    (w.committed r).length
  cache : ∀ r p, p < (w.committed r).length → p % S.kpool = S.kpool - 1 →
    ¬ w.ragged r (p / S.kpool) →
    w.caches.cache (S.loc r (p / S.kpool)) = S.compress (window S.kpool (w.committed r) p)

section Step

variable {S}

/-- A window only depends on the rows up to its end. -/
theorem window_congr {k p : Nat} {all all' : List E} (hp : p % k = k - 1)
    (h : ∀ q ≤ p, all[q]? = all'[q]?) :
    window k all p = window k all' p := by
  refine List.ext_getElem? fun j => ?_
  unfold window
  rw [List.getElem?_take, List.getElem?_take, List.getElem?_drop, List.getElem?_drop]
  have hle : k - 1 ≤ p := hp ▸ Nat.mod_le _ _
  split_ifs with hj
  · exact h _ (by omega)
  · rfl

/-- The start of the open pool, and of every pool that ends later. -/
theorem open_le {k c p : Nat} (hk : 0 < k) (hcp : c ≤ p) (hp : p % k = k - 1) :
    k * (c / k) ≤ p + 1 - k := by
  have hd := Nat.div_add_mod p k
  have hle := Nat.mul_le_mul_left k (Nat.div_le_div_right (c := k) hcp)
  omega

/-- A pool that ends behind `c` and begins before is the one that is open at `c`. -/
theorem begun_before {k c p : Nat} (hk : 0 < k) (hcp : c ≤ p) (hp : p % k = k - 1)
    (hlt : p + 1 < c + k) :
    p / k = c / k ∧ c % k ≠ 0 ∧ k * (p / k + 1) = p + 1 := by
  have hd := Nat.div_add_mod p k
  have hend : k * (p / k + 1) = p + 1 := by
    rw [Nat.mul_succ]
    omega
  have hpool : c / k = p / k := Nat.div_eq_of_lt_le (by rw [Nat.mul_comm]; omega)
    (by rw [Nat.mul_comm]; omega)
  have hc := Nat.div_add_mod c k
  rw [hpool] at hc
  exact ⟨hpool.symm, by omega, hend⟩

variable {w : World R E P} {r : R} {rows : List E}

/-- The turns of a step from an invariant world. -/
theorem Inv.stepped (hw : Inv S w) (r : R) {rows : List E}
    (hrows : (rows.length : Int) ≤ max S.numSpec 0 + 1) :
    Stepped S r (w.committed r ++ rows) (S.kpool * ((w.committed r).length / S.kpool))
      (w.committed r).length rows.length w.caches
      ((S.stepRows r (w.committed r).length rows).foldl (decodeTurn S.ring S.kpool S.compress)
        w.caches) := by
  have hring := ring_ge S
  have hspec : (S.spec : Int) = max S.numSpec 0 := Int.toNat_of_nonneg (le_max_right _ _)
  have hmod := Nat.div_add_mod (w.committed r).length S.kpool
  have hlt := Nat.mod_lt (w.committed r).length S.kpool_pos
  refine KpoolTail.stepped (fun t row h => ?_) (fun q hlo hq => ?_) (by omega) (by omega) fun p =>
    open_le S.kpool_pos
  · rwa [List.getElem?_append_right (by omega), Nat.add_sub_cancel_left]
  · rw [List.getElem?_append_left hq]
    exact hw.tail r q hlo hq

/-- **A verify step keeps the invariant**, whatever is accepted. -/
theorem Inv.verify [DecidableEq R] (hw : Inv S w) {accepted : Nat} {padding : List E}
    (hrows : (rows.length : Int) ≤ max S.numSpec 0 + 1) (haccepted : accepted ≤ rows.length) :
    Inv S ⟨verifyCaches S w.caches r (w.committed r).length rows padding,
      Function.update w.committed r (w.committed r ++ rows.take accepted), w.ragged⟩ := by
  have hstep := hw.stepped r hrows
  have hcaches : verifyCaches S w.caches r (w.committed r).length rows padding =
      (S.stepRows r (w.committed r).length rows).foldl (decodeTurn S.ring S.kpool S.compress)
      w.caches := by
    rw [verifyCaches, List.foldl_append, foldl_padRow]
  rw [hcaches]
  generalize (S.stepRows r (w.committed r).length rows).foldl _ w.caches = s' at hstep
  obtain ⟨htail, hother, hpooled, hkept⟩ := hstep
  set c := (w.committed r).length with hc
  -- up to what is committed, the rows of the step are those that stay
  have hlen : (w.committed r ++ rows.take accepted).length = c + accepted := by
    rw [List.length_append, List.length_take, min_eq_left haccepted]
  have hagree : ∀ q < c + accepted, (w.committed r ++ rows.take accepted)[q]? =
    (w.committed r ++ rows)[q]? := by
    intro q hq
    rcases Nat.lt_or_ge q c with h | h
    · rw [List.getElem?_append_left h, List.getElem?_append_left h]
    · rw [List.getElem?_append_right h, List.getElem?_append_right h, List.getElem?_take,
        if_pos (by omega)]
  constructor
  · intro r'
    dsimp only
    by_cases hr : r' = r
    · subst hr
      rw [Function.update_self, hlen]
      intro q hlo hq
      rw [hagree q hq]
      exact htail q ((Nat.mul_le_mul_left _ (Nat.div_le_div_right (Nat.le_add_right _ _))).trans
        hlo) (by omega)
    · rw [Function.update_of_ne hr]
      intro q hlo hq
      rw [hother _ _ fun h => hr (S.block_inj h)]
      exact hw.tail r' q hlo hq
  · intro r' p hp hend hnot
    dsimp only at hp hnot ⊢
    by_cases hr : r' = r
    · subst hr
      rw [Function.update_self] at hp ⊢
      rw [hlen] at hp
      rw [window_congr hend fun q hq => hagree q (by omega)]
      rcases Nat.lt_or_ge p c with h | h
      · -- committed before: no row of the step ends this pool
        rw [hkept, hw.cache r' p h hend hnot]
        · exact congrArg _ (window_congr hend fun q hq =>
            (List.getElem?_append_left (by omega)).symm)
        · exact fun t _ hend' heq => pool_ne hend hend' (by omega) (S.loc_inj _ _ _ _ heq).2
      · have hpool := hpooled (p - c) (by omega)
        rw [Nat.add_sub_cancel' h] at hpool
        exact hpool hend
    · rw [Function.update_of_ne hr] at hp ⊢
      rw [hkept _ fun t _ _ heq => hr (S.loc_inj _ _ _ _ heq).1]
      exact hw.cache r' p hp hend hnot

end Step

/-! ## A prefill batch

The kernels see one flat list of tokens. `tokens_at` finds the rows of a request in it, and the two
kernels are read as the rows and pools that they store for each request.
-/

section Batch

variable {S} {committed : R → List E} {batch : List (R × List E)} {padding : List E}

theorem getElem?_chunkTokens {x : R × List E} (t : Nat) :
    (chunkTokens committed x)[t]? = x.2[t]?.map fun row =>
    (x.1, (committed x.1).length + t, row) := by
  unfold chunkTokens
  rw [List.getElem?_map, List.getElem?_zipIdx, Option.map_map, zero_add]
  rfl

/-- A request that is not in the batch has no tokens. -/
theorem tokens_other {r : R} (hr : r ∉ batch.map Prod.fst) (i p : Nat) (row : E) :
    (tokens committed batch)[i]? ≠ some (r, p, row) := by
  intro h
  obtain ⟨x, hx, htok⟩ := List.mem_flatMap.mp (List.mem_of_getElem? h)
  obtain ⟨y, -, hy⟩ := List.mem_map.mp htok
  exact hr (List.mem_map.mpr ⟨x, hx, congrArg Prod.fst hy⟩)

/-- The tokens of a request are those of its chunk, in order. -/
theorem tokens_at (committed : R → List E) (hdistinct : (batch.map Prod.fst).Nodup) {r : R}
    {chunk : List E} (hmem : (r, chunk) ∈ batch) :
    ∃ off, ∀ i p row, (tokens committed batch)[i]? = some (r, p, row) ↔
      ∃ t, i = off + t ∧ p = (committed r).length + t ∧ chunk[t]? = some row := by
  obtain ⟨pre, post, rfl⟩ := List.append_of_mem hmem
  rw [List.map_append, List.map_cons, List.nodup_append] at hdistinct
  obtain ⟨-, hpost, hpre⟩ := hdistinct
  have hpre' : r ∉ pre.map Prod.fst := fun h => hpre r h r List.mem_cons_self rfl
  have hpost' : r ∉ post.map Prod.fst := (List.nodup_cons.mp hpost).1
  refine ⟨(tokens committed pre).length, fun i p row => ?_⟩
  have hsplit : tokens committed (pre ++ (r, chunk) :: post) =
      tokens committed pre ++ (chunkTokens committed (r, chunk) ++ tokens committed post) := by
    unfold tokens
    rw [List.flatMap_append, List.flatMap_cons]
  rw [hsplit]
  constructor
  · intro h
    rcases Nat.lt_or_ge i (tokens committed pre).length with hi | hi
    · rw [List.getElem?_append_left hi] at h
      exact absurd h (tokens_other hpre' i p row)
    · rw [List.getElem?_append_right hi] at h
      rcases Nat.lt_or_ge (i - (tokens committed pre).length)
        (chunkTokens committed (r, chunk)).length with hj | hj
      · rw [List.getElem?_append_left hj, getElem?_chunkTokens, Option.map_eq_some_iff] at h
        obtain ⟨row', hrow, heq⟩ := h
        exact ⟨i - (tokens committed pre).length, by omega, by grind, by grind⟩
      · rw [List.getElem?_append_right hj] at h
        exact absurd h (tokens_other hpost' _ p row)
  · rintro ⟨t, rfl, rfl, hrow⟩
    have hlt : t < (chunkTokens committed (r, chunk)).length := by
      rw [chunkTokens, List.length_map, List.length_zipIdx]
      exact (List.getElem?_eq_some_iff.mp hrow).1
    rw [List.getElem?_append_right (by omega), Nat.add_sub_cancel_left,
      List.getElem?_append_left hlt, getElem?_chunkTokens, hrow]
    rfl

theorem batchRows_at {i : Nat} {x : R × Nat × E} (h : (tokens committed batch)[i]? = some x) :
    (batchRows committed batch padding)[i]? = some x.2.2 := by
  have hi : i < ((tokens committed batch).map (·.2.2)).length := by
    rw [List.length_map]
    exact (List.getElem?_eq_some_iff.mp h).1
  rw [batchRows, List.getElem?_append_left hi, List.getElem?_map, h]
  rfl

theorem batchSlots_at (slotOf : R → Nat → Int) (padding : List E) {i : Nat} {x : R × Nat × E}
    (h : (tokens committed batch)[i]? = some x) :
    (batchSlots committed slotOf batch padding)[i]? = some (slotOf x.1 x.2.1) := by
  have hi : i < ((tokens committed batch).map fun x => slotOf x.1 x.2.1).length := by
    rw [List.length_map]
    exact (List.getElem?_eq_some_iff.mp h).1
  rw [batchSlots, List.getElem?_append_left hi, List.getElem?_map, h]
  rfl

theorem batchSlots_getD (slotOf : R → Nat → Int) (padding : List E) {i : Nat} {x : R × Nat × E}
    (h : (tokens committed batch)[i]? = some x) :
    (batchSlots committed slotOf batch padding).getD i (-1) = slotOf x.1 x.2.1 := by
  rw [List.getD_eq_getElem?_getD, batchSlots_at _ _ h, Option.getD_some]

/-- Behind the tokens, the slots are negative. -/
theorem batchSlots_none (slotOf : R → Nat → Int) (padding : List E) {i : Nat}
    (h : (tokens committed batch)[i]? = none) :
    (batchSlots committed slotOf batch padding).getD i (-1) = -1 := by
  have hi : ((tokens committed batch).map fun x => slotOf x.1 x.2.1).length ≤ i := by
    rw [List.length_map]
    exact List.getElem?_eq_none_iff.mp h
  rw [List.getD_eq_getElem?_getD, batchSlots, List.getElem?_append_right hi,
    List.getElem?_replicate]
  split_ifs <;> rfl

/-- **What a program of the seed stores**: its token, if no token of the request is `kpool` ahead.
-/
theorem mem_tailSeed {i : Nat} {key : Nat × Nat} {v : E} :
    (key, v) ∈ tailSeed S.ring S.kpool (batchSlots committed S.tailSlot batch padding)
      (batchRows committed batch padding) i ↔
    ∃ r p, (tokens committed batch)[i]? = some (r, p, v) ∧ key = (S.block r, p % S.ring) ∧
      ∀ p' v', (tokens committed batch)[i + S.kpool]? ≠ some (r, p', v') := by
  unfold tailSeed
  cases htok : (tokens committed batch)[i]? with
  | none =>
    refine iff_of_false (fun h => ?_) (fun ⟨r, p, h, _⟩ => by cases h)
    have hslot := batchSlots_none S.tailSlot padding htok
    rw [List.getD_eq_getElem?_getD] at hslot
    split at h
    · rename_i t row ht _
      rw [ht, Option.getD_some] at hslot
      rw [hslot, if_pos (by omega)] at h
      cases h
    · cases h
  | some x =>
    obtain ⟨r, p, row⟩ := x
    rw [batchSlots_at _ _ htok, batchRows_at htok]
    dsimp only
    rw [if_neg (not_lt.mpr (tailSlot_nonneg S r p)), tailSlot_div, tailSlot_mod]
    have hahead : (0 ≤ (batchSlots committed S.tailSlot batch padding).getD (i + S.kpool) (-1) ∧
        ((batchSlots committed S.tailSlot batch padding).getD (i + S.kpool) (-1)).toNat /
        S.ring = S.block r) ↔
        ∃ p' v', (tokens committed batch)[i + S.kpool]? = some (r, p', v') := by
      cases hnext : (tokens committed batch)[i + S.kpool]? with
      | none =>
        rw [batchSlots_none _ _ hnext]
        exact iff_of_false (fun h => absurd h.1 (by omega)) (fun ⟨_, _, h⟩ => by cases h)
      | some y =>
        obtain ⟨r', p', v'⟩ := y
        rw [batchSlots_getD _ _ hnext, tailSlot_div]
        constructor
        · rintro ⟨-, h⟩
          obtain rfl : r' = r := S.block_inj h
          exact ⟨p', v', rfl⟩
        · rintro ⟨p'', v'', h⟩
          obtain ⟨rfl, -⟩ := Prod.mk.inj (Option.some.inj h)
          exact ⟨tailSlot_nonneg S _ _, rfl⟩
    by_cases hstop : ∃ p' v', (tokens committed batch)[i + S.kpool]? = some (r, p', v')
    · rw [if_pos (hahead.mpr hstop)]
      refine iff_of_false nofun fun ⟨r', p', h, _, hno⟩ => ?_
      obtain ⟨rfl, -⟩ := Prod.mk.inj (Option.some.inj h)
      obtain ⟨p'', v'', hs⟩ := hstop
      exact hno p'' v'' hs
    · rw [if_neg fun h => hstop (hahead.mp h), List.mem_singleton]
      constructor
      · intro h
        obtain ⟨rfl, rfl⟩ := Prod.mk.inj h
        exact ⟨r, p, rfl, rfl, fun p' v' h => hstop ⟨p', v', h⟩⟩
      · rintro ⟨r', p', h, rfl, -⟩
        obtain ⟨rfl, hpair⟩ := Prod.mk.inj (Option.some.inj h)
        obtain ⟨rfl, rfl⟩ := Prod.mk.inj hpair
        rfl

/-- What the seed stores, by request: the last `kpool` rows of the chunks. -/
theorem stores_seed {b x : Nat} {v : E} :
    Stores (seedTailCache S.ring S.kpool (batchSlots committed S.tailSlot batch padding)
      (batchRows committed batch padding)) (b, x) v ↔
    ∃ i r p, (tokens committed batch)[i]? = some (r, p, v) ∧ (b, x) = (S.block r, p % S.ring) ∧
      ∀ p' v', (tokens committed batch)[i + S.kpool]? ≠ some (r, p', v') := by
  unfold Stores seedTailCache
  simp only [List.mem_map, List.mem_range, exists_exists_and_eq_and, mem_tailSeed]
  refine ⟨fun ⟨i, _, h⟩ => ⟨i, h⟩, fun ⟨i, r, p, htok, h⟩ => ⟨i, ?_, r, p, htok, h⟩⟩
  exact (List.getElem?_eq_some_iff.mp (batchSlots_at S.tailSlot padding htok)).1

/-- The seed of a request in the batch. -/
theorem stores_seed_of_mem (hdistinct : (batch.map Prod.fst).Nodup) {r : R} {chunk : List E}
    (hmem : (r, chunk) ∈ batch)
    {x : Nat} {v : E} :
    Stores (seedTailCache S.ring S.kpool (batchSlots committed S.tailSlot batch padding)
      (batchRows committed batch padding)) (S.block r, x) v ↔
    ∃ t, chunk[t]? = some v ∧ x = ((committed r).length + t) % S.ring ∧
      chunk.length ≤ t + S.kpool := by
  obtain ⟨off, hat⟩ := tokens_at committed hdistinct hmem
  rw [stores_seed]
  constructor
  · rintro ⟨i, r', p, htok, hkey, hlast⟩
    obtain ⟨hblock, rfl⟩ := Prod.mk.inj hkey
    obtain rfl := S.block_inj hblock
    obtain ⟨t, rfl, rfl, hrow⟩ := (hat i p v).mp htok
    refine ⟨t, hrow, rfl, Nat.le_of_not_lt fun hlt => ?_⟩
    exact hlast _ _ ((hat _ _ _).mpr ⟨t + S.kpool, Nat.add_assoc .., rfl,
      List.getElem?_eq_getElem hlt⟩)
  · rintro ⟨t, hrow, rfl, hlen⟩
    refine ⟨off + t, r, _, (hat _ _ _).mpr ⟨t, rfl, rfl, hrow⟩, rfl, fun p' v' h => ?_⟩
    obtain ⟨t', ht', -, hrow'⟩ := (hat _ _ _).mp h
    have := (List.getElem?_eq_some_iff.mp hrow').1
    omega

/-- Nothing is stored for a request that is not in the batch. -/
theorem stores_seed_other {r : R} (hr : r ∉ batch.map Prod.fst) {x : Nat} {v : E} :
    ¬ Stores (seedTailCache S.ring S.kpool (batchSlots committed S.tailSlot batch padding)
      (batchRows committed batch padding)) (S.block r, x) v := by
  rw [stores_seed]
  rintro ⟨i, r', p, htok, hkey, -⟩
  obtain rfl := S.block_inj (Prod.mk.inj hkey).1
  exact tokens_other hr i p v htok

/-- What the insertion stores: the pools that end in the batch, from the rows before in the batch.
-/
theorem stores_insert {y : Nat} {v : P} :
    Stores (compressInsert S.kpool S.compress (batchSlots committed S.slotMapping batch padding)
      (batchRows committed batch padding)) y v ↔
    S.kpool ≤ (batchSlots committed S.slotMapping batch padding).length ∧
      ∃ i r p row, (tokens committed batch)[i]? = some (r, p, row) ∧ p % S.kpool = S.kpool - 1 ∧
        S.kpool - 1 ≤ i ∧ y = S.loc r (p / S.kpool) ∧
        v = S.compress
          (((batchRows committed batch padding).drop (i - (S.kpool - 1))).take S.kpool) := by
  unfold Stores compressInsert
  split_ifs with hlen
  · exact iff_of_false (fun ⟨_, h, _⟩ => by cases h) fun h => absurd h.1 (by omega)
  simp only [List.mem_map, List.mem_range, exists_exists_and_eq_and]
  refine Iff.trans ⟨fun ⟨i, _, h⟩ => ?_, fun ⟨i, r, p, row, htok, hend, hi, hy, hv⟩ => ?_⟩
    (and_iff_right (by omega)).symm
  · cases htok : (tokens committed batch)[i]? with
    | none =>
      rw [batchSlots_none _ _ htok, if_neg (by omega)] at h
      cases h
    | some x =>
      obtain ⟨r, p, row⟩ := x
      have hslot := batchSlots_getD S.slotMapping padding htok
      by_cases hend : p % S.kpool = S.kpool - 1
      · rw [hslot, slotMapping_end S hend] at h
        split_ifs at h with hi
        · obtain ⟨rfl, rfl⟩ := Prod.mk.inj (List.mem_singleton.mp h)
          exact ⟨i, r, p, row, htok, hend, hi.2, Int.toNat_natCast _, rfl⟩
        · cases h
      · rw [hslot, slotMapping_open S hend, if_neg (by omega)] at h
        cases h
  · refine ⟨i, (List.getElem?_eq_some_iff.mp (batchSlots_at S.slotMapping padding htok)).1, ?_⟩
    rw [batchSlots_getD _ _ htok, slotMapping_end S hend, if_pos ⟨Int.natCast_nonneg _, hi⟩,
      Int.toNat_natCast, List.mem_singleton, hy, hv]

/-- A chunk in its batch: the rows behind its offset are the chunk's, as the committed ones go on.
-/
theorem batchRows_chunk (padding : List E) {off : Nat} {r : R} {chunk : List E}
    (hat : ∀ i p row, (tokens committed batch)[i]? = some (r, p, row) ↔
      ∃ t, i = off + t ∧ p = (committed r).length + t ∧ chunk[t]? = some row) {t : Nat}
      (ht : t < chunk.length) :
    (batchRows committed batch padding)[off + t]? =
      (committed r ++ chunk)[(committed r).length + t]? := by
  rw [batchRows_at ((hat _ _ _).mpr ⟨t, rfl, rfl, List.getElem?_eq_getElem ht⟩),
    List.getElem?_append_right (Nat.le_add_right _ _), Nat.add_sub_cancel_left,
    List.getElem?_eq_getElem ht]

/-- The insertion of a request in the batch, for a pool that lies in its chunk. -/
theorem stores_insert_of_mem (hdistinct : (batch.map Prod.fst).Nodup) {r : R} {chunk : List E}
    (hmem : (r, chunk) ∈ batch) {p : Nat} (hp : p < (committed r).length + chunk.length)
    (hend : p % S.kpool = S.kpool - 1) (hstart : (committed r).length ≤ p + 1 - S.kpool) {v : P} :
    Stores (compressInsert S.kpool S.compress (batchSlots committed S.slotMapping batch padding)
      (batchRows committed batch padding)) (S.loc r (p / S.kpool)) v ↔
    v = S.compress (window S.kpool (committed r ++ chunk) p) := by
  obtain ⟨off, hat⟩ := tokens_at committed hdistinct hmem
  have hk := S.kpool_pos
  have hle : S.kpool - 1 ≤ p := hend ▸ Nat.mod_le _ _
  obtain ⟨t, rfl⟩ : ∃ t, p = (committed r).length + t := ⟨p - (committed r).length, by omega⟩
  have htok := (hat (off + t) _ _).mpr ⟨t, rfl, rfl,
    List.getElem?_eq_getElem (show t < chunk.length by omega)⟩
  have hrows : ((batchRows committed batch padding).drop (off + t - (S.kpool - 1))).take S.kpool =
      window S.kpool (committed r ++ chunk) ((committed r).length + t) := by
    refine List.ext_getElem? fun j => ?_
    rw [window, List.getElem?_take, List.getElem?_take, List.getElem?_drop, List.getElem?_drop]
    split_ifs with hj
    · have hrow := batchRows_chunk padding hat (t := t + 1 - S.kpool + j) (by omega)
      rw [show off + t - (S.kpool - 1) + j = off + (t + 1 - S.kpool + j) by omega, hrow]
      congr 1
      omega
    · rfl
  rw [stores_insert]
  constructor
  · rintro ⟨-, i, r', p', row, htok', hend', -, hloc, hv⟩
    obtain ⟨rfl, hpool⟩ := S.loc_inj _ _ _ _ hloc
    obtain rfl : (committed r).length + t = p' := by
      by_contra hne
      exact pool_ne hend hend' hne hpool
    obtain ⟨t', rfl, ht', -⟩ := (hat _ _ _).mp htok'
    obtain rfl : t = t' := by omega
    rw [hv, hrows]
  · rintro rfl
    have hlen := (List.getElem?_eq_some_iff.mp (batchSlots_at S.slotMapping padding htok)).1
    exact ⟨by omega, off + t, r, _, _, htok, hend, by omega, rfl, by rw [hrows]⟩

/-- No insertion for a pool that ended before the batch. -/
theorem stores_insert_before {r : R} {p : Nat} (hp : p < (committed r).length)
    (hend : p % S.kpool = S.kpool - 1) {v : P} :
    ¬ Stores (compressInsert S.kpool S.compress
      (batchSlots committed S.slotMapping batch padding)
      (batchRows committed batch padding)) (S.loc r (p / S.kpool)) v := by
  rw [stores_insert]
  rintro ⟨-, i, r', p', row, htok, hend', -, hloc, -⟩
  obtain ⟨rfl, hpool⟩ := S.loc_inj _ _ _ _ hloc
  obtain rfl : p = p' := by
    by_contra hne
    exact pool_ne hend hend' hne hpool
  obtain ⟨x, -, htok⟩ := List.mem_flatMap.mp (List.mem_of_getElem? htok)
  obtain ⟨⟨row', t⟩, -, heq⟩ := List.mem_map.mp htok
  obtain ⟨rfl, hpair⟩ := Prod.mk.inj heq
  have := (Prod.mk.inj hpair).1
  omega

variable [DecidableEq R]

theorem commitBatch_of_mem (hdistinct : (batch.map Prod.fst).Nodup) {r : R} {chunk : List E}
    (hmem : (r, chunk) ∈ batch) :
    commitBatch committed batch r = committed r ++ chunk := by
  have hlookup : batch.lookup r = some chunk := by
    obtain ⟨pre, post, rfl⟩ := List.append_of_mem hmem
    rw [List.map_append, List.map_cons, List.nodup_append] at hdistinct
    refine List.lookup_eq_some_iff.mpr ⟨pre, post, rfl, fun x hx => bne_iff_ne.mpr fun heq => ?_⟩
    exact hdistinct.2.2 x.1 (List.mem_map.mpr ⟨x, hx, rfl⟩) r List.mem_cons_self heq.symm
  rw [commitBatch, hlookup]
  rfl

theorem commitBatch_other {r : R} (hr : r ∉ batch.map Prod.fst) :
    commitBatch committed batch r = committed r := by
  have hlookup : batch.lookup r = none :=
    List.lookup_eq_none_iff.mpr fun x hx => bne_iff_ne.mpr fun heq =>
      hr (List.mem_map.mpr ⟨x, hx, heq.symm⟩)
  rw [commitBatch, hlookup]
  exact List.append_nil _

/-- **A prefill batch keeps the invariant.** -/
theorem Inv.prefill {w : World R E P} {s' : Caches E P} (hw : Inv S w)
    (hdistinct : (batch.map Prod.fst).Nodup)
    (htail : Outcome (seedTailCache S.ring S.kpool (batchSlots w.committed S.tailSlot batch padding)
      (batchRows w.committed batch padding)) w.caches.tail s'.tail)
    (hcache : Outcome (compressInsert S.kpool S.compress
      (batchSlots w.committed S.slotMapping batch padding)
      (batchRows w.committed batch padding)) w.caches.cache s'.cache) :
    Inv S ⟨s', commitBatch w.committed batch, fun r m => w.ragged r m ∨
      raggedIn w.committed S.kpool batch r m⟩ := by
  have hk := S.kpool_pos
  have hring := ring_ge S
  constructor
  · intro r
    dsimp only
    by_cases hr : r ∈ batch.map Prod.fst
    · obtain ⟨⟨r, chunk⟩, hmem, rfl⟩ := List.mem_map.mp hr
      rw [commitBatch_of_mem hdistinct hmem, List.length_append]
      have hmod := Nat.div_add_mod ((w.committed r).length + chunk.length) S.kpool
      have hlt := Nat.mod_lt ((w.committed r).length + chunk.length) hk
      intro q hlo hq
      -- the stored rows and the open pool are less than a ring apart
      have hsame : ∀ t, chunk.length ≤ t + S.kpool → t < chunk.length →
          q % S.ring = ((w.committed r).length + t) % S.ring →
            q = (w.committed r).length + t := fun t ht ht' => by
        exact @slot_inj S.ring ((w.committed r).length + chunk.length - S.kpool) _ _ (by omega)
          (by omega) (by omega) (by omega)
      rcases htail (S.block r, q % S.ring) with hs | ⟨hno, hkeep⟩
      · obtain ⟨t, hrow, hslot, ht⟩ := (stores_seed_of_mem hdistinct hmem).mp hs
        rw [hsame t ht (List.getElem?_eq_some_iff.mp hrow).1 hslot,
          List.getElem?_append_right (Nat.le_add_right _ _),
          Nat.add_sub_cancel_left, hrow, hsame t ht (List.getElem?_eq_some_iff.mp hrow).1 hslot]
      · have hbefore : q < (w.committed r).length := by
          by_contra hge
          refine hno _ ((stores_seed_of_mem hdistinct hmem).mpr
            ⟨q - (w.committed r).length, List.getElem?_eq_getElem (by omega), ?_, by omega⟩)
          rw [Nat.add_sub_cancel' (by omega)]
        have hopen := Nat.mul_le_mul_left S.kpool
          (Nat.div_le_div_right (c := S.kpool)
            (Nat.le_add_right (w.committed r).length chunk.length))
        rw [List.getElem?_append_left hbefore, hkeep]
        exact hw.tail r q (hopen.trans hlo) hbefore
    · rw [commitBatch_other hr]
      intro q hlo hq
      rw [htail.kept fun v => stores_seed_other hr]
      exact hw.tail r q hlo hq
  · intro r p hp hend hnot
    dsimp only at hp hnot ⊢
    rw [not_or] at hnot
    by_cases hr : r ∈ batch.map Prod.fst
    · obtain ⟨⟨r, chunk⟩, hmem, rfl⟩ := List.mem_map.mp hr
      rw [commitBatch_of_mem hdistinct hmem] at hp ⊢
      rw [List.length_append] at hp
      rcases Nat.lt_or_ge p (w.committed r).length with hbefore | hin
      · rw [hcache.kept fun v => stores_insert_before hbefore hend,
          hw.cache r p hbefore hend hnot.1]
        exact congrArg _ (window_congr hend fun q hq => (List.getElem?_append_left (by omega)).symm)
      · have hstart : (w.committed r).length ≤ p + 1 - S.kpool := by
          by_contra hlt
          obtain ⟨hpool, hphase, hlast⟩ := begun_before hk hin hend (by omega)
          exact hnot.2 ⟨chunk, hmem, hpool, hphase, hlast ▸ hp⟩
        rcases hcache (S.loc r (p / S.kpool)) with hs | ⟨hno, -⟩
        · exact (stores_insert_of_mem hdistinct hmem hp hend hstart).mp hs
        · exact absurd ((stores_insert_of_mem hdistinct hmem hp hend hstart).mpr rfl) (hno _)
    · rw [commitBatch_other hr] at hp ⊢
      rw [hcache.kept fun v => stores_insert_before hp hend]
      exact hw.cache r p hp hend hnot.1

end Batch

/-! ## The claim on the ring -/

section Exact

variable {S} {w : World R E P}

/-- Pools of two, one speculative row, one request. -/
def pairs : Setup Unit Nat (List Nat) where
  kpool := 2
  numSpec := 1
  block _ := 0
  loc _ m := m
  compress := id
  kpool_pos := Nat.two_pos
  block_inj _ _ _ := rfl
  loc_inj _ _ _ _ h := ⟨rfl, h⟩

/-- A step whose second row, which ends a pool, is rejected. -/
def rejected : World Unit Nat (List Nat) :=
  ⟨verifyCaches pairs ⟨fun _ => 0, fun _ => []⟩ () 0 [5, 6] [],
    Function.update (fun _ => []) () [5], fun _ _ => False⟩

end Exact

end Ringside.KpoolTail

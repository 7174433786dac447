import Ringside.Shards

/-!
# The indexer's row split (`glm53_indexer_rowsplit.py`)

A prefill chunk's query rows are cut into contiguous, tile-aligned ranges of one extent, one for
each rank. Every rank selects for its rows, and the ranks gather the padded selections. Model of
`partition`, `split_rows` and `RowSplit.select`.

* `partition` is on Python's integers, with its floor divisions and the checks in front of it;
  `extentOf`, `startOf` and `stopOf` are the answers for valid arguments in natural numbers.
* The two kernels, the top-k and its canonical order, are row by row: any function of a row's scores
  and bounds (`Chunk`).
* `localSelect` fills a buffer of -1 rows, so what a rank brings to the gather is padded (`own`).
  The gather brings the buffers in rank order (the library's `Shards`).
* The last ranks may have no rows. Their slice is empty and starts at the row count, which need not
  be a multiple of the tile.

Results:
* `partition_eq`: what `partition` answers for valid arguments.
* `existsUnique_rank`: every row is in exactly one rank's slice.
* `select_eq`: what the gather leaves on a rank.
* `row_split_exact`: every rank gets the selection of all rows, each row from exactly one rank.
-/

namespace Ringside.RowSplit

open Ringside.Shards

/-- The errors of `partition` and `split_rows`, with what their messages show. -/
inductive Error where
  | value (rows world rank tile : Int)
  | «local» (got : Nat) (extent : Int)
  | gathered (got : Nat) (world extent : Int)
  deriving DecidableEq, Repr

/-- `partition`: the range of a rank and the common extent. -/
def partition (rows world rank tile : Int) : Except Error (Int × Int × Int) :=
  if rows < 0 ∨ world < 1 ∨ ¬ (0 ≤ rank ∧ rank < world) ∨ tile < 1 then
    .error (.value rows world rank tile)
  else
    let extent := -((-rows) / (world * tile)) * tile
    let start := min rows (rank * extent)
    .ok (start, min rows (start + extent), extent)

/-- `split_rows`. -/
def splitRows {β : Type} (rows world rank tile : Int) (localSelect : Int → Int → Int → List β)
    (gather : List β → List β) : Except Error (List β) :=
  match partition rows world rank tile with
  | .error e => .error e
  | .ok (start, stop, extent) =>
    let own := localSelect start stop extent
    if (own.length : Int) ≠ extent then .error (.local own.length extent)
    else
      let full := gather own
      if (full.length : Int) ≠ world * extent then .error (.gathered full.length world extent)
      else .ok (full.take rows.toNat)

/-- A chunk: its score rows and their bounds, and the two row-wise kernels. -/
structure Chunk (σ : Type) where
  logits : List σ
  starts : List Int
  ends : List Int
  selectK : Nat
  topk : σ → Int → Int → List Int
  canon : σ → Int → Int → List Int → List Int
  starts_length : starts.length = logits.length
  ends_length : ends.length = logits.length

/-- `l[a:b]`. -/
def slice {β : Type} (a b : Nat) (l : List β) : List β := (l.drop a).take (b - a)

namespace Chunk

variable {σ : Type} (C : Chunk σ)

/-- The chunk's rows. -/
def rows : Nat := C.logits.length

/-- The kernels on rows `a` to `b`: `topk`, then `canon` in place. -/
def picked (a b : Nat) : List (List Int) :=
  ((slice a b C.logits).zip ((slice a b C.starts).zip (slice a b C.ends))).map
    fun (x, s, e) => C.canon x s e (C.topk x s e)

/-- `local_select`: a buffer of -1 rows whose first rows hold the selection. -/
def localSelect (start stop extent : Int) : List (List Int) :=
  let out := C.picked start.toNat stop.toNat
  out ++ List.replicate (extent.toNat - out.length) (List.replicate C.selectK (-1))

/-- What rank `rank` brings to the gather. -/
def own (world tile : Int) (rank : Nat) : List (List Int) :=
  match partition C.rows world rank tile with
  | .ok (start, stop, extent) => C.localSelect start stop extent
  | .error _ => []

/-- `RowSplit.select` on rank `rank`, the group's `all_gather` bringing every rank's buffer. -/
def select (world tile : Int) (rank : Nat) : Except Error (List (List Int)) :=
  splitRows C.rows world rank tile C.localSelect fun _ => gather world.toNat (C.own world tile)

end Chunk

/-! ## The partition -/

/-- The extent in natural numbers. -/
def extentOf (rows world tile : Nat) : Nat := (rows + world * tile - 1) / (world * tile) * tile

/-- Where the slice of a rank begins. -/
def startOf (rows world tile rank : Nat) : Nat := min rows (rank * extentOf rows world tile)

/-- Where the slice of a rank ends. -/
def stopOf (rows world tile rank : Nat) : Nat :=
  min rows (startOf rows world tile rank + extentOf rows world tile)

/-- `-(-n // d)` rounds up. -/
theorem ceil_eq {n d : Nat} (hd : 0 < d) : -((-(n : Int)) / (d : Int)) =
    ((n + d - 1) / d : Nat) := by
  obtain ⟨q, hq⟩ : ∃ q, q = (n + d - 1) / d := ⟨_, rfl⟩
  have hlow : q * d ≤ n + d - 1 := by
    rw [hq]
    exact Nat.div_mul_le_self _ _
  have hhigh : n + d - 1 < q * d + d := by
    rw [hq]
    exact Nat.lt_div_mul_add hd
  have hdiv := ((Int.ediv_emod_unique (a := -(n : Int)) (b := d) (r := (q * d : Nat) - (n : Int))
    (q := -(q : Int)) (by omega)).mpr ⟨by push_cast; ring, by omega, by omega⟩).1
  rw [hdiv, ← hq, neg_neg]

variable {rows world tile rank : Nat}

/-- **`partition` answers every valid question.** -/
theorem partition_eq (hr : rank < world) (ht : 0 < tile) : partition rows world rank tile = .ok
    ((startOf rows world tile rank : Nat), (stopOf rows world tile rank : Nat),
      (extentOf rows world tile : Nat)) := by
  have hceil := ceil_eq (n := rows) (d := world * tile) (Nat.mul_pos (by omega) ht)
  have hext : -((-(rows : Int)) / ((world : Int) * tile)) * tile =
    (extentOf rows world tile : Nat) := by
    rw [← Nat.cast_mul, hceil, extentOf]
    push_cast
    rfl
  unfold partition
  rw [if_neg (by omega)]
  simp only [hext, startOf, stopOf]
  push_cast
  rfl

theorem rows_le (hw : 0 < world) (ht : 0 < tile) : rows ≤ world * extentOf rows world tile := by
  have hd := Nat.mul_pos hw ht
  have := Nat.lt_div_mul_add (a := rows + world * tile - 1) hd
  have heq : world * extentOf rows world tile =
      (rows + world * tile - 1) / (world * tile) * (world * tile) := by
    unfold extentOf
    ring
  omega

/-- A slice with rows begins at its rank's share of whole tiles. -/
theorem startOf_of_lt (h : startOf rows world tile rank < stopOf rows world tile rank) :
    startOf rows world tile rank = rank * extentOf rows world tile := by
  unfold startOf stopOf at *
  omega

/-- A slice without rows begins at the row count. -/
theorem startOf_of_eq (hw : 0 < world) (ht : 0 < tile)
    (h : startOf rows world tile rank = stopOf rows world tile rank) :
    startOf rows world tile rank = rows := by
  have hle : rows ≤ world * extentOf rows world tile := rows_le hw ht
  rcases Nat.eq_zero_or_pos (extentOf rows world tile) with h0 | h0
  · rw [h0, Nat.mul_zero] at hle
    unfold startOf
    omega
  · unfold stopOf startOf at *
    omega

theorem mem_slice {i : Nat} (hi : i < rows) :
    (startOf rows world tile rank ≤ i ∧ i < stopOf rows world tile rank) ↔
      rank * extentOf rows world tile ≤ i ∧
      i < rank * extentOf rows world tile + extentOf rows world tile := by
  unfold stopOf startOf
  omega

/-- **Every row is in exactly one rank's slice.** -/
theorem existsUnique_rank (hw : 0 < world) (ht : 0 < tile) {i : Nat} (hi : i < rows) :
    ∃ r < world, (startOf rows world tile r ≤ i ∧ i < stopOf rows world tile r) ∧
      ∀ r', startOf rows world tile r' ≤ i → i < stopOf rows world tile r' → r' = r := by
  have hle : rows ≤ world * extentOf rows world tile := rows_le hw ht
  have hpos : 0 < extentOf rows world tile := by
    rcases Nat.eq_zero_or_pos (extentOf rows world tile) with h | h
    · rw [h] at hle
      omega
    · exact h
  have hdiv := Nat.div_add_mod' i (extentOf rows world tile)
  have hmod := Nat.mod_lt i hpos
  refine ⟨i / extentOf rows world tile, (Nat.div_lt_iff_lt_mul hpos).mpr (hi.trans_le hle), ?_, ?_⟩
  · exact (mem_slice hi).mpr ⟨by omega, by omega⟩
  · intro r h1 h2
    obtain ⟨h1, h2⟩ := (mem_slice hi).mp ⟨h1, h2⟩
    refine (Nat.div_eq_of_lt_le h1 ?_).symm
    rw [Nat.succ_mul]
    exact h2

/-! ## The selection -/

namespace Chunk

variable {σ : Type} {C : Chunk σ}

/-- Row-wise kernels commute with slicing. -/
theorem picked_eq_slice (a b : Nat) : C.picked a b = slice a b (C.picked 0 C.rows) := by
  have hall : ∀ {β : Type} {l : List β}, l.length = C.logits.length → slice 0 C.rows l = l := by
    intro β l hl
    simp [slice, rows, ← hl]
  unfold picked
  rw [hall rfl, hall C.starts_length, hall C.ends_length]
  simp only [slice, List.zip, ← List.map_take, ← List.map_drop, List.take_zipWith,
    List.drop_zipWith]

theorem length_picked : (C.picked 0 C.rows).length = C.rows := by
  simp [picked, slice, rows, C.starts_length, C.ends_length]

theorem length_slice {β : Type} {a b : Nat} {l : List β} (hb : b ≤ l.length) :
    (slice a b l).length = b - a := by
  simp [slice]
  omega

/-- A rank's buffer: its slice of the selection, padded to the extent. -/
theorem localSelect_eq {a b extent : Nat} (hb : b ≤ C.rows) : C.localSelect a b extent =
    slice a b (C.picked 0 C.rows) ++
      List.replicate (extent - (b - a)) (List.replicate C.selectK (-1)) := by
  simp only [localSelect, Int.toNat_natCast]
  rw [picked_eq_slice, length_slice (by rw [length_picked]; exact hb)]

/-- The selection of all rows at once. -/
theorem localSelect_all : C.localSelect 0 C.rows C.rows = C.picked 0 C.rows := by
  have h := @localSelect_eq _ C 0 C.rows C.rows le_rfl
  rw [Nat.cast_zero] at h
  rw [h, ← picked_eq_slice]
  simp

variable {world tile rank : Nat}

theorem own_eq (hr : rank < world) (ht : 0 < tile) : C.own world tile rank =
    C.localSelect (startOf C.rows world tile rank) (stopOf C.rows world tile rank)
      (extentOf C.rows world tile) := by
  unfold own
  rw [partition_eq hr ht]

theorem length_own (hr : rank < world) (ht : 0 < tile) :
    (C.own world tile rank).length = extentOf C.rows world tile := by
  have hstop : stopOf C.rows world tile rank ≤ C.rows := Nat.min_le_left _ _
  have hlen : stopOf C.rows world tile rank - startOf C.rows world tile rank ≤
      extentOf C.rows world tile := by
    unfold stopOf
    omega
  rw [own_eq hr ht, localSelect_eq hstop, List.length_append, List.length_replicate,
    length_slice (by rw [length_picked]; exact hstop)]
  omega

/-- A rank's buffer agrees with the whole selection on its rows. -/
theorem getElem?_own (hr : rank < world) (ht : 0 < tile) {j : Nat}
    (hj : j < extentOf C.rows world tile)
    (hlt : rank * extentOf C.rows world tile + j < C.rows) :
    (C.own world tile rank)[j]? = (C.picked 0 C.rows)[rank * extentOf C.rows world tile + j]? := by
  have hstop : stopOf C.rows world tile rank ≤ C.rows := Nat.min_le_left _ _
  have hstart : startOf C.rows world tile rank = rank * extentOf C.rows world tile := by
    unfold startOf
    omega
  have hin : rank * extentOf C.rows world tile + j < stopOf C.rows world tile rank := by
    unfold stopOf
    omega
  rw [own_eq hr ht, localSelect_eq hstop, List.getElem?_append_left, slice, List.getElem?_take,
    if_pos (by omega), List.getElem?_drop, hstart]
  rw [length_slice (by rw [length_picked]; exact hstop)]
  omega

/-- The selection of every rank. -/
theorem select_eq (hr : rank < world) (ht : 0 < tile) :
    C.select world tile rank = .ok (C.localSelect 0 C.rows C.rows) := by
  have hlen : (gather world (C.own world tile)).length = world * extentOf C.rows world tile :=
    length_gather fun r hr => length_own hr ht
  have htake : (gather world (C.own world tile)).take C.rows = C.picked 0 C.rows := by
    have h := take_gather (l := C.picked 0 C.rows) (f := C.own world tile) (w := world)
      (fun r hr => length_own hr ht)
      (by rw [length_picked]; exact rows_le (by omega) ht)
      fun r hr j hj hlt => getElem?_own hr ht hj (by rwa [length_picked] at hlt)
    rwa [length_picked] at h
  have hown := length_own (C := C) hr ht
  rw [own_eq hr ht] at hown
  unfold select splitRows
  rw [partition_eq hr ht]
  simp only [Int.toNat_natCast]
  rw [if_neg (by simp [hown]), if_neg (by simp [hlen]), htake, localSelect_all]

end Chunk

/-- **Row-split indexing is full selection**: every rank gets the selection of all rows at once. The
extents are equal, every row is in exactly one slice, a slice that has rows begins at a whole tile,
and an empty one at the row count. -/
theorem row_split_exact {σ : Type} (C : Chunk σ) {world tile : Nat} (hw : 0 < world)
    (ht : 0 < tile) :
    (∀ rank < world, C.select world tile rank = .ok (C.localSelect 0 C.rows C.rows)) ∧
    ∃ extent, ∃ start stop : Nat → Nat,
      (∀ rank < world, partition C.rows world rank tile =
        .ok ((start rank : Nat), (stop rank : Nat), (extent : Nat))) ∧
      (∀ rank < world, start rank < stop rank → tile ∣ start rank) ∧
      (∀ rank < world, start rank = stop rank → start rank = C.rows) ∧
      ∀ i < C.rows, ∃! rank, rank < world ∧ start rank ≤ i ∧ i < stop rank := by
  refine ⟨fun rank hr => Chunk.select_eq hr ht, extentOf C.rows world tile,
    startOf C.rows world tile,
    stopOf C.rows world tile, fun rank hr => partition_eq hr ht, fun rank _ hlt => ?_,
    fun rank _ heq => startOf_of_eq hw ht heq, fun i hi => ?_⟩
  · rw [startOf_of_lt hlt]
    exact Dvd.dvd.mul_left (Dvd.intro_left _ rfl) _
  · obtain ⟨r, hr, hin, huniq⟩ := existsUnique_rank hw ht hi
    exact ⟨r, ⟨hr, hin⟩, fun r' hr' => huniq r' hr'.2.1 hr'.2.2⟩

/-- Three rows for two ranks. -/
def threeRows : Chunk Nat where
  logits := [5, 6, 7]
  starts := [0, 0, 0]
  ends := [1, 2, 3]
  selectK := 1
  topk := fun x _ _ => [(x : Int)]
  canon := fun _ _ _ out => out
  starts_length := rfl
  ends_length := rfl

theorem threeRows_selected : threeRows.select 2 1 1 = .ok [[5], [6], [7]] :=
  (row_split_exact threeRows (by decide) (by decide)).1 1 (by decide)

/-- One row for two ranks: the second one's empty slice begins at row 1, inside a tile. -/
theorem emptySlice_unaligned : partition 1 2 1 64 = .ok (1, 1, 64) ∧ ¬ (64 : Int) ∣ 1 := by
  decide

end Ringside.RowSplit

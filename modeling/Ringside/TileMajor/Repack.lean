import Ringside.Checks
import Ringside.Scatter
import Ringside.Tensor

/-!
# Tile-major expert weights (`_tp4_tile_major.py`)

A box is 128 rows of 64 bytes. In the stock layout its rows are a matrix row apart; the repack makes
every box one range of bytes, in the order the kernel asks for them: for each slice the gate tiles,
then the up tiles (FC1), and the output tiles (FC2). The repack is written with tensor operations,
and done in place a chunk of experts at a time.

* Tensors are bytes in row-major order, with the shape that `view`, `permute` and `index_select`
  give them (the library's `Tensor`). Tile indices are natural numbers; the loops of the
  permutations give tiles in range.
* `Geometry` is the class with the checks of its constructor; its derived counts (`kt`, `g`, `ot`,
  `st`) are the properties of the source.
* `permutation` is the loop that numbers the tiles with its check that nothing is missing; `w13Tile`
  and `w2Tile` are the two numberings.
* `repackChunk` is a turn of the loop over the chunks, and writes to the storage that it reads. The
  error of a chunk would be that of the first one, before anything is written.

Results:
* `w13Permutation_spec`, `w2Permutation_spec`: the permutations are complete, and box `tile` comes
  from its tile.
* `permuteBoxes_data`: where a byte of a repacked expert comes from.
* `repack_bijective`: the repack is a permutation of the bytes.
* `repackInplace_eq`: in place, with any chunk size, it is the repack of the whole tensor.
-/

namespace Ringside.TileMajor

open Ringside.Checks Ringside.Scatter

/-- What a call raises. -/
inductive Err where
  | valueError (msg : String)
  | assertionError (msg : String)
  | indexError
  | zeroDivisionError
  | runtimeError (msg : String)
deriving DecidableEq

abbrev tileRows : Nat := 128
abbrev tileBytes : Nat := 64

/-- `Geometry`, as accepted. -/
structure Geometry where
  k : Nat
  n : Nat
  e : Nat
  hk : 256 ∣ k
  hn : 128 ∣ n
deriving DecidableEq

/-- `Geometry(hidden, intermediate, experts)`. -/
def geometry (hidden intermediate experts : Nat) : Except Err Geometry :=
  if h : 128 ∣ intermediate ∧ 256 ∣ hidden then .ok ⟨hidden, intermediate, experts, h.2, h.1⟩
  else .error (.valueError "hidden and intermediate must be multiples of 128")

namespace Geometry

variable (geo : Geometry)

def kt : Nat := geo.k / 128
def g : Nat := geo.n / tileRows
def ot : Nat := geo.k / tileRows
def st : Nat := geo.n / 128
def rows13 : Nat := 2 * geo.n
def tiles13 : Nat := 2 * geo.g * geo.kt
def tiles2 : Nat := geo.st * geo.ot
def tmRows13 : Nat := geo.tiles13 * tileRows
def tmRows2 : Nat := geo.tiles2 * tileRows

end Geometry

/-! ## The permutations

`permutation` fills a list from a numbering of tiles and checks that no place is missing. For a
numbering that is one to one the check passes, and the list is its inverse.
-/

/-- `w13_tile`: gate tiles are those from `g` on. -/
def w13Tile (geo : Geometry) (nTile kTile : Nat) : Nat :=
  let s := nTile % geo.g
  let passIndex := if nTile ≥ geo.g then 0 else 1
  (s * 2 + passIndex) * geo.kt + kTile

/-- `w2_tile`. -/
def w2Tile (geo : Geometry) (outTile sliceIndex : Nat) : Nat := sliceIndex * geo.ot + outTile

/-- `perm[tile(o, i)] = o * inner + i` for all tiles, then the check that nothing is missing. -/
def permutation (count outer inner : Nat) (tile : Nat → Nat → Nat) (missing : String) :
    Except Err (List Nat) :=
  let perm : Nat → Option Nat :=
    stores ((List.range outer).flatMap fun o => (List.range inner).map fun i =>
      (tile o i, some (o * inner + i)))
      fun _ => none
  (List.range count).mapM fun t => (perm t).elim (.error (.assertionError missing)) .ok

/-- `w13_permutation`. -/
def w13Permutation (geo : Geometry) : Except Err (List Nat) :=
  permutation geo.tiles13 (2 * geo.g) geo.kt (w13Tile geo) "W13 permutation incomplete"

/-- `w2_permutation`. -/
def w2Permutation (geo : Geometry) : Except Err (List Nat) :=
  permutation geo.tiles2 geo.ot geo.st (w2Tile geo) "W2 permutation incomplete"

section Permutation

/-- What a permutation of boxes is. -/
structure BoxPerm (boxes : Nat) (perm : List Nat) : Prop where
  length : perm.length = boxes
  lt : ∀ t < boxes, perm.getD t 0 < boxes
  inj : ∀ t < boxes, ∀ t' < boxes, perm.getD t 0 = perm.getD t' 0 → t = t'

/-- **A numbering of the tiles is a complete permutation**, and what it lists for a tile's box is
the tile. -/
theorem permutation_spec {count outer inner : Nat} {tile : Nat → Nat → Nat} {missing : String}
    (hcount : count = outer * inner)
    (hinj : ∀ o i o' i', o < outer → i < inner → o' < outer → i' < inner → tile o i = tile o' i' →
      o = o' ∧ i = i')
    (hsurj : ∀ t < count, ∃ o i, o < outer ∧ i < inner ∧ tile o i = t) :
    ∃ perm, permutation count outer inner tile missing = .ok perm ∧ BoxPerm (outer * inner) perm ∧
      ∀ o i, o < outer → i < inner → tile o i < count → perm.getD (tile o i) 0 = o * inner + i := by
  unfold permutation
  dsimp only
  generalize hw : ((List.range outer).flatMap fun o => (List.range inner).map fun i =>
    (tile o i, some (o * inner + i))) = writes
  have hnodup : (writes.map Prod.fst).Nodup := by
    rw [← hw, List.map_flatMap]
    refine nodup_flatMap_range (fun o ho => ?_) fun o ho o' ho' hne x hx hx' => ?_
    · rw [List.map_map, List.nodup_map_iff_inj_on List.nodup_range]
      exact fun i hi i' hi' h =>
        (hinj o i o i' ho (List.mem_range.mp hi) ho (List.mem_range.mp hi') h).2
    · simp only [List.map_map, List.mem_map, List.mem_range, Function.comp_apply] at hx hx'
      obtain ⟨i, hi, rfl⟩ := hx
      obtain ⟨i', hi', h⟩ := hx'
      exact hne (hinj o i o' i' ho hi ho' hi' h.symm).1
  have hstored : ∀ o i, o < outer → i < inner → stores writes (fun _ => none) (tile o i) =
    some (o * inner + i) := by
    intro o i ho hi
    refine stores_of_mem hnodup ?_
    rw [← hw]
    exact List.mem_flatMap.mpr ⟨o, List.mem_range.mpr ho,
      List.mem_map.mpr ⟨i, List.mem_range.mpr hi, rfl⟩⟩
  have hat : ∀ o i, o < outer → i < inner → tile o i < count →
      ((List.range count).map fun t => (stores writes (fun _ => none) t).getD 0).getD (tile o i) 0 =
      o * inner + i := by
    intro o i ho hi hlt
    rw [List.getD_eq_getElem?_getD, List.getElem?_map, List.getElem?_range hlt, Option.map_some,
      hstored o i ho hi]
    rfl
  refine ⟨_, mapM_ok fun t ht => ?_, ⟨by rw [List.length_map, List.length_range, hcount], ?_, ?_⟩,
    hat⟩
  · obtain ⟨o, i, ho, hi, rfl⟩ := hsurj t (List.mem_range.mp ht)
    rw [hstored o i ho hi]
    rfl
  · intro t ht
    obtain ⟨o, i, ho, hi, rfl⟩ := hsurj t (hcount ▸ ht)
    rw [hat o i ho hi (hcount ▸ ht)]
    exact digits_lt ho hi
  · intro t ht t' ht' heq
    obtain ⟨o, i, ho, hi, rfl⟩ := hsurj t (hcount ▸ ht)
    obtain ⟨o', i', ho', hi', rfl⟩ := hsurj t' (hcount ▸ ht')
    rw [hat o i ho hi (hcount ▸ ht), hat o' i' ho' hi' (hcount ▸ ht')] at heq
    obtain ⟨rfl, rfl⟩ := digits_inj hi hi' heq
    rfl

variable (geo : Geometry) {s : Nat} (kTile : Nat)

/-- The box of a gate tile. -/
theorem w13Tile_gate (hs : s < geo.g) : w13Tile geo (geo.g + s) kTile = s * 2 * geo.kt + kTile := by
  unfold w13Tile
  dsimp only
  rw [Nat.add_mod_left, Nat.mod_eq_of_lt hs, if_pos (Nat.le_add_right _ _), Nat.add_zero]

/-- The box of an up tile. -/
theorem w13Tile_up (hs : s < geo.g) : w13Tile geo s kTile = (s * 2 + 1) * geo.kt + kTile := by
  unfold w13Tile
  dsimp only
  rw [Nat.mod_eq_of_lt hs, if_neg (by omega)]

/-- **`w13_permutation` is complete.** -/
theorem w13Permutation_spec : ∃ perm, w13Permutation geo = .ok perm ∧
    BoxPerm (2 * geo.g * geo.kt) perm ∧
    ∀ nTile kTile, nTile < 2 * geo.g → kTile < geo.kt → w13Tile geo nTile kTile < geo.tiles13 →
      perm.getD (w13Tile geo nTile kTile) 0 = nTile * geo.kt + kTile := by
  refine permutation_spec rfl (fun o i o' i' ho hi ho' hi' h => ?_) fun t ht => ?_
  · obtain ⟨hpass, rfl⟩ := digits_inj hi hi' h
    refine ⟨?_, rfl⟩
    rcases Nat.lt_or_ge o geo.g with hog | hog <;> rcases Nat.lt_or_ge o' geo.g with hog' | hog'
    · rw [Nat.mod_eq_of_lt hog, Nat.mod_eq_of_lt hog', if_neg (by omega),
        if_neg (by omega)] at hpass
      omega
    · rw [if_neg (by omega), if_pos hog'] at hpass
      omega
    · rw [if_pos hog, if_neg (by omega)] at hpass
      omega
    · rw [if_pos hog, if_pos hog', Nat.mod_eq_sub_mod hog, Nat.mod_eq_sub_mod hog',
        Nat.mod_eq_of_lt (by omega), Nat.mod_eq_of_lt (by omega)] at hpass
      omega
  · have hkt : 0 < geo.kt := Nat.pos_of_mul_pos_left (Nat.zero_lt_of_lt ht)
    have hpass : t / geo.kt < 2 * geo.g := Nat.div_lt_of_lt_mul
      (by rwa [Geometry.tiles13, Nat.mul_comm] at ht)
    have hdiv := Nat.div_add_mod' t geo.kt
    rcases Nat.mod_two_eq_zero_or_one (t / geo.kt) with h | h
    · refine ⟨geo.g + t / geo.kt / 2, t % geo.kt, by omega, Nat.mod_lt _ hkt, ?_⟩
      rw [w13Tile_gate geo _ (by omega), show t / geo.kt / 2 * 2 = t / geo.kt by omega, hdiv]
    · refine ⟨t / geo.kt / 2, t % geo.kt, by omega, Nat.mod_lt _ hkt, ?_⟩
      rw [w13Tile_up geo _ (by omega), show t / geo.kt / 2 * 2 + 1 = t / geo.kt by omega, hdiv]

/-- **`w2_permutation` is complete.** -/
theorem w2Permutation_spec : ∃ perm, w2Permutation geo = .ok perm ∧ BoxPerm (geo.ot * geo.st) perm ∧
    ∀ o s, o < geo.ot → s < geo.st → w2Tile geo o s < geo.tiles2 →
      perm.getD (w2Tile geo o s) 0 = o * geo.st + s := by
  refine permutation_spec (Nat.mul_comm _ _) (fun o i o' i' ho hi ho' hi' h =>
    (digits_inj ho ho' h).symm) fun t ht => ?_
  have hot : 0 < geo.ot := Nat.pos_of_mul_pos_left (Nat.zero_lt_of_lt ht)
  refine ⟨t % geo.ot, t / geo.ot, Nat.mod_lt _ hot, ?_, Nat.div_add_mod' t geo.ot⟩
  exact Nat.div_lt_of_lt_mul (by rwa [Geometry.tiles2, Nat.mul_comm] at ht)

end Permutation

/-! ## The repack -/

section Repack

variable {β : Type}

/-- `_permute_boxes_torch`. -/
def permuteBoxes (T : Tensor β) (outer inner : Nat) (perm : List Nat) (outRows : Nat) : Tensor β :=
  let e := T.shape.getD 0 0
  let boxes := (T.reshape [e, outer, tileRows, inner, tileBytes]).permute [0, 1, 3, 2, 4]
  let boxes := boxes.reshape [e, outer * inner, tileRows, tileBytes]
  (boxes.indexSelect 1 perm).reshape [e, outRows, tileBytes]

/-- `repack_w13_torch`. -/
def repackW13 (geo : Geometry) (w13 : Tensor β) : Except Err (Tensor β) := do
  if w13.shape.tail ≠ [geo.rows13, geo.k / 2] then throw (.valueError "stock W13 shape mismatch")
  return permuteBoxes w13 (2 * geo.g) geo.kt (← w13Permutation geo) geo.tmRows13

/-- `repack_w2_torch`. -/
def repackW2 (geo : Geometry) (w2 : Tensor β) : Except Err (Tensor β) := do
  if w2.shape.tail ≠ [geo.k, geo.n / 2] then throw (.valueError "stock W2 shape mismatch")
  return permuteBoxes w2 geo.ot geo.st (← w2Permutation geo) geo.tmRows2

/-- `flat[e0:e0 + count].copy_(src)`. -/
def copyInto (data : Nat → β) (start len : Nat) (src : Nat → β) : Nat → β := fun a =>
  if start ≤ a ∧ a < start + len then src (a - start) else data a

/-- A turn of the loop over the chunks. -/
def repackChunk (repack : Tensor β → Except Err (Tensor β)) (step : Nat)
    (storage : Tensor β) (e0 : Nat) :
    Except Err (Tensor β) := do
  let e := storage.shape.getD 0 0
  let perExpert := storage.shape.tail.prod
  let count := min step (e - e0)
  let packed ← repack (storage.slice e0 count)
  return { storage with
    data := copyInto storage.data (e0 * perExpert) (count * perExpert) packed.data }

/-- `repack_inplace_torch`, for contiguous bytes. -/
def repackInplace (repack : Tensor β → Except Err (Tensor β)) (chunkBytes : Int)
    (storage : Tensor β) :
    Except Err (Tensor β) := do
  let e := storage.shape.getD 0 0
  if e = 0 then throw .indexError
  let perExpert := storage.shape.tail.prod
  if perExpert = 0 then throw .zeroDivisionError
  let step := (max 1 (min (e : Int) (chunkBytes / perExpert))).toNat
  (List.range' 0 ((e + step - 1) / step) step).foldlM (repackChunk repack step) storage

/-! ## Bytes

What a repack does is given by a function on the bytes of an expert. It is a permutation of boxes,
and so a permutation of bytes; the loop over the chunks of experts applies it in place, since each
turn reads and writes its own experts only.
-/

/-- The bytes of an expert with so many boxes. -/
def expertBytes (boxes : Nat) : Nat := boxes * (tileRows * tileBytes)

/-- Where byte `off` of a repacked expert comes from. -/
def boxSource (inner : Nat) (perm : List Nat) (off : Nat) : Nat :=
  let p := perm.getD (off / (tileRows * tileBytes)) 0
  ((p / inner * tileRows + off / tileBytes % tileRows) * inner + p % inner) * tileBytes +
    off % tileBytes

/-- **Where a byte of a repacked expert comes from.** -/
theorem permuteBoxes_data {T : Tensor β} {outer inner x off : Nat} {perm : List Nat} (outRows : Nat)
    (hperm : BoxPerm (outer * inner) perm) (hx : x < T.shape.getD 0 0)
    (hoff : off < expertBytes (outer * inner)) :
    (permuteBoxes T outer inner perm outRows).data (x * expertBytes (outer * inner) + off) =
      T.data (x * expertBytes (outer * inner) + boxSource inner perm off) := by
  have ht : off / (128 * 64) < outer * inner :=
    Nat.div_lt_of_lt_mul (by rwa [Nat.mul_comm, ← expertBytes])
  have hr : off / 64 % 128 < 128 := Nat.mod_lt _ (by omega)
  have hc : off % 64 < 64 := Nat.mod_lt _ (by omega)
  have hp := hperm.lt _ ht
  have hinner : 0 < inner := Nat.pos_of_mul_pos_left (Nat.zero_lt_of_lt ht)
  have hpo : perm.getD (off / (128 * 64)) 0 / inner < outer :=
    Nat.div_lt_of_lt_mul (by rwa [Nat.mul_comm inner])
  have hpi : perm.getD (off / (128 * 64)) 0 % inner < inner := Nat.mod_lt _ hinner
  have hboxes : off = (off / (128 * 64) * 128 + off / 64 % 128) * 64 + off % 64 := by omega
  generalize hpd : perm.getD (off / (128 * 64)) 0 = p at hp hpo hpi
  have hdest : x * expertBytes (outer * inner) + off =
      Tensor.offset [T.shape.getD 0 0, perm.length, 128, 64] [x, off / (128 * 64), off / 64 % 128,
      off % 64] := by
    refine (congrArg (x * expertBytes (outer * inner) + ·) hboxes).trans ?_
    simp only [Tensor.offset, List.prod_cons, List.prod_nil, expertBytes, hperm.length]
    ring
  have hsource : x * expertBytes (outer * inner) + boxSource inner perm off =
      Tensor.offset [T.shape.getD 0 0, outer, 128, inner, 64] [x, p / inner, off / 64 % 128,
      p % inner, off % 64] := by
    simp only [Tensor.offset, List.prod_cons, List.prod_nil, expertBytes, boxSource, hpd]
    ring
  rw [hdest, hsource]
  let tiled := T.reshape [T.shape.getD 0 0, outer, 128, inner, 64]
  let boxes := (tiled.permute [0, 1, 3, 2, 4]).reshape [T.shape.getD 0 0, outer * inner, 128, 64]
  have hselect : (boxes.indexSelect 1 perm).get [x, off / (128 * 64), off / 64 % 128, off % 64] =
      boxes.get [x, p, off / 64 % 128, off % 64] := by
    have hwithin : Tensor.Within (boxes.indexSelect 1 perm).shape
      [x, off / (128 * 64), off / 64 % 128, off % 64] :=
      .cons hx (.cons (hperm.length ▸ ht) (.cons hr (.cons hc .nil)))
    rw [Tensor.get_indexSelect hwithin, ← hpd]
    rfl
  have hreshape : boxes.get [x, p, off / 64 % 128, off % 64] =
      (tiled.permute [0, 1, 3, 2, 4]).get [x, p / inner, p % inner, off / 64 % 128, off % 64] := by
    refine Tensor.get_reshape ?_
    show _ = Tensor.offset [T.shape.getD 0 0, outer, inner, 128, 64] _
    simp only [Tensor.offset, List.prod_cons, List.prod_nil]
    linear_combination 8192 * (Nat.div_add_mod' p inner).symm
  have hpermute : (tiled.permute [0, 1, 3, 2, 4]).get [x, p / inner, p % inner,
    off / 64 % 128, off % 64] = tiled.get [x, p / inner, off / 64 % 128, p % inner, off % 64] := by
    have hwithin : Tensor.Within (tiled.permute [0, 1, 3, 2, 4]).shape
        [x, p / inner, p % inner, off / 64 % 128, off % 64] :=
      .cons hx (.cons hpo (.cons hpi (.cons hr (.cons hc .nil))))
    rw [Tensor.get_permute hwithin]
    rfl
  exact hselect.trans (hreshape.trans hpermute)

section Source

variable {outer inner off off' : Nat} {perm : List Nat} (hperm : BoxPerm (outer * inner) perm)
include hperm

theorem boxSource_lt (hoff : off < expertBytes (outer * inner)) :
    boxSource inner perm off < expertBytes (outer * inner) := by
  have ht : off / (128 * 64) < outer * inner :=
    Nat.div_lt_of_lt_mul (by rwa [Nat.mul_comm, ← expertBytes])
  have hp := hperm.lt _ ht
  have hinner : 0 < inner := Nat.pos_of_mul_pos_left (Nat.zero_lt_of_lt ht)
  have hpo : perm.getD (off / (128 * 64)) 0 / inner < outer :=
    Nat.div_lt_of_lt_mul (by rwa [Nat.mul_comm inner])
  have hrow := digits_lt hpo (Nat.mod_lt (off / 64) (show 0 < 128 by omega))
  have hcol := digits_lt hrow (Nat.mod_lt (perm.getD (off / (128 * 64)) 0) hinner)
  calc _ < outer * 128 * inner * 64 := digits_lt hcol (Nat.mod_lt off (by omega))
    _ = expertBytes (outer * inner) := by rw [expertBytes]; ring

theorem boxSource_inj (hoff : off < expertBytes (outer * inner))
    (hoff' : off' < expertBytes (outer * inner))
    (h : boxSource inner perm off = boxSource inner perm off') : off = off' := by
  have ht : off / (128 * 64) < outer * inner :=
    Nat.div_lt_of_lt_mul (by rwa [Nat.mul_comm, ← expertBytes])
  have ht' : off' / (128 * 64) < outer * inner :=
    Nat.div_lt_of_lt_mul (by rwa [Nat.mul_comm, ← expertBytes])
  have hinner : 0 < inner := Nat.pos_of_mul_pos_left (Nat.zero_lt_of_lt ht)
  have h64 : 0 < 64 := by omega
  have h128 : 0 < 128 := by omega
  obtain ⟨hrest, hc⟩ := digits_inj (Nat.mod_lt off h64) (Nat.mod_lt off' h64) h
  obtain ⟨hrow, hpi⟩ := digits_inj (Nat.mod_lt _ hinner) (Nat.mod_lt _ hinner) hrest
  obtain ⟨hpo, hr⟩ := digits_inj (Nat.mod_lt _ h128) (Nat.mod_lt _ h128) hrow
  have hp : perm.getD (off / (128 * 64)) 0 = perm.getD (off' / (128 * 64)) 0 := by
    rw [← Nat.div_add_mod (perm.getD (off / (128 * 64)) 0) inner, hpo, hpi, Nat.div_add_mod]
  have hbox := hperm.inj _ ht _ ht' hp
  have hr' : off / 64 % 128 = off' / 64 % 128 := hr
  have hc' : off % 64 = off' % 64 := hc
  omega

end Source

/-- A repack of `rows` by `cols` bytes an expert, which takes byte `off` of each from byte `src
off`. -/
structure Moves (repack : Tensor β → Except Err (Tensor β)) (rows cols : Nat)
    (src : Nat → Nat) : Prop where
  ok : ∀ (T : Tensor β) e, T.shape = [e, rows, cols] → ∃ T', repack T = .ok T' ∧
    ∀ x < e, ∀ off < rows * cols, T'.data (x * (rows * cols) + off) =
    T.data (x * (rows * cols) + src off)
  lt : ∀ off < rows * cols, src off < rows * cols
  inj : ∀ off < rows * cols, ∀ off' < rows * cols, src off = src off' → off = off'

variable (geo : Geometry)

theorem bytes13 : geo.rows13 * (geo.k / 2) = expertBytes (2 * geo.g * geo.kt) := by
  obtain ⟨k', hk⟩ := geo.hk
  obtain ⟨n', hn⟩ := geo.hn
  rw [Geometry.rows13, expertBytes, Geometry.g, Geometry.kt, hk, hn,
    show 256 * k' / 2 = 128 * k' by omega,
    show 256 * k' / 128 = 2 * k' by omega, show 128 * n' / 128 = n' by omega]
  ring

theorem bytes2 : geo.k * (geo.n / 2) = expertBytes (geo.ot * geo.st) := by
  obtain ⟨k', hk⟩ := geo.hk
  obtain ⟨n', hn⟩ := geo.hn
  rw [expertBytes, Geometry.ot, Geometry.st, hk, hn, show 256 * k' / 128 = 2 * k' by omega,
    show 128 * n' / 128 = n' by omega, show 128 * n' / 2 = 64 * n' by omega]
  ring

/-- Permuting boxes moves the bytes of an expert. -/
theorem permuteBoxes_moves {repack : Tensor β → Except Err (Tensor β)} {rows cols outer inner : Nat}
    {perm : List Nat}
    (hperm : BoxPerm (outer * inner) perm) (hbytes : rows * cols = expertBytes (outer * inner))
      (outRows : Nat)
    (hrepack : ∀ (T : Tensor β) e, T.shape = [e, rows, cols] →
      repack T = .ok (permuteBoxes T outer inner perm outRows)) :
    Moves repack rows cols (boxSource inner perm) where
  ok T e hshape := by
    refine ⟨_, hrepack T e hshape, fun x hx off hoff => ?_⟩
    rw [hbytes] at hoff ⊢
    exact permuteBoxes_data outRows hperm (by rwa [hshape]) hoff
  lt off hoff := by
    rw [hbytes] at hoff ⊢
    exact boxSource_lt hperm hoff
  inj off hoff off' hoff' h := by
    rw [hbytes] at hoff hoff'
    exact boxSource_inj hperm hoff hoff' h

/-- The repack of the FC1 weights, and the tile of every box. -/
theorem repackW13_moves : ∃ perm, Moves (repackW13 (β := β) geo) geo.rows13 (geo.k / 2)
    (boxSource geo.kt perm) ∧
    ∀ nTile kTile, nTile < 2 * geo.g → kTile < geo.kt → w13Tile geo nTile kTile < geo.tiles13 →
      perm.getD (w13Tile geo nTile kTile) 0 = nTile * geo.kt + kTile := by
  obtain ⟨perm, hok, hperm, hat⟩ := w13Permutation_spec geo
  refine ⟨perm, permuteBoxes_moves hperm (bytes13 geo) geo.tmRows13 fun T e hshape => ?_, hat⟩
  unfold repackW13
  rw [hshape, if_neg (by simp), hok]
  rfl

/-- The repack of the FC2 weights, and the tile of every box. -/
theorem repackW2_moves : ∃ perm, Moves (repackW2 (β := β) geo) geo.k (geo.n / 2)
    (boxSource geo.st perm) ∧
    ∀ o s, o < geo.ot → s < geo.st → w2Tile geo o s < geo.tiles2 →
    perm.getD (w2Tile geo o s) 0 = o * geo.st + s := by
  obtain ⟨perm, hok, hperm, hat⟩ := w2Permutation_spec geo
  refine ⟨perm, permuteBoxes_moves hperm (bytes2 geo) geo.tmRows2 fun T e hshape => ?_, hat⟩
  unfold repackW2
  rw [hshape, if_neg (by simp), hok]
  rfl

section Moves

variable {repack : Tensor β → Except Err (Tensor β)} {rows cols e : Nat} {src : Nat → Nat}

/-- Where a byte of the repacked experts comes from. -/
def byteSource (per : Nat) (src : Nat → Nat) (a : Nat) : Nat := a / per * per + src (a % per)

/-- **The repack of all experts**, byte by byte. -/
theorem Moves.whole (h : Moves repack rows cols src) {T : Tensor β}
    (hshape : T.shape = [e, rows, cols]) :
    ∃ T', repack T = .ok T' ∧ ∀ a < e * (rows * cols),
    T'.data a = T.data (byteSource (rows * cols) src a) := by
  obtain ⟨T', hok, hdata⟩ := h.ok T e hshape
  refine ⟨T', hok, fun a ha => ?_⟩
  have hpos : 0 < rows * cols := Nat.pos_of_mul_pos_left (Nat.zero_lt_of_lt ha)
  have hget := hdata (a / (rows * cols)) (Nat.div_lt_of_lt_mul (by rwa [Nat.mul_comm]))
    _ (Nat.mod_lt a hpos)
  rwa [Nat.div_add_mod'] at hget

/-- **The repack is a permutation of the bytes.** -/
theorem repack_bijective (h : Moves repack rows cols src) (e : Nat) :
    ∃ σ : Equiv.Perm (Fin (e * (rows * cols))), ∀ T : Tensor β, T.shape = [e, rows, cols] →
      ∃ T', repack T = .ok T' ∧ ∀ j : Fin (e * (rows * cols)), T'.data j = T.data (σ j) := by
  have hlt : ∀ a < e * (rows * cols), byteSource (rows * cols) src
    a < e * (rows * cols) := fun a ha =>
    digits_lt (Nat.div_lt_of_lt_mul (by rwa [Nat.mul_comm]))
      (h.lt _ (Nat.mod_lt _ (Nat.pos_of_mul_pos_left (Nat.zero_lt_of_lt ha))))
  let σ : Fin (e * (rows * cols)) → Fin (e * (rows * cols)) :=
    fun a => ⟨byteSource (rows * cols) src a, hlt a a.isLt⟩
  have hinj : Function.Injective σ := by
    intro a b hab
    have hpos : 0 < rows * cols := Nat.pos_of_mul_pos_left (Nat.zero_lt_of_lt a.isLt)
    obtain ⟨hdiv, hsrc⟩ := digits_inj (h.lt _ (Nat.mod_lt _ hpos)) (h.lt _ (Nat.mod_lt _ hpos))
      (Fin.mk.inj hab)
    have hmod := h.inj _ (Nat.mod_lt _ hpos) _ (Nat.mod_lt _ hpos) hsrc
    refine Fin.ext ?_
    rw [← Nat.div_add_mod a.1 (rows * cols), hdiv, hmod, Nat.div_add_mod]
  refine ⟨Equiv.ofBijective σ (Finite.injective_iff_bijective.mp hinj), fun T hshape => ?_⟩
  obtain ⟨T', hok, hdata⟩ := h.whole hshape
  exact ⟨T', hok, fun j => hdata j j.isLt⟩

/-- What the loop has written when the first `done` experts are repacked. -/
def repacked (per : Nat) (src : Nat → Nat) (data : Nat → β) (done : Nat) : Nat → β := fun a =>
  if a < done * per then data (byteSource per src a) else data a

theorem repacked_zero (per : Nat) (src : Nat → Nat) (data : Nat → β) :
    repacked per src data 0 = data := by
  funext a
  rw [repacked, Nat.zero_mul, if_neg (Nat.not_lt_zero a)]

/-- **A turn reads only what no turn has written**: it extends the repacked experts by a chunk. -/
theorem Moves.chunk (h : Moves repack rows cols src) {data : Nat → β} {step e0 : Nat} :
    repackChunk repack step ⟨[e, rows, cols], repacked (rows * cols) src data e0⟩ e0 =
      .ok ⟨[e, rows, cols], repacked (rows * cols) src data (e0 + min step (e - e0))⟩ := by
  obtain ⟨packed, hok, hpacked⟩ := h.ok
    (Tensor.slice ⟨[e, rows, cols], repacked (rows * cols) src data e0⟩ e0
      (min step (e - e0))) _ rfl
  have hper : [rows, cols].prod = rows * cols := by rw [List.prod_cons, List.prod_singleton]
  have hdata : copyInto (repacked (rows * cols) src data e0) (e0 * (rows * cols))
      (min step (e - e0) * (rows * cols)) packed.data = repacked (rows * cols) src data
        (e0 + min step (e - e0)) := by
    funext a
    generalize hcount : min step (e - e0) = count at hpacked
    generalize hpd : rows * cols = per at hpacked hper ⊢
    unfold copyInto
    split_ifs with hin
    · have hpos : 0 < per := by
        rcases Nat.eq_zero_or_pos per with h0 | h0
        · rw [h0] at hin
          omega
        · exact h0
      -- the byte is in the chunk: byte `a % per` of its expert
      have hle : e0 ≤ a / per := (Nat.le_div_iff_mul_le hpos).mpr hin.1
      have hx : a / per - e0 < count := by
        have := (Nat.div_lt_iff_lt_mul hpos).mpr (show a < (e0 + count) * per by
          rw [Nat.add_mul]; exact hin.2)
        omega
      have hsplit : a - e0 * per = (a / per - e0) * per + a % per := by
        have := Nat.div_add_mod' a per
        rw [Nat.sub_mul]
        have := Nat.mul_le_mul_right per hle
        omega
      rw [hsplit, hpacked _ hx _ (Nat.mod_lt _ hpos)]
      show repacked per src data e0 (e0 * [rows, cols].prod + _) = _
      have haddr : e0 * per + ((a / per - e0) * per + src (a % per)) = byteSource per src a := by
        rw [byteSource, ← Nat.add_assoc, ← Nat.add_mul, Nat.add_sub_cancel' hle]
      rw [hper, haddr, repacked, repacked, if_neg, if_pos]
      · rw [Nat.add_mul]
        exact hin.2
      · rw [byteSource, not_lt]
        exact (Nat.mul_le_mul_right per hle).trans (Nat.le_add_right _ _)
    · unfold repacked
      rw [Nat.add_mul]
      split_ifs <;> first | rfl | omega
  unfold repackChunk
  rw [show [e, rows, cols].getD 0 0 = e from rfl,
    show [e, rows, cols].tail = [rows, cols] from rfl, hper]
  dsimp only
  rw [hok, ← hdata]
  rfl

/-- **In place, whatever the chunks**, the repack is that of the whole tensor, and leaves the bytes
behind it. -/
theorem repackInplace_eq (h : Moves repack rows cols src) (chunkBytes : Int)
    (data : Nat → β) (he : 0 < e)
    (hbytes : 0 < rows * cols) : repackInplace repack chunkBytes ⟨[e, rows, cols], data⟩ =
      .ok ⟨[e, rows, cols], repacked (rows * cols) src data e⟩ := by
  have hper : [rows, cols].prod = rows * cols := by rw [List.prod_cons, List.prod_singleton]
  unfold repackInplace
  rw [show [e, rows, cols].getD 0 0 = e from rfl,
    show [e, rows, cols].tail = [rows, cols] from rfl, hper,
    if_neg (by omega), if_neg (by omega)]
  generalize hstep : (max 1 (min (e : Int) (chunkBytes / (rows * cols : Nat)))).toNat = step
  have hstep1 : 1 ≤ step := by omega
  have hloop : ∀ m ≤ (e + step - 1) / step, (List.range' 0 m step).foldlM (repackChunk repack step)
      ⟨[e, rows, cols], data⟩ = .ok ⟨[e, rows, cols],
        repacked (rows * cols) src data (min (m * step) e)⟩ := by
    intro m hm
    induction m with
    | zero =>
      rw [Nat.zero_mul, Nat.zero_min, repacked_zero]
      rfl
    | succ m ih =>
      have hlt : m * step < e := by
        have := (Nat.le_div_iff_mul_le hstep1).mp hm
        rw [Nat.succ_mul] at this
        omega
      rw [List.range'_concat, List.foldlM_append, ih (by omega), Nat.zero_add, Nat.mul_comm step]
      rw [Nat.min_eq_left hlt.le]
      show (repackChunk repack step _ (m * step) >>= fun s => pure s) = _
      rw [h.chunk, show m * step + min step (e - m * step) = min ((m + 1) * step) e by
        rw [Nat.succ_mul]; omega]
      rfl
  have hall := hloop _ le_rfl
  have hcover : e ≤ (e + step - 1) / step * step := by
    have := Nat.div_add_mod' (e + step - 1) step
    have := Nat.mod_lt (e + step - 1) hstep1
    omega
  rw [Nat.min_eq_right hcover] at hall
  exact hall

/-- What a repack in place has done to the bytes of a storage. -/
structure InPlace (repack : Tensor β → Except Err (Tensor β)) (shape : List Nat)
    (before after : Nat → β) : Prop where
  bijective : ∃ σ : Equiv.Perm (Fin shape.prod), ∀ j : Fin shape.prod, after j = before (σ j)
  chunks : ∀ chunkBytes, repackInplace repack chunkBytes ⟨shape, before⟩ = .ok ⟨shape, after⟩
  whole : ∃ T, repack ⟨shape, before⟩ = .ok T ∧ ∀ a < shape.prod, after a = T.data a

/-- **A repack in place that succeeds** with some chunk size. -/
theorem Moves.inPlace (h : Moves repack rows cols src) {chunkBytes : Int} {data : Nat → β}
    {packed : Tensor β}
    (hok : repackInplace repack chunkBytes ⟨[e, rows, cols], data⟩ = .ok packed) :
    (0 < e ∧ 0 < rows * cols) ∧ packed.data = repacked (rows * cols) src data e ∧
      InPlace repack [e, rows, cols] data packed.data := by
  have hprod : [e, rows, cols].prod = e * (rows * cols) :=
    by rw [List.prod_cons, List.prod_cons, List.prod_singleton]
  have hpos : 0 < e ∧ 0 < rows * cols := by
    have hcopy := hok
    unfold repackInplace at hcopy
    rw [guarded_ok] at hcopy
    obtain ⟨he, hcopy⟩ := hcopy
    rw [guarded_ok] at hcopy
    obtain ⟨hper, -⟩ := hcopy
    rw [show [e, rows, cols].tail.prod = rows * cols by
      rw [List.tail_cons, List.prod_cons, List.prod_singleton]] at hper
    exact ⟨Nat.pos_of_ne_zero he, Nat.pos_of_ne_zero hper⟩
  have hdata : packed.data = repacked (rows * cols) src data e := by
    rw [repackInplace_eq h chunkBytes data hpos.1 hpos.2] at hok
    exact congrArg Tensor.data (Except.ok.inj hok).symm
  refine ⟨hpos, hdata, ?_, fun chunk => ?_, ?_⟩
  · rw [hprod]
    obtain ⟨σ, hσ⟩ := repack_bijective h e
    refine ⟨σ, fun j => ?_⟩
    obtain ⟨T, hT, hbyte⟩ := hσ ⟨[e, rows, cols], data⟩ rfl
    obtain ⟨T', hT', hwhole⟩ := h.whole (T := ⟨[e, rows, cols], data⟩) rfl
    obtain rfl := Except.ok.inj (hT.symm.trans hT')
    refine Eq.trans ?_ (hbyte j)
    rw [hwhole j j.isLt, hdata, repacked, if_pos j.isLt]
  · rw [repackInplace_eq h chunk data hpos.1 hpos.2, hdata]
  · obtain ⟨T, hT, hwhole⟩ := h.whole (T := ⟨[e, rows, cols], data⟩) rfl
    refine ⟨T, hT, fun a ha => ?_⟩
    rw [hprod] at ha
    rw [hwhole a ha, hdata, repacked, if_pos ha]

end Moves

end Repack

end Ringside.TileMajor

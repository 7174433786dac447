import Ringside.Merge

/-!
# The geometry of a prefill ring call (`glm53_prefill_rdma/protocol.py`)

A call moves `4 q` rows. Every block of `q` rows is cut into `nc` chunks, each direction sends one
chunk for each step, and every rank works off the same list of items, its streams merged by step.
The kernel in `_prb.cu` computes the same numbers (`Layout`, `WorkOrder`).

* A `Geometry` carries the relations between its fields, so `geometry` is the only way to make one;
  it is `none` where the source raises.
* `sendStep` and `itemAt` are the tables of the source: what a step sends, from where and after
  which incoming step; which item stands at an index of the merged list.
* `dep` is `none` where the source has `-1`; `Step.piece` is only read by the tests.
* The merge of the streams is the library's (`Merge`).

Results:
* `chunk_unique`, `exists_chunk`: the chunks partition a block.
* `piece_sendStep`: every step of a direction is one of the pieces of its chain.
* `dep_lt`, `item_dep_lt`: what a send step or an item consumes was sent at an earlier step.
* `dep_chunk`, `item_dep_chunk`: and carries the same chunk.
* `incoming_consumed`: every incoming chunk is consumed by an item.
-/

namespace Ringside.PrefillRing

open Ringside.Merge

/-- Ranks, and the blocks of a call. -/
abbrev Rank := Fin 4

/-- `KIND_RS`, `KIND_AG`. -/
inductive Kind where
  | rs
  | ag
  deriving DecidableEq, Repr

/-- `FWD`, `BWD`. -/
inductive Dir where
  | fwd
  | bwd
  deriving DecidableEq, Repr

/-- `SRC_RAW`, `SRC_RED`, `SRC_RELAY`. -/
inductive Src where
  | raw
  | red
  | relay
  deriving DecidableEq, Repr

/-- The kinds of work items. -/
inductive ItemKind where
  | stageF
  | stageB
  | outA
  | outB
  | outPrev
  | outNext
  | outFarF
  | outFarB
  deriving DecidableEq, Repr

/-- `nxt`. -/
def nxt (r : Rank) : Rank := ⟨(r.val + 1) % 4, by omega⟩

/-- `prv`. -/
def prv (r : Rank) : Rank := ⟨(r.val + 3) % 4, by omega⟩

/-- Who sends rank `r` its direction-`d` traffic. -/
def sender (r : Rank) : Dir → Rank
  | .fwd => prv r
  | .bwd => nxt r

/-- Who receives rank `r`'s direction-`d` traffic. -/
def receiver (r : Rank) : Dir → Rank
  | .fwd => nxt r
  | .bwd => prv r

@[simp] theorem receiver_sender (r : Rank) (d : Dir) : receiver (sender r d) d = r := by
  cases d <;> revert r <;> decide

@[simp] theorem sender_receiver (r : Rank) (d : Dir) : sender (receiver r d) d = r := by
  cases d <;> revert r <;> decide

/-- Ceiling division. -/
def cdiv (a b : Nat) : Nat := (a + b - 1) / b

/-! ## The geometry -/

/-- `Geometry`. -/
structure Geometry where
  kind : Kind
  rows : Nat
  q : Nat
  cr : Nat
  nc : Nat
  na : Nat
  nb1 : Nat
  nh : Nat
  rows_eq : rows = 4 * q
  nc_pos : 0 < nc
  nc_le : nc ≤ q
  cr_eq : cr = cdiv q nc
  na_eq : na = nc / 4
  nb1_eq : nb1 = (nc - na) / 2
  nh_eq : nh = nc / 2

/-- `geometry`; `none` where the source raises. -/
def geometry (kind : Kind) (rows crMax : Nat) : Option Geometry :=
  if h : rows = 0 ∨ rows % 4 ≠ 0 ∨ crMax < 1 then none
  else
    let q := rows / 4
    let nc := min (4 * cdiv (cdiv q crMax) 4) q
    some {
      kind := kind
      rows := rows
      q := q
      cr := cdiv q nc
      nc := nc
      na := nc / 4
      nb1 := (nc - nc / 4) / 2
      nh := nc / 2
      rows_eq := by simp only [q]; omega
      nc_pos := by
        have hq : 1 ≤ q := by simp only [q]; omega
        have h1 : 1 ≤ cdiv q crMax := (Nat.one_le_div_iff (by omega)).mpr (by omega)
        have h2 : 1 ≤ cdiv (cdiv q crMax) 4 := (Nat.one_le_div_iff (by omega)).mpr (by omega)
        exact Nat.lt_min.mpr ⟨by omega, hq⟩
      nc_le := min_le_right _ _
      cr_eq := rfl
      na_eq := rfl
      nb1_eq := rfl
      nh_eq := rfl }

namespace Geometry

variable (g : Geometry)

/-- Chunks on the second chain. -/
def nb : Nat := g.nc - g.na

/-- `chunk_rows`. -/
def chunkRows (k : Nat) : Nat × Nat := (k * g.q / g.nc, (k + 1) * g.q / g.nc)

/-- The rows of chunk `k`. -/
def chunkLen (k : Nat) : Nat := (g.chunkRows k).2 - (g.chunkRows k).1

/-- `steps`. -/
def steps (d : Dir) : Nat :=
  match g.kind, d with
  | .rs, .fwd => 3 * g.na + g.nb
  | .rs, .bwd => 2 * g.nb
  | .ag, .fwd => g.nc + g.nh
  | .ag, .bwd => g.nc + (g.nc - g.nh)

/-- `staged`. -/
def staged (d : Dir) : Nat :=
  match g.kind with
  | .rs => g.steps d
  | .ag => g.nc

/-- `items`. -/
def items : Nat :=
  match g.kind with
  | .rs => 4 * g.nc
  | .ag => 5 * g.nc

end Geometry

/-- `Step`. -/
structure Step where
  chunk : Nat
  src : Src
  blkOff : Int
  dep : Option Nat
  deriving DecidableEq, Repr

/-- `send_step`. -/
def sendStep (g : Geometry) (d : Dir) (s : Nat) : Step :=
  match g.kind, d with
  | .rs, .fwd =>
    if s < g.na then ⟨s, .raw, -1, none⟩
    else
      let s := s - g.na
      if s < g.nb1 then ⟨g.na + s, .raw, 1, none⟩
      else
        let s := s - g.nb1
        if s < g.na then ⟨s, .red, -2, some s⟩
        else
          let s := s - g.na
          if s < g.nb - g.nb1 then ⟨g.na + g.nb1 + s, .raw, 1, none⟩
          else
            let s := s - (g.nb - g.nb1)
            ⟨s, .red, 1, some (g.na + g.nb1 + s)⟩
  | .rs, .bwd =>
    if s < g.nb then ⟨g.na + s, .raw, -2, none⟩
    else
      let s := s - g.nb
      ⟨g.na + s, .red, -1, some s⟩
  | .ag, .fwd =>
    if s < g.nc then ⟨s, .raw, 0, none⟩
    else
      let s := s - g.nc
      ⟨s, .relay, 0, some s⟩
  | .ag, .bwd =>
    if s < g.nc - g.nh then ⟨g.nh + s, .raw, 0, none⟩
    else
      let s := s - (g.nc - g.nh)
      if s < g.nh then ⟨s, .raw, 0, none⟩
      else
        let s := s - g.nh
        ⟨g.nh + s, .relay, 0, some s⟩

/-- `fb_step`. -/
def fbStep (g : Geometry) (c : Nat) : Nat := if c < g.nb1 then g.na + c else 2 * g.na + c

/-- `out_next_chunk`. -/
def outNextChunk (g : Geometry) (s : Nat) : Nat :=
  if s < g.nc - g.nh then g.nh + s else s - (g.nc - g.nh)

/-- `streams`. -/
def streams (g : Geometry) : List (Stream ItemKind) :=
  match g.kind with
  | .rs =>
    [⟨.stageF, 0, g.steps .fwd⟩, ⟨.stageB, 0, g.steps .bwd⟩, ⟨.outB, g.nb + 1, g.nb⟩,
      ⟨.outA, 2 * g.na + g.nb + 1, g.na⟩]
  | .ag =>
    [⟨.stageF, 0, g.nc⟩, ⟨.stageB, 0, g.nc⟩, ⟨.outPrev, 1, g.nc⟩, ⟨.outNext, 1, g.nc⟩,
      ⟨.outFarF, g.nc + 1, g.nh⟩, ⟨.outFarB, g.nc + 1, g.nc - g.nh⟩]

/-- `item_at`. -/
def itemAt (g : Geometry) (i : Nat) : Option (Item ItemKind) := Merge.itemAt (streams g) i

/-- What a staged send step consumes. -/
def stageDeps (g : Geometry) (d : Dir) (j : Nat) : List (Dir × Nat) :=
  match (sendStep g d j).src, (sendStep g d j).dep with
  | .red, some s => [(d, s)]
  | _, _ => []

/-- `item_deps`. -/
def itemDeps (g : Geometry) (kind : ItemKind) (j : Nat) : List (Dir × Nat) :=
  match kind with
  | .stageF => stageDeps g .fwd j
  | .stageB => stageDeps g .bwd j
  | .outA => [(.fwd, 2 * g.na + g.nb + j)]
  | .outB => [(.bwd, g.nb + j), (.fwd, fbStep g j)]
  | .outPrev => [(.fwd, j)]
  | .outNext => [(.bwd, j)]
  | .outFarF => [(.fwd, g.nc + j)]
  | .outFarB => [(.bwd, g.nc + j)]

/-- The direction an item stages a chunk for. -/
def stageDir : ItemKind → Option Dir
  | .stageF => some .fwd
  | .stageB => some .bwd
  | _ => none

/-- The chunk an item works on. -/
def itemChunk (g : Geometry) (kind : ItemKind) (j : Nat) : Nat :=
  match kind with
  | .stageF => (sendStep g .fwd j).chunk
  | .stageB => (sendStep g .bwd j).chunk
  | .outA | .outPrev | .outFarF => j
  | .outB => g.na + j
  | .outNext => outNextChunk g j
  | .outFarB => g.nh + j

/-! ## Chunks

A block of `q` rows is cut into `nc` chunks at `k * q / nc`, so their lengths differ by one row at
most, and none is empty.
-/

section Chunks

variable (g : Geometry)

theorem le_mul_cdiv {a b : Nat} (hb : 0 < b) : a ≤ b * cdiv a b := by
  unfold cdiv
  have := Nat.div_add_mod (a + b - 1) b
  have := Nat.mod_lt (a + b - 1) hb
  omega

theorem nb_pos : 0 < g.nb := by
  have := g.nc_pos
  have := g.na_eq
  unfold Geometry.nb
  omega

/-- Where chunk `k` starts. -/
def chunkStart (k : Nat) : Nat := k * g.q / g.nc

theorem chunkRows_eq (k : Nat) : g.chunkRows k = (chunkStart g k, chunkStart g (k + 1)) := rfl

theorem chunkStart_succ (k : Nat) : chunkStart g k < chunkStart g (k + 1) := by
  have h := g.nc_pos
  have h' := g.nc_le
  unfold chunkStart
  rw [Nat.lt_iff_add_one_le, ← Nat.add_div_right _ h]
  refine Nat.div_le_div_right ?_
  rw [Nat.succ_mul]
  omega

theorem chunkStart_mono {k k' : Nat} (h : k ≤ k') : chunkStart g k ≤ chunkStart g k' := by
  induction h with
  | refl => rfl
  | step _ ih => exact ih.trans (chunkStart_succ g _).le

theorem chunkStart_nc : chunkStart g g.nc = g.q := by
  unfold chunkStart
  exact Nat.mul_div_cancel_left _ g.nc_pos

/-- A chunk fits its receive slot. -/
theorem chunkLen_le (k : Nat) : g.chunkLen k ≤ g.cr := by
  have hq : g.q ≤ g.nc * g.cr := by
    rw [g.cr_eq]
    exact le_mul_cdiv g.nc_pos
  have hup : chunkStart g (k + 1) ≤ chunkStart g k + g.cr := by
    unfold chunkStart
    rw [← Nat.add_mul_div_left _ _ g.nc_pos]
    refine Nat.div_le_div_right ?_
    rw [Nat.succ_mul]
    omega
  unfold Geometry.chunkLen
  rw [chunkRows_eq]
  simp only
  omega

/-- **Every row of a block lies in one chunk.** -/
theorem exists_chunk {row : Nat} (h : row < g.q) :
    ∃ k < g.nc, chunkStart g k ≤ row ∧ row < chunkStart g (k + 1) := by
  have hfind : ∀ n, row < chunkStart g n → ∃ k < n, chunkStart g k ≤ row ∧
      row < chunkStart g (k + 1) := by
    intro n
    induction n with
    | zero =>
      intro h
      simp [chunkStart] at h
    | succ n ih =>
      intro h
      by_cases hn : row < chunkStart g n
      · obtain ⟨k, hk, hr⟩ := ih hn
        exact ⟨k, by omega, hr⟩
      · exact ⟨n, by omega, by omega, h⟩
  exact hfind g.nc (by rw [chunkStart_nc]; exact h)

theorem chunk_unique {row k k' : Nat} (h : chunkStart g k ≤ row) (h' : row < chunkStart g (k + 1))
    (i : chunkStart g k' ≤ row) (i' : row < chunkStart g (k' + 1)) : k = k' := by
  rcases Nat.lt_trichotomy k k' with hlt | rfl | hlt
  · have := chunkStart_mono g (show k + 1 ≤ k' from hlt)
    omega
  · rfl
  · have := chunkStart_mono g (show k' + 1 ≤ k from hlt)
    omega

theorem chunkStart_le {k : Nat} (hk : k < g.nc) : chunkStart g (k + 1) ≤ g.q := by
  rw [← chunkStart_nc g]
  exact chunkStart_mono g hk

end Chunks

/-! ## The order of the work

The work list is a merge of streams by step. An item is found by its stream and its place there, and
where it stands in the list is its number in the merge.
-/

section Order

variable {g : Geometry}

theorem streams_count : ((streams g).map (·.count)).sum = g.items := by
  have h1 := g.na_eq
  have h2 := g.nh_eq
  cases hk : g.kind <;>
    simp only [streams, Geometry.items, Geometry.steps, Geometry.nb, hk,
      List.map_cons, List.map_nil, List.sum_cons, List.sum_nil] <;> omega

theorem streams_kinds : ((streams g).map (·.kind)).Nodup := by
  cases hk : g.kind <;> simp only [streams, hk, List.map_cons, List.map_nil] <;> decide

/-- An index of the work list finds an item of one of the streams. -/
theorem itemAt_spec {i : Nat} (hi : i < g.items) :
    ∃ it st, itemAt g i = some it ∧ st ∈ streams g ∧ it.kind = st.kind ∧ it.index < st.count ∧
      it.step = st.start + it.index := by
  rw [← streams_count] at hi
  obtain ⟨it, hit, -, -, hrow⟩ := Merge.itemAt_spec hi
  obtain ⟨-, st, hst, hk, hidx, hstep⟩ := mem_row.mp hrow
  exact ⟨it, st, hit, hst, hk, hidx, hstep⟩

theorem exists_item {st : Stream ItemKind} (hst : st ∈ streams g) {j : Nat} (hj : j < st.count) :
    ∃ i < g.items, itemAt g i = some ⟨st.kind, j, st.start + j⟩ := by
  rw [← streams_count]
  exact exists_itemAt hst hj

theorem item_unique {i i' : Nat} {it : Item ItemKind} (hi : i < g.items) (hi' : i' < g.items)
    (h : itemAt g i = some it) (h' : itemAt g i' = some it) : i = i' := by
  rw [← streams_count] at hi hi'
  exact itemAt_inj streams_kinds hi hi' h h'

theorem item_step_mono {i i' : Nat} (h : i ≤ i') {it it' : Item ItemKind} (hi : i' < g.items)
    (hit : itemAt g i = some it) (hit' : itemAt g i' = some it') : it.step ≤ it'.step := by
  rw [← streams_count] at hi
  exact step_mono h hi hit hit'

/-- The kinds, counts and steps of the items of a call. -/
theorem item_cases {i : Nat} {it : Item ItemKind} (hi : i < g.items) (h : itemAt g i = some it) :
    match g.kind, it.kind with
    | .rs, .stageF => it.index < g.steps .fwd ∧ it.step = it.index
    | .rs, .stageB => it.index < g.steps .bwd ∧ it.step = it.index
    | .rs, .outB => it.index < g.nb ∧ it.step = g.nb + 1 + it.index
    | .rs, .outA => it.index < g.na ∧ it.step = 2 * g.na + g.nb + 1 + it.index
    | .ag, .stageF => it.index < g.nc ∧ it.step = it.index
    | .ag, .stageB => it.index < g.nc ∧ it.step = it.index
    | .ag, .outPrev => it.index < g.nc ∧ it.step = 1 + it.index
    | .ag, .outNext => it.index < g.nc ∧ it.step = 1 + it.index
    | .ag, .outFarF => it.index < g.nh ∧ it.step = g.nc + 1 + it.index
    | .ag, .outFarB => it.index < g.nc - g.nh ∧ it.step = g.nc + 1 + it.index
    | _, _ => False := by
  obtain ⟨it', st, hit, hst, hkind, hidx, hstep⟩ := itemAt_spec hi
  obtain rfl := Option.some.inj (hit.symm.trans h)
  cases hk : g.kind <;> simp only [streams, hk, List.mem_cons, List.not_mem_nil, or_false] at hst
  · rcases hst with rfl | rfl | rfl | rfl <;> simp_all
  · rcases hst with rfl | rfl | rfl | rfl | rfl | rfl <;> simp_all

end Order

/-! ## The pieces of a send sequence

The schedule is given by comparisons of a step number with the lengths of the parts that a direction
sends one after the other. `Piece` gives each part its name; facts about all steps are then facts
about these few parts.
-/

/-- The pieces `FA0`, `FB1`, `FA1`, `FB2`, `FA2`, `BB1`, `BB2` of a reduce-scatter and `G0F`, `G1F`,
`G0Bhi`, `G0Blo`, `G1B` of an all-gather: which step of a direction is which. -/
inductive Piece (g : Geometry) : Dir → Nat → Step → Prop where
  | fa0 {c} (hk : g.kind = .rs) (hc : c < g.na) : Piece g .fwd c ⟨c, .raw, -1, none⟩
  | fb1 {c} (hk : g.kind = .rs) (hc : c < g.nb1) : Piece g .fwd (g.na + c) ⟨g.na + c, .raw, 1, none⟩
  | fa1 {c} (hk : g.kind = .rs) (hc : c < g.na) :
    Piece g .fwd (g.na + g.nb1 + c) ⟨c, .red, -2, some c⟩
  | fb2 {c} (hk : g.kind = .rs) (hc : g.nb1 + c < g.nb) :
    Piece g .fwd (2 * g.na + (g.nb1 + c)) ⟨g.na + (g.nb1 + c), .raw, 1, none⟩
  | fa2 {c} (hk : g.kind = .rs) (hc : c < g.na) :
    Piece g .fwd (2 * g.na + g.nb + c) ⟨c, .red, 1, some (g.na + g.nb1 + c)⟩
  | bb1 {c} (hk : g.kind = .rs) (hc : c < g.nb) : Piece g .bwd c ⟨g.na + c, .raw, -2, none⟩
  | bb2 {c} (hk : g.kind = .rs) (hc : c < g.nb) :
    Piece g .bwd (g.nb + c) ⟨g.na + c, .red, -1, some c⟩
  | g0f {c} (hk : g.kind = .ag) (hc : c < g.nc) : Piece g .fwd c ⟨c, .raw, 0, none⟩
  | g1f {c} (hk : g.kind = .ag) (hc : c < g.nh) : Piece g .fwd (g.nc + c) ⟨c, .relay, 0, some c⟩
  | g0bhi {c} (hk : g.kind = .ag) (hc : g.nh + c < g.nc) : Piece g .bwd c ⟨g.nh + c, .raw, 0, none⟩
  | g0blo {c} (hk : g.kind = .ag) (hc : c < g.nh) :
    Piece g .bwd (g.nc - g.nh + c) ⟨c, .raw, 0, none⟩
  | g1b {c} (hk : g.kind = .ag) (hc : g.nh + c < g.nc) :
    Piece g .bwd (g.nc + c) ⟨g.nh + c, .relay, 0, some c⟩

section Consume

variable {g : Geometry}

theorem nb1_le : g.nb1 ≤ g.nb := by
  have h1 := g.nb1_eq
  unfold Geometry.nb
  omega

theorem nh_lt : g.nh < g.nc := by
  have h1 := g.nh_eq
  have h2 := g.nc_pos
  omega

/-- A piece says what its step sends. -/
theorem sendStep_piece {d : Dir} {s : Nat} {st : Step} (h : Piece g d s st) :
    sendStep g d s = st := by
  have h1 := nb1_le (g := g)
  have h2 := nh_lt (g := g)
  cases h with
  | fa0 hk hc => simp only [sendStep, hk, if_pos hc]
  | @fb1 c hk hc =>
    simp only [sendStep, hk, if_neg (show ¬ g.na + c < g.na by omega), Nat.add_sub_cancel_left,
      if_pos hc]
  | @fa1 c hk hc =>
    have e1 : g.na + g.nb1 + c - g.na = g.nb1 + c := by omega
    simp only [sendStep, hk, if_neg (show ¬ g.na + g.nb1 + c < g.na by omega), e1,
      if_neg (show ¬ g.nb1 + c < g.nb1 by omega), Nat.add_sub_cancel_left, if_pos hc]
  | @fb2 c hk hc =>
    have e1 : 2 * g.na + (g.nb1 + c) - g.na = g.nb1 + (g.na + c) := by omega
    simp only [sendStep, hk, if_neg (show ¬ 2 * g.na + (g.nb1 + c) < g.na by omega), e1,
      if_neg (show ¬ g.nb1 + (g.na + c) < g.nb1 by omega), Nat.add_sub_cancel_left,
      if_neg (show ¬ g.na + c < g.na by omega), if_pos (show c < g.nb - g.nb1 by omega),
      Nat.add_assoc]
  | @fa2 c hk hc =>
    have e1 : 2 * g.na + g.nb + c - g.na = g.nb1 + (g.na + (g.nb - g.nb1 + c)) := by omega
    simp only [sendStep, hk, if_neg (show ¬ 2 * g.na + g.nb + c < g.na by omega), e1,
      if_neg (show ¬ g.nb1 + (g.na + (g.nb - g.nb1 + c)) < g.nb1 by omega),
      Nat.add_sub_cancel_left, if_neg (show ¬ g.na + (g.nb - g.nb1 + c) < g.na by omega),
      if_neg (show ¬ g.nb - g.nb1 + c < g.nb - g.nb1 by omega)]
  | bb1 hk hc => simp only [sendStep, hk, if_pos hc]
  | @bb2 c hk hc =>
    simp only [sendStep, hk, if_neg (show ¬ g.nb + c < g.nb by omega), Nat.add_sub_cancel_left]
  | g0f hk hc => simp only [sendStep, hk, if_pos hc]
  | @g1f c hk hc =>
    simp only [sendStep, hk, if_neg (show ¬ g.nc + c < g.nc by omega), Nat.add_sub_cancel_left]
  | @g0bhi c hk hc => simp only [sendStep, hk, if_pos (show s < g.nc - g.nh by omega)]
  | @g0blo c hk hc =>
    simp only [sendStep, hk, if_neg (show ¬ g.nc - g.nh + c < g.nc - g.nh by omega),
      Nat.add_sub_cancel_left, if_pos hc]
  | @g1b c hk hc =>
    have e1 : g.nc + c - (g.nc - g.nh) = g.nh + c := by omega
    simp only [sendStep, hk, if_neg (show ¬ g.nc + c < g.nc - g.nh by omega), e1,
      if_neg (show ¬ g.nh + c < g.nh by omega), Nat.add_sub_cancel_left]

/-- **Every step of a direction is one of the pieces.** -/
theorem piece_sendStep {d : Dir} {s : Nat} (hs : s < g.steps d) : Piece g d s (sendStep g d s) := by
  have h1 := nb1_le (g := g)
  have h2 := nh_lt (g := g)
  have piece : ∀ {s' : Nat} {st : Step}, Piece g d s' st → s = s' → Piece g d s (sendStep g d s) :=
    fun h he => by
      subst he
      rw [sendStep_piece h]
      exact h
  cases hk : g.kind <;> cases d <;> simp only [Geometry.steps, hk] at hs
  · by_cases c1 : s < g.na
    · exact piece (.fa0 hk c1) rfl
    by_cases c2 : s < g.na + g.nb1
    · exact piece (.fb1 (c := s - g.na) hk (by omega)) (by omega)
    by_cases c3 : s < 2 * g.na + g.nb1
    · exact piece (.fa1 (c := s - (g.na + g.nb1)) hk (by omega)) (by omega)
    by_cases c4 : s < 2 * g.na + g.nb
    · exact piece (.fb2 (c := s - (2 * g.na + g.nb1)) hk (by omega)) (by omega)
    · exact piece (.fa2 (c := s - (2 * g.na + g.nb)) hk (by omega)) (by omega)
  · by_cases c1 : s < g.nb
    · exact piece (.bb1 hk c1) rfl
    · exact piece (.bb2 (c := s - g.nb) hk (by omega)) (by omega)
  · by_cases c1 : s < g.nc
    · exact piece (.g0f hk c1) rfl
    · exact piece (.g1f (c := s - g.nc) hk (by omega)) (by omega)
  · by_cases c1 : s < g.nc - g.nh
    · exact piece (.g0bhi hk (by omega)) rfl
    by_cases c2 : s < g.nc
    · exact piece (.g0blo (c := s - (g.nc - g.nh)) hk (by omega)) (by omega)
    · exact piece (.g1b (c := s - g.nc) hk (by omega)) (by omega)

/-! ## What a step and an item consume

What is consumed was sent before, by the neighbour, and carries the same chunk. These facts are
about numbers, and make the order of the protocol well founded.
-/

theorem staged_le (d : Dir) : g.staged d ≤ g.steps d := by
  have := g.nc_pos
  cases hk : g.kind <;> cases d <;>
    simp only [Geometry.staged, Geometry.steps, hk] <;> omega

theorem staged_pos (d : Dir) : 0 < g.staged d := by
  have := nb_pos g
  have := g.nc_pos
  cases hk : g.kind <;> cases d <;>
    simp only [Geometry.staged, Geometry.steps, hk] <;> omega

theorem steps_pos (d : Dir) : 0 < g.steps d := (staged_pos d).trans_le (staged_le d)

/-- **A send step consumes what its neighbour sent at an earlier step.** -/
theorem dep_lt {d : Dir} {s s' : Nat} (hs : s < g.steps d) (h : (sendStep g d s).dep = some s') :
    s' < s := by
  have hnb := nb_pos g
  have h1 := nb1_le (g := g)
  have h2 := g.nb1_eq
  have h3 := g.nc_pos
  have hp := piece_sendStep hs
  generalize sendStep g d s = st at h hp
  cases hp <;> simp only [reduceCtorEq,
    Option.some.injEq] at h <;> unfold Geometry.nb at * <;> omega

/-- The steps after the staged ones relay a staged chunk. -/
theorem relay_step {d : Dir} {s : Nat} (h : g.staged d ≤ s) (hs : s < g.steps d) :
    (sendStep g d s).src = .relay ∧ ∃ s', (sendStep g d s).dep = some s' ∧ s' < s ∧
      s' < g.staged d := by
  have h2 := nh_lt (g := g)
  have hp := piece_sendStep hs
  generalize sendStep g d s = st at hp ⊢
  cases hp with
  | g1f hk hc =>
    simp only [Geometry.staged, hk]
    exact ⟨trivial, _, rfl, by omega, by omega⟩
  | g1b hk hc =>
    simp only [Geometry.staged, hk]
    exact ⟨trivial, _, rfl, by omega, by omega⟩
  | _ hk => simp only [Geometry.staged, Geometry.steps, hk] at h hs; omega

/-- A staged step is raw or reduced, and only a reduced one consumes a chunk. -/
theorem staged_step {d : Dir} {s : Nat} (h : s < g.staged d) :
    ((sendStep g d s).src = .raw ∧ (sendStep g d s).dep = none) ∨
      ((sendStep g d s).src = .red ∧ ∃ s', (sendStep g d s).dep = some s') := by
  have hp := piece_sendStep (h.trans_le (staged_le d))
  generalize sendStep g d s = st at hp ⊢
  cases hp with
  | g1f hk | g1b hk => simp only [Geometry.staged, hk] at h; omega
  | fa1 | fa2 | bb2 => exact Or.inr ⟨rfl, _, rfl⟩
  | _ => exact Or.inl ⟨rfl, rfl⟩

theorem mem_stageDeps {d d' : Dir} {j s : Nat} (hj : j < g.staged d) :
    (d', s) ∈ stageDeps g d j ↔ d' = d ∧ (sendStep g d j).dep = some s := by
  unfold stageDeps
  rcases staged_step hj with ⟨hs, hd⟩ | ⟨hs, s', hd⟩
  · simp [hs, hd]
  · simp [hs, hd, eq_comm]

/-- An item that stages a chunk stands at the step that sends it. -/
theorem stage_item {i : Nat} {it : Item ItemKind} (hi : i < g.items) (h : itemAt g i = some it)
    {d : Dir} (hd : stageDir it.kind = some d) : it.index < g.staged d ∧ it.step = it.index := by
  have := item_cases hi h
  cases hk : g.kind <;> cases hit : it.kind <;> rw [hk, hit] at this <;> rw [hit] at hd <;>
    simp only [stageDir, reduceCtorEq, Option.some.injEq] at hd this <;> subst hd <;>
    simpa only [Geometry.staged, hk] using this

/-- Every staged step has its item. -/
theorem exists_stage_item {d : Dir} {j : Nat} (hj : j < g.staged d) :
    ∃ i < g.items, ∃ it, itemAt g i = some it ∧ stageDir it.kind = some d ∧ it.index = j := by
  have find : ∀ st ∈ streams g, stageDir st.kind = some d → j < st.count →
      ∃ i < g.items, ∃ it, itemAt g i = some it ∧ stageDir it.kind = some d ∧ it.index = j := by
    intro st hst hd hc
    obtain ⟨i, hi, hit⟩ := exists_item hst hc
    exact ⟨i, hi, _, hit, hd, rfl⟩
  cases hk : g.kind <;> cases d <;> simp only [Geometry.staged, hk] at hj
  · exact find ⟨.stageF, 0, g.steps .fwd⟩ (by simp [streams, hk]) rfl hj
  · exact find ⟨.stageB, 0, g.steps .bwd⟩ (by simp [streams, hk]) rfl hj
  · exact find ⟨.stageF, 0, g.nc⟩ (by simp [streams, hk]) rfl hj
  · exact find ⟨.stageB, 0, g.nc⟩ (by simp [streams, hk]) rfl hj

/-- **An item consumes what was sent at an earlier step**, and only steps that exist. -/
theorem item_dep_lt {i : Nat} {it : Item ItemKind} (hi : i < g.items) (h : itemAt g i = some it)
    {d : Dir} {s : Nat} (hd : (d, s) ∈ itemDeps g it.kind it.index) :
    s < it.step ∧ s < g.steps d := by
  have hc := item_cases hi h
  have h1 := g.na_eq
  have h2 := g.nh_eq
  have h3 := g.nb1_eq
  have h4 := g.nc_pos
  have stage : ∀ {d'}, stageDir it.kind = some d' → (d, s) ∈ stageDeps g d' it.index →
      s < it.step ∧ s < g.steps d := by
    intro d' hd' hdep
    obtain ⟨hj, hstep⟩ := stage_item hi h hd'
    obtain ⟨rfl, hs⟩ := (mem_stageDeps hj).mp hdep
    have hle := staged_le (g := g) d
    have hlt := dep_lt (hj.trans_le hle) hs
    omega
  cases hit : it.kind <;> rw [hit] at hd hc <;> simp only [itemDeps] at hd
  · exact stage (by rw [hit]; rfl) hd
  · exact stage (by rw [hit]; rfl) hd
  all_goals
    cases hk : g.kind <;> rw [hk] at hc <;> simp only at hc
    all_goals
      simp only [List.mem_cons, List.not_mem_nil, or_false, Prod.mk.injEq] at hd
  · obtain ⟨rfl, rfl⟩ := hd
    simp only [Geometry.steps, hk, Geometry.nb] at hc ⊢
    omega
  · rcases hd with ⟨rfl, rfl⟩ | ⟨rfl, rfl⟩ <;>
      simp only [Geometry.steps, hk, Geometry.nb, fbStep] at hc ⊢
    · omega
    · split <;> omega
  all_goals
    obtain ⟨rfl, rfl⟩ := hd
    simp only [Geometry.steps, hk] at hc ⊢
    omega

/-- **A step and the step it consumes carry the same chunk.** -/
theorem dep_chunk {d : Dir} {s s' : Nat} (hs : s < g.steps d)
    (h : (sendStep g d s).dep = some s') : (sendStep g d s').chunk = (sendStep g d s).chunk := by
  have hp := piece_sendStep hs
  generalize sendStep g d s = st at h hp ⊢
  cases hp <;> simp only [reduceCtorEq, Option.some.injEq] at h <;> subst h
  · rw [sendStep_piece (.fa0 ‹_› ‹_›)]
  · rw [sendStep_piece (.fa1 ‹_› ‹_›)]
  · rw [sendStep_piece (.bb1 ‹_› ‹_›)]
  · have := nh_lt (g := g)
    rw [sendStep_piece (.g0f ‹_› (by omega))]
  · rw [sendStep_piece (.g0bhi ‹_› ‹_›)]

/-- **An item and every step it consumes carry the same chunk.** -/
theorem item_dep_chunk {i : Nat} {it : Item ItemKind} (hi : i < g.items)
    (h : itemAt g i = some it) {d : Dir} {s : Nat} (hd : (d, s) ∈ itemDeps g it.kind it.index) :
    (sendStep g d s).chunk = itemChunk g it.kind it.index := by
  have hc := item_cases hi h
  have h1 := nb1_le (g := g)
  have h2 := nh_lt (g := g)
  have stage : ∀ {d'}, stageDir it.kind = some d' → (d, s) ∈ stageDeps g d' it.index →
      (sendStep g d s).chunk = (sendStep g d' it.index).chunk := by
    intro d' hd' hdep
    obtain ⟨hj, -⟩ := stage_item hi h hd'
    obtain ⟨rfl, hs⟩ := (mem_stageDeps hj).mp hdep
    exact dep_chunk (hj.trans_le (staged_le d)) hs
  cases hit : it.kind <;> rw [hit] at hd hc <;> simp only [itemDeps, itemChunk] at hd ⊢
  · exact stage (by rw [hit]; rfl) hd
  · exact stage (by rw [hit]; rfl) hd
  all_goals
    cases hk : g.kind <;> rw [hk] at hc <;> simp only at hc
    all_goals
      simp only [List.mem_cons, List.not_mem_nil, or_false, Prod.mk.injEq] at hd
  · obtain ⟨rfl, rfl⟩ := hd
    rw [sendStep_piece (.fa2 hk hc.1)]
  · rcases hd with ⟨rfl, rfl⟩ | ⟨rfl, rfl⟩
    · rw [sendStep_piece (.bb2 hk hc.1)]
    · unfold fbStep
      split
      · rw [sendStep_piece (.fb1 hk ‹_›)]
      · obtain ⟨c, hcc⟩ := Nat.exists_eq_add_of_le (not_lt.mp ‹_›)
        rw [hcc, sendStep_piece (.fb2 hk (by omega))]
  · obtain ⟨rfl, rfl⟩ := hd
    rw [sendStep_piece (.g0f hk hc.1)]
  · obtain ⟨rfl, rfl⟩ := hd
    unfold outNextChunk
    split
    · rw [sendStep_piece (.g0bhi hk (by omega))]
    · obtain ⟨c, hcc⟩ := Nat.exists_eq_add_of_le (not_lt.mp ‹_›)
      rw [hcc, sendStep_piece (.g0blo hk (by omega)), Nat.add_sub_cancel_left]
  · obtain ⟨rfl, rfl⟩ := hd
    rw [sendStep_piece (.g1f hk hc.1)]
  · obtain ⟨rfl, rfl⟩ := hd
    rw [sendStep_piece (.g1b hk (by omega))]

/-- **Every incoming chunk is consumed by an item.** -/
theorem incoming_consumed {d : Dir} {s : Nat} (hs : s < g.steps d) :
    ∃ i < g.items, ∃ it, itemAt g i = some it ∧ (d, s) ∈ itemDeps g it.kind it.index := by
  have h1 := nb1_le (g := g)
  have h2 := nh_lt (g := g)
  have consumer : ∀ st ∈ streams g, ∀ j < st.count, (d, s) ∈ itemDeps g st.kind j →
      ∃ i < g.items, ∃ it, itemAt g i = some it ∧ (d, s) ∈ itemDeps g it.kind it.index := by
    intro st hst j hj hd
    obtain ⟨i, hi, hit⟩ := exists_item hst hj
    exact ⟨i, hi, _, hit, hd⟩
  have staged : ∀ {j}, j < g.staged d → (sendStep g d j).dep = some s →
      ∃ i < g.items, ∃ it, itemAt g i = some it ∧ (d, s) ∈ itemDeps g it.kind it.index := by
    intro j hj hdep
    obtain ⟨i, hi, it, hit, hd, rfl⟩ := exists_stage_item hj
    refine ⟨i, hi, it, hit, ?_⟩
    have hmem := (mem_stageDeps hj).mpr ⟨rfl, hdep⟩
    cases hk : it.kind <;> rw [hk] at hd <;>
      simp only [stageDir, reduceCtorEq, Option.some.injEq] at hd <;> subst hd <;> exact hmem
  have hp := piece_sendStep hs
  generalize sendStep g d s = st at hp
  cases hp with
  | @fa0 c hk hc =>
    refine staged (j := g.na + g.nb1 + s) ?_ (by rw [sendStep_piece (.fa1 hk hc)])
    simp only [Geometry.staged, Geometry.steps, hk]
    omega
  | @fb1 c hk hc =>
    exact consumer ⟨.outB, g.nb + 1, g.nb⟩ (by simp [streams, hk]) c (by simp only; omega)
      (by simp [itemDeps, fbStep, hc])
  | @fa1 c hk hc =>
    refine staged (j := 2 * g.na + g.nb + c) ?_ (by rw [sendStep_piece (.fa2 hk hc)])
    simp only [Geometry.staged, Geometry.steps, hk]
    omega
  | @fb2 c hk hc =>
    exact consumer ⟨.outB, g.nb + 1, g.nb⟩ (by simp [streams, hk]) (g.nb1 + c) hc
      (by simp [itemDeps, fbStep])
  | @fa2 c hk hc =>
    exact consumer ⟨.outA, 2 * g.na + g.nb + 1, g.na⟩ (by simp [streams, hk]) c hc
      (by simp [itemDeps])
  | @bb1 c hk hc =>
    refine staged (j := g.nb + s) ?_ (by rw [sendStep_piece (.bb2 hk hc)])
    simp only [Geometry.staged, Geometry.steps, hk]
    omega
  | @bb2 c hk hc =>
    exact consumer ⟨.outB, g.nb + 1, g.nb⟩ (by simp [streams, hk]) c hc (by simp [itemDeps])
  | g0f hk hc =>
    exact consumer ⟨.outPrev, 1, g.nc⟩ (by simp [streams, hk]) s hc (by simp [itemDeps])
  | @g1f c hk hc =>
    exact consumer ⟨.outFarF, g.nc + 1, g.nh⟩ (by simp [streams, hk]) c hc (by simp [itemDeps])
  | g0bhi hk hc =>
    exact consumer ⟨.outNext, 1, g.nc⟩ (by simp [streams, hk]) s (by simp only; omega)
      (by simp [itemDeps])
  | @g0blo c hk hc =>
    exact consumer ⟨.outNext, 1, g.nc⟩ (by simp [streams, hk]) (g.nc - g.nh + c)
      (by simp only; omega) (by simp [itemDeps])
  | @g1b c hk hc =>
    exact consumer ⟨.outFarB, g.nc + 1, g.nc - g.nh⟩ (by simp [streams, hk]) c
      (by simp only; omega) (by simp [itemDeps])

/-- Some backward step hands on what came from two ranks away. -/
theorem transit : ∃ s s', s < g.steps .bwd ∧ (sendStep g .bwd s).dep = some s' := by
  have h1 := nb_pos g
  have h2 := nh_lt (g := g)
  cases hk : g.kind
  · refine ⟨g.nb + 0, 0, ?_, by rw [sendStep_piece (.bb2 hk h1)]⟩
    simp only [Geometry.steps, hk]
    omega
  · refine ⟨g.nc + 0, 0, ?_, by rw [sendStep_piece (.g1b hk (by omega))]⟩
    simp only [Geometry.steps, hk]
    omega

end Consume

end Ringside.PrefillRing

import Ringside.PrefillRing.Geometry

/-!
# The registered region of the prefill ring (`Layout`, `glm53_prefill_rdma/protocol.py`)

One region for each rank: receive areas, receive flags, staging slots, ready words, control words,
end to end. Its sizes come from the largest call; a call addresses it with its own chunk rows and
steps. `make_layout` and `geo_make` in `_prb.cu` compute the same numbers in C.

* A `Layout` carries the checks of `__post_init__`, a `Call` the geometry it was made with.
* `accesses` is what an operation of the kernel or of the proxy reads and writes, in this rank's
  region or in its neighbour's: the regions have one layout.
* A `Place` is what a range of the region is for. Receive slots and flags have a parity; the staging
  slots, ready words and control words belong to every call.
* `PrbLayout` and `Geo` are the C structures, with 32-bit and 64-bit words; `Computes` relates their
  words to the numbers.

Results:
* `steps_le_cap`: every direction's steps fit the step capacity.
* `access_in_place`: an operation stays inside the places of its call.
* `place_le_total`, `place_apart`: the places lie in the region and do not overlap.
* `makeLayout_computes`, `geoMake_computes`: the C side's words hold these numbers.
* `region_sound`: the four together.

Out of scope: mapping and registering the region.
-/

namespace Ringside.PrefillRing

open Ringside.Merge

/-- `ROW_BYTES`. -/
def rowBytes : Nat := 4096 * 2

/-- `FLAG_STRIDE`. -/
def flagStride : Nat := 64

/-- `nc_max`. -/
def ncMax (maxRows crMax : Nat) : Nat := 4 * cdiv (cdiv (maxRows / 4) crMax) 4

def Dir.index : Dir → Nat
  | .fwd => 0
  | .bwd => 1

/-- `Layout`. -/
structure Layout where
  maxRows : Nat
  crMax : Nat
  nslot : Nat
  rows_dvd : maxRows % 4 = 0
  rows_pos : 0 < maxRows
  rows_le : maxRows ≤ 2 ^ 16
  cr_pos : 1 ≤ crMax
  cr_le : crMax ≤ 1024
  nslot_two : 2 ≤ nslot
  nslot_le : nslot ≤ 4096

/-- `Layout(max_rows, cr_max, nslot)`. -/
def layout (maxRows crMax nslot : Nat) : Except String Layout :=
  if h : maxRows % 4 ≠ 0 ∨ ¬ (0 < maxRows ∧ maxRows ≤ 2 ^ 16) then
    throw "max_rows must be a positive multiple of 4"
  else if h' : ¬ (1 ≤ crMax ∧ crMax ≤ 1024) ∨ ¬ (2 ≤ nslot ∧ nslot ≤ 4096) then
    throw "chunk rows in 1..1024 and 2..4096 staging slots"
  else
    return {
      maxRows := maxRows
      crMax := crMax
      nslot := nslot
      rows_dvd := by omega
      rows_pos := by omega
      rows_le := by omega
      cr_pos := by omega
      cr_le := by omega
      nslot_two := by omega
      nslot_le := by omega }

namespace Layout

variable (l : Layout)

/-- `steps_cap`. -/
def stepsCap : Nat := 3 * ncMax l.maxRows l.crMax / 2 + 2

/-- `chunk_bytes`. -/
def chunkBytes : Nat := l.crMax * rowBytes

/-- `dir_recv_bytes`. -/
def dirRecvBytes : Nat := l.stepsCap * l.chunkBytes

/-- `recv`. -/
def recv (parity : Fin 2) (d : Dir) : Nat := (parity.val * 2 + d.index) * l.dirRecvBytes

/-- `rflag_off`. -/
def rflagOff : Nat := 2 * 2 * l.dirRecvBytes

/-- `rflag`. -/
def rflag (parity : Fin 2) (d : Dir) (s : Nat) : Nat :=
  l.rflagOff + ((parity.val * 2 + d.index) * l.stepsCap + s) * flagStride

/-- `stage_off`. -/
def stageOff : Nat := l.rflagOff + 2 * 2 * l.stepsCap * flagStride

/-- `stage`. -/
def stage (d : Dir) (slot : Nat) : Nat := l.stageOff + (d.index * l.nslot + slot) * l.chunkBytes

/-- `ready_off`. -/
def readyOff : Nat := l.stageOff + 2 * l.nslot * l.chunkBytes

/-- `ready`. -/
def ready (d : Dir) (slot : Nat) : Nat := l.readyOff + (d.index * l.nslot + slot) * flagStride

/-- `ctrl_off`. -/
def ctrlOff : Nat := l.readyOff + 2 * l.nslot * flagStride

/-- `send_done`. -/
def sendDone (d : Dir) : Nat := l.ctrlOff + d.index * flagStride

/-- `poison_off`. -/
def poisonOff : Nat := l.ctrlOff + 2 * flagStride

/-- `total`: whole huge pages. -/
def total : Nat := (l.ctrlOff + 4096 + 2 * 2 ^ 20 - 1) / (2 * 2 ^ 20) * (2 * 2 ^ 20)

end Layout

/-- A call as the proxy and the kernel get it. -/
structure Call (l : Layout) where
  geom : Geometry
  /-- `seq & 1`. -/
  parity : Fin 2
  /-- The global staged index of the call's first staged chunk, for each direction. -/
  stageBase : Dir → Nat
  fits : ∃ kind rows, rows ≤ l.maxRows ∧ geometry kind rows l.crMax = some geom

/-- What a range of the region is for. -/
inductive Place where
  | recv (parity : Fin 2) (d : Dir) (s : Nat)
  | rflag (parity : Fin 2) (d : Dir) (s : Nat)
  | stage (d : Dir) (slot : Nat)
  | ready (d : Dir) (slot : Nat)
  | sendDone (d : Dir)
  | poison
  | poisonDetail
  deriving DecidableEq

/-- What addresses the region: a CTA on a work item, the proxy on a step, its drain of the
completions, a wait that polls or sets the poison words. -/
inductive Op where
  | item (i : Nat)
  | post (d : Dir) (s : Nat)
  | drain (d : Dir)
  | wait
  deriving DecidableEq

namespace Call

variable {l : Layout} (c : Call l)

/-- The staging slot of the direction's staged chunk `j`. -/
def slot (d : Dir) (j : Nat) : Nat := (c.stageBase d + j) % l.nslot

def chunkBytes (chunk : Nat) : Nat := c.geom.chunkLen chunk * rowBytes

/-- A flag of an incoming step and the chunk behind it. -/
def incoming (chunk : Nat) (dep : Dir × Nat) : List (Place × Nat) :=
  [(.rflag c.parity dep.1 dep.2, 4), (.recv c.parity dep.1 dep.2, c.chunkBytes chunk)]

/-- The places an operation addresses, and how many bytes at each. -/
def accesses : Op → List (Place × Nat)
  | .item i =>
    match itemAt c.geom i with
    | none => []
    | some it =>
      let chunk := itemChunk c.geom it.kind it.index
      (itemDeps c.geom it.kind it.index).flatMap (c.incoming chunk) ++
        match stageDir it.kind with
        | none => []
        | some d =>
          [(.sendDone d, 8), (.stage d (c.slot d it.index), c.chunkBytes chunk),
            (.ready d (c.slot d it.index), 8)]
  | .post d s =>
    if s < c.geom.steps d then
      let st := sendStep c.geom d s
      (if s < c.geom.staged d then
        [(.ready d (c.slot d s), 8), (.stage d (c.slot d s), c.chunkBytes st.chunk)]
      else
        st.dep.toList.flatMap fun dep => c.incoming st.chunk (d, dep)) ++
        [(.recv c.parity d s, c.chunkBytes st.chunk), (.rflag c.parity d s, 4)]
    else []
  | .drain d => [(.sendDone d, 8)]
  | .wait => [(.poison, 4), (.poisonDetail, 4)]

/-- Where a place starts in the region. The receive slots are as wide as the call's chunks. -/
def offset : Place → Nat
  | .recv p d s => l.recv p d + s * (c.geom.cr * rowBytes)
  | .rflag p d s => l.rflag p d s
  | .stage d slot => l.stage d slot
  | .ready d slot => l.ready d slot
  | .sendDone d => l.sendDone d
  | .poison => l.poisonOff
  | .poisonDetail => l.poisonOff + 4

/-- Its width. -/
def width : Place → Nat
  | .recv _ _ _ => c.geom.cr * rowBytes
  | .stage _ _ => l.chunkBytes
  | .rflag _ _ _ | .ready _ _ | .sendDone _ => flagStride
  | .poison | .poisonDetail => 4

/-- The places that the call has. -/
def Has : Place → Prop
  | .recv p d s | .rflag p d s => p = c.parity ∧ s < c.geom.steps d
  | .stage _ slot | .ready _ slot => slot < l.nslot
  | .sendDone _ | .poison | .poisonDetail => True

end Call

/-! ## The step capacity

The tables of flags and areas are made for the steps of the largest call. A smaller call has smaller
chunks or fewer of them, and never more steps than that.
-/

theorem cdiv_mono {a a' : Nat} (b : Nat) (h : a ≤ a') : cdiv a b ≤ cdiv a' b := by
  unfold cdiv
  exact Nat.div_le_div_right (by omega)

/-- What a geometry's chunks owe to the chunk limit. -/
theorem geometry_chunks {kind : Kind} {rows crMax : Nat} {g : Geometry}
    (h : geometry kind rows crMax = some g) :
    1 ≤ crMax ∧ g.q = rows / 4 ∧ g.nc = min (4 * cdiv (cdiv g.q crMax) 4) g.q := by
  unfold geometry at h
  split at h
  · cases h
  · cases h
    exact ⟨by omega, rfl, rfl⟩

namespace Call

variable {l : Layout} (c : Call l)

/-- **A call has at most as many chunks as the largest call.** -/
theorem nc_le_max : c.geom.nc ≤ ncMax l.maxRows l.crMax := by
  obtain ⟨kind, rows, hrows, hg⟩ := c.fits
  obtain ⟨-, hq, hnc⟩ := geometry_chunks hg
  rw [hnc, hq]
  refine (min_le_left _ _).trans ?_
  unfold ncMax
  exact Nat.mul_le_mul_left 4 (cdiv_mono 4 (cdiv_mono l.crMax (Nat.div_le_div_right hrows)))

/-- **A chunk has at most `cr_max` rows.** -/
theorem cr_le_max : c.geom.cr ≤ l.crMax := by
  obtain ⟨kind, rows, -, hg⟩ := c.fits
  obtain ⟨hcr, -, hnc⟩ := geometry_chunks hg
  have hpos := c.geom.nc_pos
  rw [c.geom.cr_eq, cdiv, ← Nat.lt_add_one_iff, Nat.div_lt_iff_lt_mul hpos]
  -- either the block is cut into enough chunks, or every chunk is one row
  have hfit : c.geom.q ≤ l.crMax * c.geom.nc := by
    rcases le_total (4 * cdiv (cdiv c.geom.q l.crMax) 4) c.geom.q with h | h
    · rw [hnc, min_eq_left h]
      calc c.geom.q ≤ l.crMax * cdiv c.geom.q l.crMax := le_mul_cdiv hcr
        _ ≤ l.crMax * (4 * cdiv (cdiv c.geom.q l.crMax) 4) :=
          Nat.mul_le_mul_left _ (le_mul_cdiv (by omega))
    · rw [hnc, min_eq_right h]
      exact Nat.le_mul_of_pos_left _ hcr
  rw [Nat.add_mul]
  omega

/-- **Every direction's steps fit the step capacity.** -/
theorem steps_le_cap (d : Dir) : c.geom.steps d ≤ l.stepsCap := by
  have hmax := c.nc_le_max
  have hna := c.geom.na_eq
  have hnh := c.geom.nh_eq
  unfold Layout.stepsCap
  cases hk : c.geom.kind <;> cases d <;>
    simp only [Geometry.steps, Geometry.nb, hk] <;> omega

theorem chunkBytes_le (chunk : Nat) : c.chunkBytes chunk ≤ c.geom.cr * rowBytes :=
  Nat.mul_le_mul_right _ (chunkLen_le _ chunk)

theorem slot_bytes_le : c.geom.cr * rowBytes ≤ l.chunkBytes :=
  Nat.mul_le_mul_right _ c.cr_le_max

theorem slot_lt (d : Dir) (j : Nat) : c.slot d j < l.nslot :=
    Nat.mod_lt _ (by have := l.nslot_two; omega)

/-! ## An operation stays inside the places of its call

`accesses` lists, for each operation, the addresses that the C code computes. A place is named by
what it is for, and its range by the layout.
-/

/-- An access lies in a place of the call. -/
def InPlace (a : Place × Nat) : Prop := c.Has a.1 ∧ a.2 ≤ c.width a.1

theorem incoming_in_place {chunk s : Nat} {d : Dir} (hs : s < c.geom.steps d) :
    ∀ a ∈ c.incoming chunk (d, s), c.InPlace a := by
  simp only [incoming, List.forall_mem_cons, List.not_mem_nil, IsEmpty.forall_iff,
    implies_true, and_true]
  exact ⟨⟨⟨rfl, hs⟩, by simp only [width]; decide⟩, ⟨rfl, hs⟩, c.chunkBytes_le chunk⟩

theorem word_in_place {p : Place} {n : Nat} (hp : c.Has p) (hw : c.width p = flagStride)
    (hn : n ≤ 8) :
    c.InPlace (p, n) := by
  refine ⟨hp, ?_⟩
  simp only [hw, flagStride]
  omega

theorem stage_in_place (chunk j : Nat) (d : Dir) :
    c.InPlace (.stage d (c.slot d j), c.chunkBytes chunk) :=
  ⟨c.slot_lt d j, (c.chunkBytes_le chunk).trans c.slot_bytes_le⟩

/-- **An operation stays inside the places of its call.** -/
theorem access_in_place {op : Op} (hop : ∀ i, op = .item i → i < c.geom.items) :
    ∀ a ∈ c.accesses op, c.InPlace a := by
  intro a ha
  cases op with
  | item i =>
    simp only [accesses] at ha
    cases hit : itemAt c.geom i with
    | none => simp [hit] at ha
    | some it =>
      simp only [hit, List.mem_append, List.mem_flatMap] at ha
      rcases ha with ⟨⟨d, s⟩, hdep, ha⟩ | ha
      · exact c.incoming_in_place (item_dep_lt (hop i rfl) hit hdep).2 a ha
      · cases hd : stageDir it.kind with
        | none => simp [hd] at ha
        | some d =>
          simp only [hd, List.mem_cons, List.not_mem_nil, or_false] at ha
          rcases ha with rfl | rfl | rfl
          · exact c.word_in_place trivial rfl le_rfl
          · exact c.stage_in_place _ _ _
          · exact c.word_in_place (c.slot_lt _ _) rfl le_rfl
  | post d s =>
    simp only [accesses] at ha
    by_cases hs : s < c.geom.steps d
    · simp only [if_pos hs, List.mem_append] at ha
      rcases ha with ha | ha
      · by_cases hst : s < c.geom.staged d
        · simp only [if_pos hst, List.mem_cons, List.not_mem_nil, or_false] at ha
          rcases ha with rfl | rfl
          · exact c.word_in_place (c.slot_lt _ _) rfl le_rfl
          · exact c.stage_in_place _ _ _
        · obtain ⟨-, s', hdep, hlt, -⟩ := relay_step (not_lt.mp hst) hs
          simp only [if_neg hst, hdep, Option.toList_some, List.flatMap_singleton] at ha
          exact c.incoming_in_place (hlt.trans hs) a ha
      · -- the neighbour's receive slot and flag of this step
        refine (show ∀ a ∈ c.incoming (sendStep c.geom d s).chunk (_, s),
          c.InPlace a from c.incoming_in_place hs) a ?_
        simp only [incoming, List.mem_cons, List.not_mem_nil, or_false] at ha ⊢
        exact ha.symm
    · simp [hs] at ha
  | drain d =>
    simp only [accesses, List.mem_singleton] at ha
    subst ha
    exact c.word_in_place trivial rfl le_rfl
  | wait =>
    simp only [accesses, List.mem_cons, List.not_mem_nil, or_false] at ha
    rcases ha with rfl | rfl <;> exact ⟨trivial, le_rfl⟩

/-! ## The places do not overlap

The region is a row of parts, each part a table, and each cell of a table a strip. Two places are in
different parts, in different cells, or in different slots of a cell; in the last two cases their
numbers differ, as rows of a table are numbered one after the other.
-/

/-- The bytes of a place. -/
def range (p : Place) : Nat × Nat := (c.offset p, c.offset p + c.width p)

end Call

/-- Where the parts of the region begin: receive areas, flags, staging slots, ready words, control
words. -/
def Layout.part (l : Layout) : Nat → Nat
  | 0 => 0
  | 1 => l.rflagOff
  | 2 => l.stageOff
  | 3 => l.readyOff
  | 4 => l.ctrlOff
  | _ => l.ctrlOff + 4096

theorem Layout.part_mono (l : Layout) : Monotone l.part := by
  refine monotone_nat_of_le_succ fun n => ?_
  match n with
  | 0 => exact Nat.zero_le _
  | 1 | 2 | 3 => exact Nat.le_add_right _ _
  | 4 => exact Nat.le_add_right _ _
  | _ + 5 => exact le_rfl

/-- The part a place lies in. -/
def Place.part : Place → Nat
  | .recv _ _ _ => 0
  | .rflag _ _ _ => 1
  | .stage _ _ => 2
  | .ready _ _ => 3
  | .sendDone _ | .poison | .poisonDetail => 4

section Strips

variable {i j n w : Nat}

theorem strip_le (h : i < n) : i * w + w ≤ n * w := by
  rw [← Nat.succ_mul]
  exact Nat.mul_le_mul_right w h

/-- Strips of one width lie apart. -/
theorem strip_apart (h : i ≠ j) : i * w + w ≤ j * w ∨ j * w + w ≤ i * w :=
  (lt_or_gt_of_ne h).imp strip_le strip_le

/-- Rows of a table with `n` columns are numbered one after the other. -/
theorem cell_lt {a m b : Nat} (ha : a < m) (hb : b < n) : a * n + b < m * n :=
  (Nat.add_lt_add_left hb _).trans_le (strip_le ha)

theorem cell_inj {a a' b b' : Nat} (hb : b < n) (hb' : b' < n) (h : a * n + b = a' * n + b') :
    a = a' ∧ b = b' := by
  have hn : 0 < n := by omega
  have hdiv := congrArg (· / n) h
  simp only [Nat.mul_comm _ n, Nat.mul_add_div hn, Nat.div_eq_of_lt hb, Nat.div_eq_of_lt hb',
    Nat.add_zero] at hdiv
  subst hdiv
  exact ⟨rfl, Nat.add_left_cancel h⟩

end Strips

theorem Dir.index_lt (d : Dir) : d.index < 2 := by
  cases d <;> decide

theorem Dir.index_inj {d d' : Dir} (h : d.index = d'.index) : d = d' := by
  cases d <;> cases d' <;> first | rfl | cases h

/-- The number of a parity and a direction. -/
theorem area_lt (p : Fin 2) (d : Dir) : p.val * 2 + d.index < 2 * 2 := cell_lt p.isLt d.index_lt

theorem area_inj {p p' : Fin 2} {d d' : Dir} (h : p.val * 2 + d.index = p'.val * 2 + d'.index) :
    p = p' ∧ d = d' := by
  obtain ⟨hp, hd⟩ := cell_inj d.index_lt d'.index_lt h
  exact ⟨Fin.ext hp, Dir.index_inj hd⟩

namespace Call

variable {l : Layout} (c c' : Call l)

/-- A receive slot lies in its area. -/
theorem recv_slot_le {d : Dir} {s : Nat} (h : s < c.geom.steps d) :
    s * (c.geom.cr * rowBytes) + c.geom.cr * rowBytes ≤ l.dirRecvBytes :=
  (strip_le (h.trans_le (c.steps_le_cap d))).trans (Nat.mul_le_mul_left _ c.slot_bytes_le)

/-- **Every place of a call lies in its part of the region.** -/
theorem range_in_part {p : Place} (h : c.Has p) :
    l.part p.part ≤ (c.range p).1 ∧ (c.range p).2 ≤ l.part (p.part + 1) := by
  cases p with
  | recv p d s =>
    refine ⟨Nat.zero_le _, ?_⟩
    have harea := strip_le (w := l.dirRecvBytes) (area_lt p d)
    have hslot := c.recv_slot_le h.2
    simp only [range, offset, width, Place.part, Layout.part, Layout.recv, Layout.rflagOff]
    omega
  | rflag p d s =>
    have hcell := cell_lt (area_lt p d) (h.2.trans_le (c.steps_le_cap d))
    have hstrip := strip_le (w := flagStride) hcell
    simp only [range, offset, width, Place.part, Layout.part, Layout.rflag, Layout.stageOff]
    omega
  | stage d slot =>
    have hstrip := strip_le (w := l.chunkBytes) (cell_lt d.index_lt h)
    simp only [range, offset, width, Place.part, Layout.part, Layout.stage, Layout.readyOff]
    omega
  | ready d slot =>
    have hstrip := strip_le (w := flagStride) (cell_lt d.index_lt h)
    simp only [range, offset, width, Place.part, Layout.part, Layout.ready, Layout.ctrlOff]
    omega
  | sendDone d =>
    have := d.index_lt
    simp only [range, offset, width, Place.part, Layout.part, Layout.sendDone, flagStride]
    omega
  | poison | poisonDetail =>
    simp only [range, offset, width, Place.part, Layout.part, Layout.poisonOff, flagStride]
    omega

/-- **Every place of a call lies in the region.** -/
theorem place_le_total {p : Place} (h : c.Has p) : (c.range p).2 ≤ l.total := by
  have hpart : p.part + 1 ≤ 5 := by cases p <;> simp only [Place.part] <;> decide
  have hlast : l.ctrlOff + 4096 ≤ l.total := by
    unfold Layout.total
    omega
  exact ((c.range_in_part h).2.trans (l.part_mono hpart)).trans hlast

/-- Two ranges have no byte in common. -/
def Apart (a b : Nat × Nat) : Prop := a.2 ≤ b.1 ∨ b.2 ≤ a.1

/-- Places of different roles lie apart. -/
theorem apart_of_part {c c' : Call l} {p p' : Place} (h : c.Has p) (h' : c'.Has p')
    (hne : p.part ≠ p'.part) : Apart (c.range p) (c'.range p') := by
  have hp := c.range_in_part h
  have hp' := c'.range_in_part h'
  rcases lt_or_gt_of_ne hne with hlt | hlt
  · exact Or.inl ((hp.2.trans (l.part_mono hlt)).trans hp'.1)
  · exact Or.inr ((hp'.2.trans (l.part_mono hlt)).trans hp.1)

/-- **The places of the calls in flight do not overlap**: two calls of one parity are one call. -/
theorem place_apart {c c' : Call l} (hflight : c.parity = c'.parity → c.geom = c'.geom)
    {p p' : Place}
    (h : c.Has p) (h' : c'.Has p') (hne : p ≠ p') : Apart (c.range p) (c'.range p') := by
  by_cases hpart : p.part = p'.part
  case neg => exact apart_of_part h h' hpart
  cases p <;> cases p' <;> simp only [Place.part, reduceCtorEq, Nat.reduceEqDiff] at hpart
  case recv.recv p d s p' d' s' =>
    have hslot := c.recv_slot_le h.2
    have hslot' := c'.recv_slot_le h'.2
    simp only [Apart, range, offset, width, Layout.recv]
    by_cases harea : p.val * 2 + d.index = p'.val * 2 + d'.index
    · obtain ⟨rfl, rfl⟩ := area_inj harea
      have hgeom : c.geom = c'.geom := hflight (h.1.symm.trans h'.1)
      have hs : s ≠ s' := fun e => hne (by rw [e])
      have hstrip := strip_apart (w := c'.geom.cr * rowBytes) hs
      rw [hgeom]
      omega
    · have hstrip := strip_apart (w := l.dirRecvBytes) harea
      omega
  case rflag.rflag p d s p' d' s' =>
    have hcell : (p.val * 2 + d.index) * l.stepsCap + s ≠
      (p'.val * 2 + d'.index) * l.stepsCap + s' := by
      intro e
      obtain ⟨harea, rfl⟩ := cell_inj (h.2.trans_le (c.steps_le_cap d))
        (h'.2.trans_le (c'.steps_le_cap d')) e
      obtain ⟨rfl, rfl⟩ := area_inj harea
      exact hne rfl
    have hstrip := strip_apart (w := flagStride) hcell
    simp only [Apart, range, offset, width, Layout.rflag]
    omega
  case stage.stage d slot d' slot' =>
    have hcell : d.index * l.nslot + slot ≠ d'.index * l.nslot + slot' := by
      intro e
      obtain ⟨hd, rfl⟩ := cell_inj h h' e
      exact hne (by rw [Dir.index_inj hd])
    have hstrip := strip_apart (w := l.chunkBytes) hcell
    simp only [Apart, range, offset, width, Layout.stage]
    omega
  case ready.ready d slot d' slot' =>
    have hcell : d.index * l.nslot + slot ≠ d'.index * l.nslot + slot' := by
      intro e
      obtain ⟨hd, rfl⟩ := cell_inj h h' e
      exact hne (by rw [Dir.index_inj hd])
    have hstrip := strip_apart (w := flagStride) hcell
    simp only [Apart, range, offset, width, Layout.ready]
    omega
  case sendDone.sendDone d d' =>
    have hd : d.index ≠ d'.index := fun e => hne (by rw [Dir.index_inj e])
    have hstrip := strip_apart (w := flagStride) hd
    simp only [Apart, range, offset, width, Layout.sendDone]
    omega
  case sendDone.poison d | sendDone.poisonDetail d | poison.sendDone d | poisonDetail.sendDone d =>
    have := d.index_lt
    simp only [Apart, range, offset, width, Layout.sendDone, Layout.poisonOff, flagStride]
    omega
  case poison.poison | poisonDetail.poisonDetail => exact absurd rfl hne
  case poison.poisonDetail | poisonDetail.poison =>
    simp only [Apart, range, offset, width]
    omega

/-- The bytes an access addresses. -/
def bytes (a : Place × Nat) : Nat × Nat := (c.offset a.1, c.offset a.1 + a.2)

theorem apart_of_in_place {c c' : Call l} {a a' : Place × Nat} (h : c.InPlace a)
    (h' : c'.InPlace a')
    (hplace : Apart (c.range a.1) (c'.range a'.1)) : Apart (c.bytes a) (c'.bytes a') := by
  have hle := h.2
  have hle' := h'.2
  simp only [Apart, range, bytes] at hplace ⊢
  omega

end Call

/-! ## The numbers of the C side

The C side computes in 64 and 32 bits. Every intermediate value is bounded first, so that each
operation is the one on natural numbers; the two definitions are then the same expression.
-/

/-- `prb_layout`. -/
structure PrbLayout where
  maxRows : UInt64
  crMax : UInt64
  nslot : UInt64
  ncMax : UInt64
  stepsCap : UInt64
  chunkBytes : UInt64
  dirRecvBytes : UInt64
  rflagOff : UInt64
  stageOff : UInt64
  readyOff : UInt64
  ctrlOff : UInt64
  total : UInt64

/-- `make_layout`; `none` for its `-1`. -/
def makeLayout (maxRows crMax nslot : UInt64) : Option PrbLayout :=
  if maxRows = 0 ∨ maxRows % 4 ≠ 0 ∨ maxRows > 65536 ∨ crMax < 1 ∨ crMax > 1024 ∨ nslot < 2 ∨
    nslot > 4096 then
    none
  else
    let q := maxRows / 4
    let ncMax := 4 * (((q + crMax - 1) / crMax + 3) / 4)
    let stepsCap := 3 * ncMax / 2 + 2
    let chunkBytes := crMax * 8192
    let dirRecvBytes := stepsCap * chunkBytes
    let rflagOff := 2 * 2 * dirRecvBytes
    let stageOff := rflagOff + 2 * 2 * stepsCap * 64
    let readyOff := stageOff + 2 * nslot * chunkBytes
    let ctrlOff := readyOff + 2 * nslot * 64
    let raw := ctrlOff + 4096
    some {
      maxRows := maxRows
      crMax := crMax
      nslot := nslot
      ncMax := ncMax
      stepsCap := stepsCap
      chunkBytes := chunkBytes
      dirRecvBytes := dirRecvBytes
      rflagOff := rflagOff
      stageOff := stageOff
      readyOff := readyOff
      ctrlOff := ctrlOff
      total := (raw + 2097152 - 1) / 2097152 * 2097152 }

/-- The C side's numbers are the layout's. -/
structure PrbLayout.Computes (r : PrbLayout) (l : Layout) : Prop where
  maxRows : r.maxRows.toNat = l.maxRows
  crMax : r.crMax.toNat = l.crMax
  nslot : r.nslot.toNat = l.nslot
  ncMax : r.ncMax.toNat = PrefillRing.ncMax l.maxRows l.crMax
  stepsCap : r.stepsCap.toNat = l.stepsCap
  chunkBytes : r.chunkBytes.toNat = l.chunkBytes
  dirRecvBytes : r.dirRecvBytes.toNat = l.dirRecvBytes
  rflagOff : r.rflagOff.toNat = l.rflagOff
  stageOff : r.stageOff.toNat = l.stageOff
  readyOff : r.readyOff.toNat = l.readyOff
  ctrlOff : r.ctrlOff.toNat = l.ctrlOff
  total : r.total.toNat = l.total

/-- `Geo`, of the fields that the geometry keeps. -/
structure Geo where
  rows : UInt32
  q : UInt32
  cr : UInt32
  nc : UInt32
  na : UInt32
  nb : UInt32
  nb1 : UInt32
  nh : UInt32
  steps : Dir → UInt32
  staged : Dir → UInt32
  items : UInt32

def cdiv32 (a b : UInt32) : UInt32 := (a + b - 1) / b

/-- `geo_make`. -/
def geoMake (kind : Kind) (rows crMax : UInt32) : Geo :=
  let q := rows / 4
  let nc := 4 * cdiv32 (cdiv32 q crMax) 4
  let nc := if nc < q then nc else q
  let na := nc / 4
  let nb := nc - na
  let nh := nc / 2
  let steps : Dir → UInt32 := fun d =>
    match kind, d with
    | .rs, .fwd => 3 * na + nb
    | .rs, .bwd => 2 * nb
    | .ag, .fwd => nc + nh
    | .ag, .bwd => 2 * nc - nh
  { rows := rows
    q := q
    cr := cdiv32 q nc
    nc := nc
    na := na
    nb := nb
    nb1 := nb / 2
    nh := nh
    steps := steps
    staged := fun d =>
      match kind with
      | .rs => steps d
      | .ag => nc
    items :=
      match kind with
      | .rs => 4 * nc
      | .ag => 5 * nc }

/-- The C side's numbers are the geometry's. -/
structure Geo.Computes (r : Geo) (g : Geometry) : Prop where
  rows : r.rows.toNat = g.rows
  q : r.q.toNat = g.q
  cr : r.cr.toNat = g.cr
  nc : r.nc.toNat = g.nc
  na : r.na.toNat = g.na
  nb : r.nb.toNat = g.nb
  nb1 : r.nb1.toNat = g.nb1
  nh : r.nh.toNat = g.nh
  steps : ∀ d, (r.steps d).toNat = g.steps d
  staged : ∀ d, (r.staged d).toNat = g.staged d
  items : r.items.toNat = g.items

section Words

theorem add64 {a b : UInt64} {x y : Nat} (ha : a.toNat = x) (hb : b.toNat = y)
    (h : x + y < 2 ^ 64) :
    (a + b).toNat = x + y := by
  rw [UInt64.toNat_add, ha, hb, Nat.mod_eq_of_lt h]

theorem mul64 {a b : UInt64} {x y : Nat} (ha : a.toNat = x) (hb : b.toNat = y)
    (h : x * y < 2 ^ 64) :
    (a * b).toNat = x * y := by
  rw [UInt64.toNat_mul, ha, hb, Nat.mod_eq_of_lt h]

theorem sub64 {a b : UInt64} {x y : Nat} (ha : a.toNat = x) (hb : b.toNat = y) (h : y ≤ x) :
    (a - b).toNat = x - y := by
  rw [UInt64.toNat_sub_of_le a b (by rw [UInt64.le_iff_toNat_le]; omega), ha, hb]

theorem div64 {a b : UInt64} {x y : Nat} (ha : a.toNat = x) (hb : b.toNat = y) :
    (a / b).toNat = x / y := by
  rw [UInt64.toNat_div, ha, hb]

theorem add32 {a b : UInt32} {x y : Nat} (ha : a.toNat = x) (hb : b.toNat = y)
    (h : x + y < 2 ^ 32) :
    (a + b).toNat = x + y := by
  rw [UInt32.toNat_add, ha, hb, Nat.mod_eq_of_lt h]

theorem mul32 {a b : UInt32} {x y : Nat} (ha : a.toNat = x) (hb : b.toNat = y)
    (h : x * y < 2 ^ 32) :
    (a * b).toNat = x * y := by
  rw [UInt32.toNat_mul, ha, hb, Nat.mod_eq_of_lt h]

theorem sub32 {a b : UInt32} {x y : Nat} (ha : a.toNat = x) (hb : b.toNat = y) (h : y ≤ x) :
    (a - b).toNat = x - y := by
  rw [UInt32.toNat_sub_of_le a b (by rw [UInt32.le_iff_toNat_le]; omega), ha, hb]

theorem div32 {a b : UInt32} {x y : Nat} (ha : a.toNat = x) (hb : b.toNat = y) :
    (a / b).toNat = x / y := by
  rw [UInt32.toNat_div, ha, hb]

theorem cdiv32_toNat {a b : UInt32} {x y : Nat} (ha : a.toNat = x) (hb : b.toNat = y)
    (h : x + y < 2 ^ 32)
    (hy : 1 ≤ y) : (cdiv32 a b).toNat = cdiv x y :=
  have w1 : (1 : UInt32).toNat = 1 := rfl
  div32 (sub32 (add32 ha hb h) w1 (by omega)) hb

end Words

/-- The parts of a region are far below the range of a 64-bit word. -/
theorem Layout.parts_le (l : Layout) : PrefillRing.ncMax l.maxRows l.crMax ≤ 2 ^ 15 ∧
    l.stepsCap ≤ 2 ^ 15 ∧
    l.chunkBytes ≤ 2 ^ 23 ∧ l.dirRecvBytes ≤ 2 ^ 28 := by
  have hcr := l.cr_pos
  have hcr' := l.cr_le
  have hrows := l.rows_le
  have hd : l.crMax * PrefillRing.ncMax l.maxRows l.crMax ≤ 2 ^ 14 + 4 * 2 ^ 10 := by
    have h1 : PrefillRing.ncMax l.maxRows l.crMax ≤
        (l.maxRows / 4 + l.crMax - 1) / l.crMax + 3 := by
      unfold PrefillRing.ncMax cdiv
      generalize (l.maxRows / 4 + l.crMax - 1) / l.crMax = n
      omega
    have h2 := Nat.mul_div_le (l.maxRows / 4 + l.crMax - 1) l.crMax
    have h3 := Nat.mul_le_mul_left l.crMax h1
    rw [Nat.mul_add] at h3
    omega
  have hn : PrefillRing.ncMax l.maxRows l.crMax ≤ 2 ^ 15 := by
    have := Nat.le_mul_of_pos_left (PrefillRing.ncMax l.maxRows l.crMax) hcr
    omega
  have hs : 2 * (l.crMax * l.stepsCap) ≤ 2 ^ 16 := by
    have h1 : 2 * l.stepsCap ≤ 3 * PrefillRing.ncMax l.maxRows l.crMax + 4 := by
      unfold Layout.stepsCap
      omega
    have h2 := Nat.mul_le_mul_left l.crMax h1
    rw [Nat.mul_add, Nat.mul_left_comm, Nat.mul_left_comm _ 3] at h2
    omega
  refine ⟨hn, ?_, ?_, ?_⟩
  · have := Nat.le_mul_of_pos_left l.stepsCap hcr
    omega
  · unfold Layout.chunkBytes rowBytes
    omega
  · unfold Layout.dirRecvBytes Layout.chunkBytes rowBytes
    calc l.stepsCap * (l.crMax * (4096 * 2)) = (l.crMax * l.stepsCap) * 8192 := by ring
      _ ≤ 2 ^ 15 * 8192 := Nat.mul_le_mul_right _ (by omega)
      _ = 2 ^ 28 := by norm_num

/-- **`make_layout` computes the layout.** -/
theorem makeLayout_computes (l : Layout) : ∃ r,
    makeLayout (.ofNat l.maxRows) (.ofNat l.crMax) (.ofNat l.nslot) = some r ∧ r.Computes l := by
  have hcr := l.cr_pos
  have hcr' := l.cr_le
  have hrows := l.rows_le
  have hslot := l.nslot_le
  obtain ⟨hnc, hcap, hchunk, hrecv⟩ := l.parts_le
  have hsize : UInt64.size = 2 ^ 64 := rfl
  have M : (UInt64.ofNat l.maxRows).toNat = l.maxRows := UInt64.toNat_ofNat_of_lt (by omega)
  have C : (UInt64.ofNat l.crMax).toNat = l.crMax := UInt64.toNat_ofNat_of_lt (by omega)
  have N : (UInt64.ofNat l.nslot).toNat = l.nslot := UInt64.toNat_ofNat_of_lt (by omega)
  have w1 : (1 : UInt64).toNat = 1 := rfl
  have w2 : (2 : UInt64).toNat = 2 := rfl
  have w22 : (2 * 2 : UInt64).toNat = 2 * 2 := rfl
  have w3 : (3 : UInt64).toNat = 3 := rfl
  have w4 : (4 : UInt64).toNat = 4 := rfl
  have w64 : (64 : UInt64).toNat = 64 := rfl
  have w4096 : (4096 : UInt64).toNat = 4096 := rfl
  have w8192 : (8192 : UInt64).toNat = 8192 := rfl
  have wPage : (2097152 : UInt64).toNat = 2097152 := rfl
  have hstage : 2 * l.nslot * l.chunkBytes ≤ 2 * 2 ^ 12 * 2 ^ 23 := Nat.mul_le_mul (by omega) hchunk
  -- every step stays below 2 ^ 64
  have q := div64 M w4
  have chunks := div64 (sub64 (add64 q C (by omega)) w1 (by omega)) C
  have hchunks : (l.maxRows / 4 + l.crMax - 1) / l.crMax ≤ 2 ^ 15 := by
    refine (?_ : _ ≤ PrefillRing.ncMax l.maxRows l.crMax).trans hnc
    unfold PrefillRing.ncMax cdiv
    generalize (l.maxRows / 4 + l.crMax - 1) / l.crMax = n
    omega
  have nc := mul64 w4
    (div64 (add64 chunks w3 (by omega)) w4)
    (by generalize (l.maxRows / 4 + l.crMax - 1) / l.crMax = n at hchunks ⊢; omega)
  have hncMax : 4 * (((l.maxRows / 4 + l.crMax - 1) / l.crMax + 3) / 4) = PrefillRing.ncMax
    l.maxRows l.crMax := rfl
  rw [hncMax] at nc
  have cap := add64 (div64 (mul64 w3 nc (by omega)) w2)
    w2 (by omega)
  have chunk := mul64 C w8192 (by omega)
  change _ = l.stepsCap at cap
  change _ = l.chunkBytes at chunk
  have recv := mul64 cap chunk (by change l.dirRecvBytes < _; omega)
  change _ = l.dirRecvBytes at recv
  have rflag := mul64 w22 recv (by omega)
  change _ = l.rflagOff at rflag
  have hrflag : l.rflagOff = 4 * l.dirRecvBytes := rfl
  have stage := add64 rflag (mul64 (mul64 w22 cap (by omega))
    w64 (by omega)) (by omega)
  change _ = l.stageOff at stage
  have hstageOff : l.stageOff = l.rflagOff + 2 * 2 * l.stepsCap * 64 := rfl
  have ready := add64 stage (mul64 (mul64 w2 N (by omega)) chunk (by omega)) (by omega)
  change _ = l.readyOff at ready
  have hready : l.readyOff = l.stageOff + 2 * l.nslot * l.chunkBytes := rfl
  have ctrl := add64 ready (mul64 (mul64 w2 N (by omega))
    w64 (by omega)) (by omega)
  change _ = l.ctrlOff at ctrl
  have hctrl : l.ctrlOff = l.readyOff + 2 * l.nslot * 64 := rfl
  have total := mul64 (div64 (sub64 (add64 (add64 ctrl w4096 (by omega))
    wPage (by omega)) w1 (by omega))
    wPage) wPage (by omega)
  change _ = l.total at total
  refine ⟨_, if_neg ?_, ⟨M, C, N, nc, cap, chunk, recv, rflag, stage, ready, ctrl, total⟩⟩
  have hdvd := l.rows_dvd
  have hpos := l.rows_pos
  have htwo := l.nslot_two
  simp only [← UInt64.toNat_inj, UInt64.lt_iff_toNat_lt, gt_iff_lt, ne_eq,
    UInt64.toNat_mod, M, C, N]
  simp only [UInt64.toNat_ofNat, Nat.reducePow, Nat.reduceMod]
  omega

/-- **`geo_make` computes the geometry** of a call. -/
theorem geoMake_computes {l : Layout} {kind : Kind} {rows : Nat} {g : Geometry}
    (hrows : rows ≤ l.maxRows)
    (hg : geometry kind rows l.crMax = some g) :
    (geoMake kind (.ofNat rows) (.ofNat l.crMax)).Computes g := by
  have hcr := l.cr_pos
  have hcr' := l.cr_le
  have hmax := l.rows_le
  have hsize : UInt32.size = 2 ^ 32 := rfl
  obtain ⟨hnc, -⟩ := l.parts_le
  have hncMax := (Call.mk g 0 (fun _ => 0) ⟨kind, rows, hrows, hg⟩ : Call l).nc_le_max
  simp only at hncMax
  obtain ⟨-, hq, hmin⟩ := geometry_chunks hg
  have hkind : g.kind = kind ∧ g.rows = rows := by
    unfold geometry at hg
    split at hg
    · cases hg
    · cases hg
      exact ⟨rfl, rfl⟩
  obtain ⟨hk, hr⟩ := hkind
  have hpos := g.nc_pos
  have R : (UInt32.ofNat rows).toNat = rows := UInt32.toNat_ofNat_of_lt (by omega)
  have C : (UInt32.ofNat l.crMax).toNat = l.crMax := UInt32.toNat_ofNat_of_lt (by omega)
  have w2 : (2 : UInt32).toNat = 2 := rfl
  have w3 : (3 : UInt32).toNat = 3 := rfl
  have w4 : (4 : UInt32).toNat = 4 := rfl
  have w5 : (5 : UInt32).toNat = 5 := rfl
  have q := div32 R w4
  rw [← hq] at q
  have hcd : cdiv g.q l.crMax ≤ 2 ^ 15 := by
    refine (Nat.div_le_self _ _).trans ?_
    omega
  have hcd4 : cdiv (cdiv g.q l.crMax) 4 ≤ 2 ^ 13 + 1 := by
    have : cdiv (cdiv g.q l.crMax) 4 = (cdiv g.q l.crMax + 4 - 1) / 4 := rfl
    omega
  have nc' := mul32 w4 (cdiv32_toNat (cdiv32_toNat q C (by omega) hcr)
    w4 (by omega) (by omega)) (by omega)
  have nc : (geoMake kind (.ofNat rows) (.ofNat l.crMax)).nc.toNat = g.nc := by
    simp only [geoMake]
    rw [hmin]
    split_ifs with h <;> rw [UInt32.lt_iff_toNat_lt, nc', q] at h
    · rw [nc', min_eq_left h.le]
    · rw [q, min_eq_right (not_lt.mp h)]
  have na := div32 nc w4
  rw [← g.na_eq] at na
  have hna := g.na_eq
  have hnh := g.nh_eq
  have hnb : g.nb = g.nc - g.na := rfl
  have nb := sub32 nc na (by omega)
  rw [← hnb] at nb
  have nh := div32 nc w2
  rw [← g.nh_eq] at nh
  have steps : ∀ d, ((geoMake kind (.ofNat rows) (.ofNat l.crMax)).steps d).toNat = g.steps d := by
    intro d
    subst hk
    cases hk : g.kind <;> cases d <;> simp only [Geometry.steps, hk]
    · exact add32 (mul32 w3 na (by omega)) nb (by omega)
    · exact mul32 w2 nb (by omega)
    · exact add32 nc nh (by omega)
    · rw [show g.nc + (g.nc - g.nh) = 2 * g.nc - g.nh by omega]
      exact sub32 (mul32 w2 nc (by omega)) nh (by omega)
  refine ⟨R.trans hr.symm, q, ?_, nc, na, nb, ?_, nh, steps, ?_, ?_⟩
  · rw [g.cr_eq]
    exact cdiv32_toNat q nc (by omega) hpos
  · rw [g.nb1_eq, ← hnb]
    exact div32 nb w2
  · intro d
    subst hk
    cases hk : g.kind <;> simp only [Geometry.staged, hk]
    · rw [← steps d, hk]
      rfl
    · rw [hk] at nc
      exact nc
  · subst hk
    cases hk : g.kind <;> simp only [Geometry.items, hk] <;> rw [hk] at nc
    · exact mul32 w4 nc (by omega)
    · exact mul32 w5 nc (by omega)

/-! ## The region as a whole -/

/-- What the constructor accepts is what it was called with. -/
theorem layout_ok {maxRows crMax nslot : Nat} {l : Layout}
    (h : layout maxRows crMax nslot = .ok l) :
    l.maxRows = maxRows ∧ l.crMax = crMax ∧ l.nslot = nslot := by
  unfold layout at h
  split at h
  · cases h
  split at h
  · cases h
  · cases h
    exact ⟨rfl, rfl, rfl⟩

/-- An operation that the call makes. -/
def Call.Runs {l : Layout} (c : Call l) : Op → Prop
  | .item i => i < c.geom.items
  | .post d s => s < c.geom.steps d
  | .drain _ | .wait => True

theorem Call.runs_in_place {l : Layout} {c : Call l} {op : Op} (h : c.Runs op) :
    ∀ a ∈ c.accesses op, c.InPlace a :=
  c.access_in_place fun i hi => by subst hi; exact h

/-- **The layout of the region is sound.** `make_layout` and `geo_make` compute the same numbers; a
call's steps fit the capacity; an operation stays inside its places and the region; and what
operations of the calls in flight address for different purposes does not overlap. -/
theorem region_sound {maxRows crMax nslot : Nat} {l : Layout}
    (h : layout maxRows crMax nslot = .ok l) :
    (∃ r, makeLayout (.ofNat maxRows) (.ofNat crMax) (.ofNat nslot) = some r ∧ r.Computes l) ∧
    (∀ kind rows g, rows ≤ maxRows → geometry kind rows crMax = some g →
      (geoMake kind (.ofNat rows) (.ofNat crMax)).Computes g ∧ ∀ d, g.steps d ≤ l.stepsCap) ∧
    (∀ (c : Call l) op, c.Runs op → ∀ a ∈ c.accesses op,
      (c.range a.1).1 ≤ (c.bytes a).1 ∧ (c.bytes a).2 ≤ (c.range a.1).2 ∧ (c.bytes a).2 ≤ l.total) ∧
    (∀ c c' : Call l, (c.parity = c'.parity → c.geom = c'.geom) →
      ∀ op op', c.Runs op → c'.Runs op' → ∀ a ∈ c.accesses op, ∀ a' ∈ c'.accesses op', a.1 ≠ a'.1 →
        Call.Apart (c.bytes a) (c'.bytes a')) := by
  obtain ⟨rfl, rfl, rfl⟩ := layout_ok h
  refine ⟨makeLayout_computes l, ?_, ?_, ?_⟩
  · intro kind rows g hrows hg
    exact ⟨geoMake_computes hrows hg,
      (Call.mk g 0 (fun _ => 0) ⟨kind, rows, hrows, hg⟩ : Call l).steps_le_cap⟩
  · intro c op hop a ha
    obtain ⟨hhas, hwidth⟩ := Call.runs_in_place hop a ha
    have hin : (c.bytes a).2 ≤ (c.range a.1).2 := Nat.add_le_add_left hwidth _
    exact ⟨le_rfl, hin, hin.trans (c.place_le_total hhas)⟩
  · intro c c' hflight op op' hop hop' a ha a' ha' hne
    have hin := Call.runs_in_place hop a ha
    have hin' := Call.runs_in_place hop' a' ha'
    exact Call.apart_of_in_place hin hin' (Call.place_apart hflight hin.1 hin'.1 hne)

/-- A layout of four rows, one chunk row and two slots. -/
def smallLayout : Layout := ⟨4, 1, 2, rfl, by decide, by decide, le_rfl, by
    decide, le_rfl, by decide⟩

theorem smallLayout_sound : ∃ r, makeLayout (.ofNat 4) (.ofNat 1) (.ofNat 2) = some r ∧
    r.Computes smallLayout :=
  (@region_sound 4 1 2 smallLayout rfl).1

end Ringside.PrefillRing

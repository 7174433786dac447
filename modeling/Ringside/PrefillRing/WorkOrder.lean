import Ringside.PrefillRing.Layout

/-!
# The merged work order (`protocol.py`, `_prb.cu`)

Every rank works off one list of items, the streams of both directions merged by step. A block takes
the next item from a counter and waits for the chunks that the item consumes. The order is what
keeps the blocks from waiting for each other in a circle.

* `Blocks` are the blocks of all ranks with the items that were taken and done. A block goes on when
  the chunks of its item were staged.
* A chunk that arrives was staged by an item of the sender, or of the sender's own sender where it
  was relayed (`stagedBy`). That it arrives once it was staged is left to the protocol.
* `itemAt32` is the kernel's `item_at` with its binary search and its scan, on 32-bit words; a kind
  above `IT_OUT_FARB` is `none` here.

Results:
* `exists_unique_item`: every item of every stream stands at one index.
* `stager_lt`, `exists_stager`: what an item waits for was staged by an item before it.
* `Blocks.exists_step`: on any number of blocks, some block always goes on.
* `makeStreams_computes`, `itemAt32_computes`: the kernel's streams and order are these.
* `work_order`: all of it, for every geometry.
-/

namespace Ringside.PrefillRing

open Ringside.Merge

/-! ## Items -/

section Items

variable {g : Geometry}

/-- **Every item of every stream stands at one index.** -/
theorem exists_unique_item {st : Stream ItemKind} (hst : st ∈ streams g) {j : Nat}
    (hj : j < st.count) :
    ∃! i, i < g.items ∧ itemAt g i = some ⟨st.kind, j, st.start + j⟩ := by
  obtain ⟨i, hi, hit⟩ := exists_item hst hj
  exact ⟨i, ⟨hi, hit⟩, fun i' hi' => item_unique hi'.1 hi hi'.2 hit⟩

/-- Where the chunk of a send step of `r` was staged: by `r`, or by its own sender. -/
def stagedBy (g : Geometry) (r : Rank) (d : Dir) (s : Nat) : Rank × Nat :=
  if s < g.staged d then (r, s) else (sender r d, ((sendStep g d s).dep).getD s)

/-- **What an item waits for is staged at an earlier index.** -/
theorem stager_lt {i : Nat} {it : Item ItemKind} (hi : i < g.items) (hit : itemAt g i = some it)
    {d : Dir} {s : Nat} (hd : (d, s) ∈ itemDeps g it.kind it.index) {r : Rank} {k : Nat}
    {it' : Item ItemKind} (hk : k < g.items) (hit' : itemAt g k = some it')
    (hdir : stageDir it'.kind = some d) (hidx : it'.index = (stagedBy g r d s).2) : k < i := by
  obtain ⟨hlt, hs⟩ := item_dep_lt hi hit hd
  have hle : (stagedBy g r d s).2 ≤ s := by
    unfold stagedBy
    split_ifs with h
    · exact le_rfl
    · obtain ⟨-, s', hdep, hs', -⟩ := relay_step (Nat.le_of_not_lt h) hs
      rw [hdep, Option.getD_some]
      exact hs'.le
  by_contra hge
  have hstep := (stage_item hk hit' hdir).2
  have hmono := item_step_mono (Nat.le_of_not_lt hge) hk hit hit'
  omega

/-- It is staged by some item. -/
theorem exists_stager {i : Nat} {it : Item ItemKind} (hi : i < g.items) (hit : itemAt g i = some it)
    {d : Dir} {s : Nat}
    (hd : (d, s) ∈ itemDeps g it.kind it.index) (r : Rank) :
    ∃ k < i, ∃ it', itemAt g k = some it' ∧ stageDir it'.kind = some d ∧
      it'.index = (stagedBy g r d s).2 := by
  have hstaged : (stagedBy g r d s).2 < g.staged d := by
    unfold stagedBy
    split_ifs with h
    · exact h
    · obtain ⟨-, s', hdep, -, hin⟩ := relay_step (Nat.le_of_not_lt h) (item_dep_lt hi hit hd).2
      rw [hdep, Option.getD_some]
      exact hin
  obtain ⟨k, hk, it', hit', hdir, hidx⟩ := exists_stage_item hstaged
  exact ⟨k, stager_lt hi hit hd hk hit' hdir hidx, it', hit', hdir, hidx⟩

end Items

/-! ## Blocks -/

/-- The blocks of all ranks: how many items of a rank were taken, what each block works on, and
which items are done. -/
structure Blocks (n : Nat) where
  taken : Rank → Nat
  held : Rank → Fin n → Option Nat
  done : Rank → Nat → Prop

section Blocks

variable {n : Nat} (g : Geometry)

/-- Before the first item was taken. -/
def Blocks.init (n : Nat) : Blocks n := ⟨fun _ => 0, fun _ _ => none, fun _ _ => False⟩

/-- The chunks that item `i` of rank `r` consumes were staged. -/
def Blocks.Ready (w : Blocks n) (r : Rank) (i : Nat) : Prop :=
  ∀ it, itemAt g i = some it → ∀ p ∈ itemDeps g it.kind it.index, ∀ k < g.items, ∀ it',
    itemAt g k = some it' →
    stageDir it'.kind = some p.1 → it'.index = (stagedBy g (sender r p.1) p.1 p.2).2 →
      w.done (stagedBy g (sender r p.1) p.1 p.2).1 k

/-- Block `b` of rank `r` holds `v` now. -/
def Blocks.hold (w : Blocks n) (r : Rank) (b : Fin n) (v : Option Nat) : Rank → Fin n →
    Option Nat := fun r' b' =>
  if r' = r ∧ b' = b then v else w.held r' b'

/-- One block takes the next item, or finishes the one it holds. -/
inductive Blocks.Step : Blocks n → Blocks n → Prop
  | take {w : Blocks n} {r : Rank} {b : Fin n} (idle : w.held r b = none)
      (more : w.taken r < g.items) :
    Step w ⟨fun r' => if r' = r then w.taken r + 1 else w.taken r',
    w.hold r b (some (w.taken r)), w.done⟩
  | finish {w : Blocks n} {r : Rank} {b : Fin n} {i : Nat} (held : w.held r b = some i)
      (ready : w.Ready g r i) :
    Step w ⟨w.taken, w.hold r b none, fun r' k => w.done r' k ∨ r' = r ∧ k = i⟩

/-- A taken item is done or held. -/
structure Blocks.Inv (w : Blocks n) : Prop where
  taken_cases : ∀ r, ∀ i < w.taken r, w.done r i ∨ ∃ b, w.held r b = some i
  held_taken : ∀ r b i, w.held r b = some i → i < w.taken r ∧ i < g.items

variable {g} {w w' : Blocks n}

theorem Blocks.inv_init : (Blocks.init n).Inv g where
  taken_cases := fun _ _ hi => absurd hi (Nat.not_lt_zero _)
  held_taken := fun _ _ _ h => nomatch h

/-- Both steps keep the invariant. -/
theorem Blocks.inv_step (h : w.Inv g) (hstep : Blocks.Step g w w') : w'.Inv g := by
  cases hstep with
  | @take r b idle more =>
    constructor
    · intro r' i (hi : i < if r' = r then w.taken r + 1 else w.taken r')
      have hold : ∀ b', w.held r' b' = some i → w.hold r b (some (w.taken r)) r' b' = some i := by
        intro b' hb'
        refine (if_neg ?_).trans hb'
        rintro ⟨rfl, rfl⟩
        rw [idle] at hb'
        cases hb'
      split_ifs at hi with hr
      · subst hr
        rcases Nat.lt_succ_iff_lt_or_eq.mp hi with hlt | rfl
        · exact (h.taken_cases r' i hlt).imp_right fun ⟨b', hb'⟩ => ⟨b', hold b' hb'⟩
        · exact Or.inr ⟨b, if_pos ⟨rfl, rfl⟩⟩
      · exact (h.taken_cases r' i hi).imp_right fun ⟨b', hb'⟩ => ⟨b', hold b' hb'⟩
    · intro r' b' i (hheld : (if r' = r ∧ b' = b then some (w.taken r) else w.held r' b') = some i)
      change (i < if r' = r then w.taken r + 1 else w.taken r') ∧ i < g.items
      split_ifs at hheld with hrb
      · cases hheld
        rw [if_pos hrb.1]
        exact ⟨Nat.lt_succ_self _, more⟩
      · obtain ⟨hlt, hin⟩ := h.held_taken r' b' i hheld
        refine ⟨?_, hin⟩
        split_ifs with hr
        · exact Nat.lt_succ_of_lt (hr ▸ hlt)
        · exact hlt
  | @finish r b i held ready =>
    constructor
    · intro r' k hk
      rcases h.taken_cases r' k hk with hdone | ⟨b', hb'⟩
      · exact Or.inl (Or.inl hdone)
      · by_cases hrb : r' = r ∧ b' = b
        · obtain ⟨rfl, rfl⟩ := hrb
          exact Or.inl (Or.inr ⟨rfl, Option.some.inj (hb'.symm.trans held)⟩)
        · exact Or.inr ⟨b', (if_neg hrb).trans hb'⟩
    · intro r' b' k (hheld : (if r' = r ∧ b' = b then none else w.held r' b') = some k)
      split_ifs at hheld
      exact h.held_taken r' b' k hheld

theorem Blocks.inv_reachable (h : Relation.ReflTransGen (Blocks.Step g) (Blocks.init n) w) :
    w.Inv g := by
  induction h with
  | refl => exact Blocks.inv_init
  | tail _ hstep ih => exact Blocks.inv_step ih hstep

/-- **Some block goes on** until every item is done: the first item that is not done waits for
nothing. -/
theorem Blocks.exists_step (hn : 0 < n) (h : w.Inv g) (hleft : ∃ r, ∃ i < g.items, ¬ w.done r i) :
    ∃ w', Blocks.Step g w w' := by
  classical
  have hex : ∃ i, i < g.items ∧ ∃ r, ¬ w.done r i := by
    obtain ⟨r, i, hi, hnot⟩ := hleft
    exact ⟨i, hi, r, hnot⟩
  obtain ⟨hi, r, hnot⟩ := Nat.find_spec hex
  have hbefore : ∀ k < Nat.find hex, k < g.items → ∀ r', w.done r' k := fun k hk hin r' =>
    not_not.mp fun hnot' => Nat.find_min hex hk ⟨hin, r', hnot'⟩
  -- whatever is held up to there can be finished
  have hfinish : ∀ b j, w.held r b = some j → j ≤ Nat.find hex → ∃ w', Blocks.Step g w w' := by
    intro b j hb hle
    have hj := (h.held_taken r b j hb).2
    refine ⟨_, .finish hb fun it hit p hp k hk it' hit' hdir hidx => hbefore k ?_ hk _⟩
    exact (stager_lt hj hit hp hk hit' hdir hidx).trans_le hle
  by_cases htaken : Nat.find hex < w.taken r
  · obtain hdone | ⟨b, hb⟩ := h.taken_cases r _ htaken
    · exact absurd hdone hnot
    · exact hfinish b _ hb le_rfl
  · cases hb : w.held r ⟨0, hn⟩ with
    | none => exact ⟨_, .take hb (by omega)⟩
    | some j =>
      have hj := (h.held_taken r _ j hb).1
      exact hfinish _ j hb (by omega)

end Blocks

/-! ## The kernel's words -/

/-- A stream of `Streams`. -/
structure Stream32 where
  kind : ItemKind
  start : UInt32
  count : UInt32

section Kernel

/-- `make_streams`. -/
def makeStreams (kind : Kind) (g : Geo) : List Stream32 :=
  match kind with
  | .rs =>
    [⟨.stageF, 0, g.steps .fwd⟩, ⟨.stageB, 0, g.steps .bwd⟩, ⟨.outB, g.nb + 1, g.nb⟩,
      ⟨.outA, 2 * g.na + g.nb + 1, g.na⟩]
  | .ag =>
    [⟨.stageF, 0, g.nc⟩, ⟨.stageB, 0, g.nc⟩, ⟨.outPrev, 1, g.nc⟩, ⟨.outNext, 1, g.nc⟩,
      ⟨.outFarF, g.nc + 1, g.nh⟩, ⟨.outFarB, g.nc + 1, g.nc - g.nh⟩]

/-- `items_before`. -/
def itemsBefore32 (S : List Stream32) (t : UInt32) : UInt32 :=
  S.foldl (fun n st => if t > st.start then
    n + (if t - st.start < st.count then t - st.start else st.count) else n) 0

/-- The end of the last stream. -/
def lastStep32 (S : List Stream32) : UInt32 :=
  S.foldl (fun hi st => if st.start + st.count > hi then st.start + st.count else hi) 0

/-- The binary search of `item_at`. -/
def search32 (S : List Stream32) (i : UInt32) : Nat → UInt32 → UInt32 → UInt32
  | 0, lo, _ => lo
  | fuel + 1, lo, hi =>
    if hi - lo > 1 then
      let mid := (lo + hi) / 2
      if itemsBefore32 S mid ≤ i then search32 S i fuel mid hi else search32 S i fuel lo mid
    else lo

/-- Its scan of the streams. -/
def pick32 (lo : UInt32) : List Stream32 → UInt32 → Option (ItemKind × UInt32 × UInt32)
  | [], _ => none
  | st :: S, r =>
    if st.start ≤ lo ∧ lo < st.start + st.count then
      if r = 0 then some (st.kind, lo - st.start, lo) else pick32 lo S (r - 1)
    else pick32 lo S r

/-- `item_at`: the kind, the index in the stream and the step. -/
def itemAt32 (S : List Stream32) (i : UInt32) : Option (ItemKind × UInt32 × UInt32) :=
  let lo := search32 S i (lastStep32 S).toNat 0 (lastStep32 S)
  pick32 lo S (i - itemsBefore32 S lo)

/-- The words of a stream are its numbers, and its end fits one. -/
structure Stream32.Computes (w : Stream32) (st : Stream ItemKind) : Prop where
  kind : w.kind = st.kind
  start : w.start.toNat = st.start
  count : w.count.toNat = st.count
  fits : st.start + st.count < 2 ^ 31

variable {S : List Stream32} {sts : List (Stream ItemKind)}

theorem itemsBefore32_eq (h : List.Forall₂ Stream32.Computes S sts)
    (hsum : (sts.map (·.count)).sum < 2 ^ 32) (t : UInt32) :
    (itemsBefore32 S t).toNat = itemsBefore sts t.toNat := by
  -- the sum of the streams behind, from any sum of those in front
  have hfold : ∀ n : UInt32, n.toNat + (sts.map (·.count)).sum < 2 ^ 32 →
      (S.foldl (fun n st => if t > st.start then
      n + (if t - st.start < st.count then t - st.start else st.count) else n) n).toNat =
        n.toNat + itemsBefore sts t.toNat := by
    clear hsum
    induction h with
    | nil => exact fun n _ => rfl
    | @cons w st S sts hw _ ih =>
      intro n hn
      rw [List.map_cons, List.sum_cons] at hn
      have hcount := hw.count
      have hstart := hw.start
      have hbefore : itemsBefore (st :: sts) t.toNat =
        min (t.toNat - st.start) st.count + itemsBefore sts t.toNat := by
        unfold itemsBefore
        rw [List.map_cons, List.sum_cons]
      rw [List.foldl_cons, hbefore]
      have hnext : (if t > w.start then n + (if t - w.start < w.count then t - w.start else w.count)
        else n).toNat = n.toNat + min (t.toNat - st.start) st.count := by
        split_ifs with hgt hlt
        · have hle : w.start.toNat ≤ t.toNat := (UInt32.lt_iff_toNat_lt.mp hgt).le
          have hsub := sub32 (a := t) (b := w.start) rfl hstart (by omega)
          rw [UInt32.lt_iff_toNat_lt, hsub, hcount] at hlt
          rw [add32 rfl hsub (by omega), Nat.min_eq_left hlt.le]
        · have hle : w.start.toNat ≤ t.toNat := (UInt32.lt_iff_toNat_lt.mp hgt).le
          have hsub := sub32 (a := t) (b := w.start) rfl hstart (by omega)
          rw [UInt32.lt_iff_toNat_lt, hsub, hcount] at hlt
          rw [add32 rfl hcount (by omega), Nat.min_eq_right (by omega)]
        · have hle : t.toNat ≤ w.start.toNat := by
            rw [gt_iff_lt, UInt32.lt_iff_toNat_lt] at hgt
            omega
          rw [Nat.sub_eq_zero_of_le (by omega), Nat.zero_min, Nat.add_zero]
      have hmin : min (t.toNat - st.start) st.count ≤ st.count := min_le_right _ _
      rw [ih _ (by rw [hnext]; omega), hnext, Nat.add_assoc]
  have hzero := hfold 0 (by simpa using hsum)
  rw [UInt32.toNat_zero, Nat.zero_add] at hzero
  exact hzero

theorem lastStep32_eq (h : List.Forall₂ Stream32.Computes S sts) :
    (lastStep32 S).toNat = lastStep sts := by
  have hfold : ∀ n : UInt32,
      (S.foldl (fun hi st => if st.start + st.count > hi then st.start + st.count else hi)
      n).toNat = max n.toNat (lastStep sts) := by
    induction h with
    | nil => exact fun n => (Nat.max_zero _).symm
    | @cons w st S sts hw _ ih =>
      intro n
      have hend := add32 hw.start hw.count (hw.fits.trans (by norm_num))
      have hlast : lastStep (st :: sts) = max (st.start + st.count) (lastStep sts) := rfl
      rw [List.foldl_cons, ih, hlast, ← Nat.max_assoc]
      congr 1
      split_ifs with hgt
      · rw [gt_iff_lt, UInt32.lt_iff_toNat_lt, hend] at hgt
        rw [hend, Nat.max_eq_right hgt.le]
      · rw [gt_iff_lt, UInt32.lt_iff_toNat_lt, hend] at hgt
        rw [Nat.max_eq_left (by omega)]
  have hzero := hfold 0
  rw [UInt32.toNat_zero, Nat.zero_max] at hzero
  exact hzero

theorem lastStep_lt (h : List.Forall₂ Stream32.Computes S sts) : lastStep sts < 2 ^ 31 := by
  induction h with
  | nil => exact Nat.two_pow_pos 31
  | cons hw _ ih => exact Nat.max_lt.mpr ⟨hw.fits, ih⟩

theorem search32_eq (h : List.Forall₂ Stream32.Computes S sts)
    (hsum : (sts.map (·.count)).sum < 2 ^ 32) (i : UInt32) :
    ∀ (fuel : Nat) (lo hi : UInt32), lo ≤ hi → hi.toNat < 2 ^ 31 →
      (search32 S i fuel lo hi).toNat = search sts i.toNat fuel lo.toNat hi.toNat
  | 0, _, _, _, _ => rfl
  | fuel + 1, lo, hi, hle, hhi => by
    have hle' := UInt32.le_iff_toNat_le.mp hle
    have hsub := sub32 (a := hi) (b := lo) rfl rfl hle'
    have hone : (1 : UInt32).toNat = 1 := rfl
    have htwo : (2 : UInt32).toNat = 2 := rfl
    have hmid := div32 (add32 (a := lo) (b := hi) rfl rfl (by omega)) htwo
    have hcmp : itemsBefore32 S ((lo + hi) / 2) ≤ i ↔
      itemsBefore sts ((lo.toNat + hi.toNat) / 2) ≤ i.toNat := by
      rw [UInt32.le_iff_toNat_le, itemsBefore32_eq h hsum, hmid]
    unfold search32 search
    simp only [gt_iff_lt, UInt32.lt_iff_toNat_lt, hsub, hone, hcmp]
    split_ifs with hmore hle''
    · rw [search32_eq h hsum i fuel _ _ (by rw [UInt32.le_iff_toNat_le, hmid]; omega) hhi, hmid]
    · rw [search32_eq h hsum i fuel _ _ (by rw [UInt32.le_iff_toNat_le, hmid]; omega)
        (by rw [hmid]; omega), hmid]
    · rfl

/-- An item of the kernel, with numbers for its words. -/
def item32 (it : ItemKind × UInt32 × UInt32) : Item ItemKind := ⟨it.1, it.2.1.toNat, it.2.2.toNat⟩

theorem pick32_eq (h : List.Forall₂ Stream32.Computes S sts) (lo r : UInt32) :
    (pick32 lo S r).map item32 = pick lo.toNat sts r.toNat := by
  induction h generalizing r with
  | nil => rfl
  | @cons w st S sts hw _ ih =>
    have hend := add32 hw.start hw.count (hw.fits.trans (by norm_num))
    have hin : (w.start ≤ lo ∧ lo < w.start + w.count) ↔ st.start ≤ lo.toNat ∧
      lo.toNat < st.start + st.count := by
      rw [UInt32.le_iff_toNat_le, UInt32.lt_iff_toNat_lt, hw.start, hend]
    have hzero : r = 0 ↔ r.toNat = 0 := by
      rw [← UInt32.toNat_inj, UInt32.toNat_zero]
    unfold pick32 pick
    simp only [hin, hzero]
    split_ifs with hissues hfirst
    · have hsub := sub32 (a := lo) (b := w.start) rfl hw.start hissues.1
      rw [Option.map_some]
      unfold item32
      rw [hw.kind, hsub]
    · rw [ih, sub32 rfl rfl (by rw [show (1 : UInt32).toNat = 1 from rfl]; omega),
        show (1 : UInt32).toNat = 1 from rfl]
    · exact ih r

/-- **The kernel finds the item of the merged list.** -/
theorem itemAt32_computes (h : List.Forall₂ Stream32.Computes S sts)
    (hsum : (sts.map (·.count)).sum < 2 ^ 32) {i : UInt32}
    (hi : i.toNat < (sts.map (·.count)).sum) :
      (itemAt32 S i).map item32 = Merge.itemAt sts i.toNat := by
  have hlast := lastStep32_eq h
  have hlo := search32_eq h hsum i (lastStep32 S).toNat 0 (lastStep32 S) UInt32.zero_le
    (by rw [hlast]; exact lastStep_lt h)
  rw [hlast, UInt32.toNat_zero] at hlo
  have hbefore := itemsBefore32_eq h hsum (search32 S i (lastStep32 S).toNat 0 (lastStep32 S))
  rw [hlast, hlo] at hbefore
  have hpos : 0 < lastStep sts := by
    by_contra hzero
    have hall : itemsBefore sts (lastStep sts) = _ := itemsBefore_lastStep
    rw [Nat.eq_zero_of_not_pos hzero, itemsBefore_zero] at hall
    omega
  have hle : itemsBefore sts (search sts i.toNat (lastStep sts) 0 (lastStep sts)) ≤ i.toNat :=
    (search_spec (lastStep sts) (by omega) hpos (by rw [itemsBefore_zero]; omega)
      (by rw [itemsBefore_lastStep]; exact hi)).1
  unfold itemAt32 Merge.itemAt
  dsimp only
  rw [pick32_eq h, hlast, hlo, sub32 rfl hbefore hle]

/-- The chunks of a call that fits a layout are far below the range of a word. -/
theorem nc_le_words {l : Layout} {kind : Kind} {rows : Nat} {g : Geometry}
    (hrows : rows ≤ l.maxRows)
    (hg : geometry kind rows l.crMax = some g) : g.nc ≤ 2 ^ 15 :=
  (Call.mk g 0 (fun _ => 0) ⟨kind, rows, hrows, hg⟩ : Call l).nc_le_max.trans l.parts_le.1

/-- **The kernel's streams** are those of the geometry, for every call that fits a layout. -/
theorem makeStreams_computes {l : Layout} {kind : Kind} {rows : Nat} {g : Geometry}
    (hrows : rows ≤ l.maxRows)
    (hg : geometry kind rows l.crMax = some g) :
    List.Forall₂ Stream32.Computes (makeStreams kind (geoMake kind (.ofNat rows) (.ofNat l.crMax)))
      (streams g) := by
  have hgeo := geoMake_computes hrows hg
  have hkind : g.kind = kind := by
    unfold geometry at hg
    split_ifs at hg
    cases hg
    rfl
  have hnc := nc_le_words hrows hg
  have hna := g.na_eq
  have hnh := g.nh_eq
  generalize geoMake kind (.ofNat rows) (.ofNat l.crMax) = w at hgeo ⊢
  have hone : (1 : UInt32).toNat = 1 := rfl
  have htwo : (2 : UInt32).toNat = 2 := rfl
  have hzero : (0 : UInt32).toNat = 0 := rfl
  have hfwd := hgeo.steps .fwd
  have hbwd := hgeo.steps .bwd
  have hnb : g.nb = g.nc - g.na := rfl
  unfold makeStreams streams
  rw [hkind]
  cases kind with
  | rs =>
    simp only [Geometry.steps, hkind] at hfwd hbwd
    have houtA := add32 (add32 (mul32 htwo hgeo.na (by omega)) hgeo.nb (by omega)) hone (by omega)
    refine .cons ⟨rfl, hzero, ?_, ?_⟩ (.cons ⟨rfl, hzero, ?_, ?_⟩
      (.cons ⟨rfl, add32 hgeo.nb hone (by omega), hgeo.nb, ?_⟩
      (.cons ⟨rfl, houtA, hgeo.na, ?_⟩ .nil)))
    · exact hgeo.steps .fwd
    · simp only [Geometry.steps, hkind]
      omega
    · exact hgeo.steps .bwd
    · simp only [Geometry.steps, hkind]
      omega
    all_goals
      dsimp only
      omega
  | ag =>
    have hfar := add32 hgeo.nc hone (by omega)
    have hleft := sub32 hgeo.nc hgeo.nh (by omega)
    refine .cons ⟨rfl, hzero, hgeo.nc, ?_⟩ (.cons ⟨rfl, hzero, hgeo.nc, ?_⟩
      (.cons ⟨rfl, hone, hgeo.nc, ?_⟩
      (.cons ⟨rfl, hone, hgeo.nc, ?_⟩ (.cons ⟨rfl, hfar, hgeo.nh, ?_⟩
        (.cons ⟨rfl, hfar, hleft, ?_⟩ .nil)))))
    all_goals
      dsimp only
      omega

theorem itemAt32_eq {l : Layout} {kind : Kind} {rows : Nat} {g : Geometry}
    (hrows : rows ≤ l.maxRows)
    (hg : geometry kind rows l.crMax = some g) {i : UInt32} (hi : i.toNat < g.items) :
    (itemAt32 (makeStreams kind (geoMake kind (.ofNat rows) (.ofNat l.crMax))) i).map item32 =
      itemAt g i.toNat := by
  have hnc := nc_le_words hrows hg
  have hitems : g.items ≤ 5 * g.nc := by
    unfold Geometry.items
    split <;> omega
  rw [← streams_count] at hi hitems
  exact itemAt32_computes (makeStreams_computes hrows hg) (by omega) hi

end Kernel

/-- **The work order of a call.** For every geometry, the indices below the total are the items of
its streams, each once and by step; an item consumes what was sent at an earlier step and staged by
an item before it, so that the blocks of the ranks, however many, finish every item; and the
kernel's words find the same items. -/
theorem work_order (g : Geometry) :
    (∀ st ∈ streams g, ∀ j < st.count, ∃! i, i < g.items ∧
    itemAt g i = some ⟨st.kind, j, st.start + j⟩) ∧
    (∀ i < g.items, ∃ st ∈ streams g, ∃ j < st.count,
    itemAt g i = some ⟨st.kind, j, st.start + j⟩) ∧
    (∀ i i' it it', i ≤ i' → i' < g.items → itemAt g i = some it → itemAt g i' = some it' →
    it.step ≤ it'.step) ∧
    (∀ i < g.items, ∀ it, itemAt g i = some it → ∀ d s, (d, s) ∈ itemDeps g it.kind it.index →
      s < it.step ∧ s < g.steps d ∧ ∀ r, ∃ k < i, ∃ it', itemAt g k = some it' ∧
      stageDir it'.kind = some d ∧ it'.index = (stagedBy g r d s).2) ∧
    (∀ n w, Relation.ReflTransGen (Blocks.Step g) (Blocks.init n) w → 0 < n →
      (∃ r, ∃ i < g.items, ¬ w.done r i) →
      ∃ w', Blocks.Step g w w') ∧
    ∀ (l : Layout) kind rows, rows ≤ l.maxRows → geometry kind rows l.crMax = some g → ∀ i :
      UInt32, i.toNat < g.items →
      (itemAt32 (makeStreams kind (geoMake kind (.ofNat rows) (.ofNat l.crMax))) i).map item32 =
      itemAt g i.toNat := by
  refine ⟨fun st hst j hj => exists_unique_item hst hj, ?_, fun i i' it it' h hi =>
    item_step_mono h hi, ?_, ?_, ?_⟩
  · intro i hi
    obtain ⟨it, st, hit, hst, hkind, hidx, hstep⟩ := itemAt_spec hi
    exact ⟨st, hst, it.index, hidx, by rw [hit, ← hkind, ← hstep]⟩
  · intro i hi it hit d s hd
    exact ⟨(item_dep_lt hi hit hd).1, (item_dep_lt hi hit hd).2, exists_stager hi hit hd⟩
  · exact fun n w hw hn hleft => Blocks.exists_step hn (Blocks.inv_reachable hw) hleft
  · exact fun l kind rows hrows hg i hi => itemAt32_eq hrows hg hi

end Ringside.PrefillRing

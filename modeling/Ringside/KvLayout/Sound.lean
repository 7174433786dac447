import Ringside.KvLayout.Stage
import Ringside.SharedPool

/-!
# The shared layout is sound

On every stage of the pipeline the tensors of the layout are cells of a shared pool: layers of one
group use distinct slots, and layers that share a slot never use the same block at the same time.
The pool, with its cells and what keeps them apart, is the library's (`SharedPool`).

* A block belongs to one group at a time: that is how the engine's block pool allocates. What has to
  be shown is that inside a block the layers of a group do not overlap, and that every layer's
  content fits.
* `Tensor.block` are the bytes of a layer's block, `Config.cells` those that the layer uses.
* `Sound` is what a layout has to be; it is stated by names, specs and bytes, not by slots.
* The layers come in increasing layer order, as the model lists them; the grouping deals Mamba
  layers by position.

Results:
* `row_length`, `row_page`: the layers of every group fit into the slots of their bank.
* `sound_of_staged`: the config of a stage is sound.
* `layout_sound`: so it is on every stage, for every list of specs that the grouping accepts: every
  layer has one tensor, every block lies inside the allocation and is as large as the layer's page,
  and no layer overwrites another group's live block.
-/

namespace Ringside.KvLayout

open Columns SharedPool

variable {N A : Type} [DecidableEq N] {e : Engine N A}

/-! ## Layers and their slots -/

section Rows

variable {l : LayerSpecs N A} {groups groups' : List (Group N A)} {G : Grouped e l groups}
    {worker : N → Bool}
  {L : Layout N A} {found : Found N A}

theorem Shape.attn_eq (s : Shape groups') (h : Recognised e groups' L found) :
    L.attn = s.attn.toUniform :=
  Option.some.inj (h.attn_eq.symm.trans (congrArg Found.attn (s.found_eq h)))

/-- The rows of the attention group are the layers of the layout. -/
theorem Shape.attn_row (s : Shape groups') (h : Recognised e groups' L found) (b : Bank) :
    (s.attn.row b).length = L.slots b := by
  cases b with
  | mla => rw [Layout.slots, h.mla_names, s.attn_eq h, (row_attn s.attn_uniform).1, List.length_map]
  | indexer =>
    rw [Layout.slots, h.idx_names, s.attn_eq h, (row_attn s.attn_uniform).2, List.length_map]

/-- Membership in the groups of a stage. -/
theorem Shape.mem_cases (s : Shape groups') {g : Group N A} (hg : g ∈ groups') :
    g = s.attn ∨ s.tail = some g ∨ g ∈ s.mambas ∨ s.drafter = some g := by
  rw [s.groups_eq] at hg
  simpa only [List.mem_cons, List.mem_append, Option.mem_toList, Option.mem_def] using hg

theorem Shape.entries_length (s : Shape groups') {g : Group N A} (hg : g ∈ groups') :
    g.entries.length = g.layerNames.length := by
  rw [← s.specced g hg, List.length_map]

/-- **No group has more layers in a bank than the bank has slots.** -/
theorem row_length (s : Staged G worker groups') (h : Recognised e groups' L found)
    (hsorted : (l.entries.map Prod.fst).Pairwise fun m n => e.layerIndex m ≤ e.layerIndex n)
    (hstage : HoldsStage e l worker) (b : Bank) {g : Group N A} (hg : g ∈ groups') :
    (g.row b).length ≤ L.slots b := by
  have hfound := s.found_eq h
  rcases s.mem_cases hg with rfl | ht | hm | hd
  · exact (s.attn_row h b).le
  · cases b with
    | mla =>
      rw [(row_tail (s.tail_uniform g ht)).1]
      exact Nat.zero_le _
    | indexer =>
      have htail := (h.tail g.toUniform (by rw [hfound, ht]; rfl)).2.1
      rw [(row_tail (s.tail_uniform g ht)).2, s.entries_length hg]
      exact htail.le
  · obtain ⟨hspec, k, hand, hhand, hnames⟩ := s.mamba_of g hm
    obtain ⟨spec, hspec', hmamba⟩ := s.mamba_single g hm
    cases b with
    | mla =>
      rw [(row_mamba hspec' hmamba).1, List.length_map, hnames, ← s.attn_row h .mla,
        (row_attn s.attn_uniform).1, ← s.attn_uniform.entries_eq, s.attn_entries]
      refine (mamba_slots G hsorted hstage hhand).trans_eq ?_
      rw [LayerSpecs.mlas, List.filter_filter, List.filter_filter]
      exact congrArg List.length (List.filter_congr fun x _ => Bool.and_comm _ _)
    | indexer =>
      rw [(row_mamba hspec' hmamba).2]
      exact Nat.zero_le _
  · cases b with
    | mla =>
      have hdrafter := (h.drafter g.toUniform (by rw [hfound, hd]; rfl)).1
      rw [(row_drafter (s.drafter_uniform g hd)).1, s.entries_length hg]
      exact hdrafter
    | indexer =>
      rw [(row_drafter (s.drafter_uniform g hd)).2]
      exact Nat.zero_le _

/-- The pages of the grouping are those of the stage. -/
theorem pages_eq (s : Staged G worker groups') (h : Recognised e groups' L found) :
    G.mlaPage = L.mlaPage ∧ G.idxPage = L.idxPage := by
  have hsub : ∀ {isClass : Spec A → Bool} {x : N × Spec A},
    x ∈ L.attn.entries.filter (fun x => isClass x.2) →
      x ∈ L.attn.entries ∧ x ∈ l.attn ∧ isClass x.2 = true := by
    intro isClass x hx
    obtain ⟨hx, hc⟩ := List.mem_filter.mp hx
    refine ⟨hx, ?_, hc⟩
    rw [s.attn_eq h, ← s.attn_uniform.entries_eq, s.attn_entries] at hx
    exact List.mem_of_mem_filter hx
  constructor
  · have hne := h.mla_ne
    rw [h.mla_names, Ne, List.map_eq_nil_iff] at hne
    obtain ⟨x, hx⟩ := List.exists_mem_of_ne_nil _ hne
    obtain ⟨hx, hattn, hc⟩ := hsub hx
    rw [← G.mla_page x (List.mem_filter.mpr ⟨hattn, hc⟩), h.mla_page x hx hc]
  · have hne := h.idx_ne
    rw [h.idx_names, Ne, List.map_eq_nil_iff] at hne
    obtain ⟨x, hx⟩ := List.exists_mem_of_ne_nil _ hne
    obtain ⟨hx, hattn, hc⟩ := hsub hx
    rw [← G.idx_page x (List.mem_filter.mpr ⟨hattn, hc⟩), h.idx_page x hx hc]

omit [DecidableEq N] in
theorem unpadded_le_of_page {s : Spec A} {p : Nat} (hpad : s.pageSizePadded = none)
    (hpage : e.page s = p) :
    e.page s = p ∧ e.unpadded s ≤ p := by
  refine ⟨hpage, ?_⟩
  rw [Engine.page, hpad] at hpage
  exact hpage.le

/-- **A layer's page is the page of its slot, and its content fits.** -/
theorem row_page (s : Staged G worker groups') (h : Recognised e groups' L found) (b : Bank)
    {g : Group N A}
    (hg : g ∈ groups') {x : N × Spec A} (hx : x ∈ g.row b) :
    e.page x.2 = L.slotPage b ∧ e.unpadded x.2 ≤ L.slotPage b := by
  have hfound := s.found_eq h
  rcases s.mem_cases hg with rfl | ht | hm | hd
  · have hspec : ∀ {y}, y ∈ s.attn.toUniform.entries → y.2.pageSizePadded = none := by
      intro y hy
      exact (h.attention y (Uniform.mem_specs (s.attn_eq h ▸ hy))).2
    cases b with
    | mla =>
      rw [(row_attn s.attn_uniform).1] at hx
      obtain ⟨hx, hc⟩ := List.mem_filter.mp hx
      exact unpadded_le_of_page (hspec hx) (h.mla_page x (s.attn_eq h ▸ hx) hc)
    | indexer =>
      rw [(row_attn s.attn_uniform).2] at hx
      obtain ⟨hx, hc⟩ := List.mem_filter.mp hx
      exact unpadded_le_of_page (hspec hx) (h.idx_page x (s.attn_eq h ▸ hx) hc)
  · cases b with
    | mla =>
      rw [(row_tail (s.tail_uniform g ht)).1] at hx
      cases hx
    | indexer =>
      rw [(row_tail (s.tail_uniform g ht)).2] at hx
      have hfits := (h.tail g.toUniform (by rw [hfound, ht]; rfl)).2.2 x
        (Uniform.mem_specs ((s.tail_uniform g ht).entries_eq ▸ hx))
      refine ⟨?_, hfits⟩
      rw [s.tail_entries g ht] at hx
      obtain ⟨y, -, rfl⟩ := List.mem_map.mp (List.mem_of_mem_filter hx)
      exact (pages_eq s h).2
  · obtain ⟨hspec, -⟩ := s.mamba_of g hm
    obtain ⟨spec, hspec', hmamba⟩ := s.mamba_single g hm
    cases b with
    | mla =>
      rw [(row_mamba hspec' hmamba).1] at hx
      obtain ⟨n, -, rfl⟩ := List.mem_map.mp hx
      rw [hspec] at hspec'
      obtain rfl := GroupSpec.single.inj hspec'
      exact ⟨(pages_eq s h).1, G.mamba_fits.trans_eq (pages_eq s h).1⟩
    | indexer =>
      rw [(row_mamba hspec' hmamba).2] at hx
      cases hx
  · cases b with
    | mla =>
      rw [(row_drafter (s.drafter_uniform g hd)).1] at hx
      obtain ⟨hpad, hpage, -⟩ := (h.drafter g.toUniform (by rw [hfound, hd]; rfl)).2 x
        (Uniform.mem_specs ((s.drafter_uniform g hd).entries_eq ▸ hx))
      exact unpadded_le_of_page hpad hpage
    | indexer =>
      rw [(row_drafter (s.drafter_uniform g hd)).2] at hx
      cases hx

end Rows

/-! ## Tensors as cells

An allocation of blocks, each a row of slots, is a table of cells. A tensor is a column of cells
with the strides that the source gives it, so that two tensors overlap only in one slot.
-/

/-- The bytes of block `b` of the layer of a tensor. -/
def Tensor.block (t : Tensor N) (b : Nat) : Set Nat :=
  Set.Ico (t.offset + b * t.blockStride) (t.offset + (b + 1) * t.blockStride)

/-- The slots of both banks in one row, with their widths. -/
def Layout.width (L : Layout N A) (i : Nat) : Nat := if i < L.mlaNames.length then L.mlaPage
    else L.idxPage

def Layout.index (L : Layout N A) : Bank → Nat → Nat
  | .mla, i => i
  | .indexer, j => L.mlaNames.length + j

section Cells

variable {L : Layout N A} {groups : List (Group N A)} {size n : Nat} {b b' : Bank} {i i' : Nat}

omit [DecidableEq N] in
theorem index_inj (hi : i < L.slots b) (hi' : i' < L.slots b') (h : L.index b i = L.index b' i') :
    b = b' ∧ i = i' := by
  cases b <;> cases b' <;> simp only [Layout.index, Layout.slots] at h hi hi' <;>
    first
    | exact ⟨rfl, by omega⟩
    | omega

omit [DecidableEq N] in
theorem width_index (hi : i < L.slots b) : L.width (L.index b i) = L.slotPage b := by
  cases b with
  | mla => exact if_pos hi
  | indexer => exact if_neg (by simp [Layout.index])

omit [DecidableEq N] in
theorem slotStart_mla (hi : i ≤ L.mlaNames.length) :
    slotStart L.width n i = i * (n * L.mlaPage) := by
  have h := slotStart_add_of_eq L.width n L.mlaPage 0 i fun j _ hj => if_pos (by omega)
  rw [Nat.zero_add] at h
  rw [h]
  exact Nat.zero_add _

omit [DecidableEq N] in
theorem slotStart_indexer (j : Nat) : slotStart L.width n (L.mlaNames.length + j) =
    L.mlaNames.length * (n * L.mlaPage) + j * (n * L.idxPage) := by
  rw [slotStart_add_of_eq L.width n L.idxPage _ j fun i hi _ => if_neg (by omega),
    slotStart_mla (le_refl _)]

omit [DecidableEq N] in
/-- A slot of a bank begins where its slot in the row begins. -/
theorem slotOffset_eq (hi : i < L.slots b) : L.slotOffset n b i = slotStart L.width n
    (L.index b i) := by
  cases b with
  | mla =>
    rw [Layout.index, slotStart_mla (le_of_lt hi), Layout.slotOffset]
    ring
  | indexer =>
    rw [Layout.index, slotStart_indexer, Layout.slotOffset]
    ring

omit [DecidableEq N] in
/-- The row of slots is the allocation. -/
theorem slotStart_all : slotStart L.width n (L.mlaNames.length + L.idxNames.length) =
    L.bytesPerBlock * n := by
  rw [slotStart_indexer, Layout.bytesPerBlock]
  ring

/-- A tensor of a bank: the layer of a group at a slot. -/
theorem mem_bank {t : Tensor N} : t ∈ e.bank L groups size n b ↔ ∃ i < L.slots b, ∃ g ∈ groups, ∃ x,
    (g.row b)[i]? = some x ∧ e.addTensor size n (L.slotOffset n b i) x.1 x.2 = t := by
  unfold Engine.bank Engine.column
  simp only [List.mem_flatMap, List.mem_range, List.mem_filterMap, Option.map_eq_some_iff]

omit [DecidableEq N] in
/-- Its blocks are the cells of that slot. -/
theorem block_eq_cell {x : N × Spec A} (hi : i < L.slots b)
    (hpage : e.page x.2 = L.slotPage b) (c : Nat) :
    (e.addTensor size n (L.slotOffset n b i) x.1 x.2).block c = cell L.width n (L.index b i) c := by
  unfold Tensor.block cell Engine.addTensor
  dsimp only
  rw [hpage, width_index hi, slotOffset_eq hi]

/-- The layers of a slot. -/
theorem column_layers : (e.column L groups size n b i).flatMap Tensor.layers =
    ((groups.map (Group.row b)).filterMap fun row => row[i]?).map Prod.fst := by
  unfold Engine.column
  induction groups with
  | nil => rfl
  | cons g groups ih =>
    rw [List.map_cons, List.filterMap_cons, List.filterMap_cons]
    cases (g.row b)[i]? with
    | none => exact ih
    | some x =>
      simp only [Option.map_some, List.flatMap_cons, List.map_cons, ih]
      rfl

/-- The layers of a bank, slot by slot, are those of the rows. -/
theorem bank_layers (hrow : ∀ g ∈ groups, (g.row b).length ≤ L.slots b) :
    ((e.bank L groups size n b).flatMap Tensor.layers).Perm (groups.flatMap fun g =>
    (g.row b).map Prod.fst) := by
  have hcolumns : (e.bank L groups size n b).flatMap Tensor.layers =
      ((List.range (L.slots b)).flatMap fun i =>
      (groups.map (Group.row b)).filterMap fun row => row[i]?).map
        Prod.fst := by
    rw [Engine.bank, List.flatMap_assoc, List.map_flatMap]
    exact List.flatMap_congr fun i _ => column_layers
  rw [hcolumns]
  refine ((columns_perm fun row hr => ?_).map Prod.fst).trans ?_
  · obtain ⟨g, hg, rfl⟩ := List.mem_map.mp hr
    exact hrow g hg
  · rw [List.map_flatten, List.map_map, List.flatMap_def]
    rfl

end Cells

/-! ## The layout is sound

What shares a slot are layers of different groups, and a block belongs to one group at a time. So
the bytes that a layer uses of a block are its own while its group has the block.
-/

/-- The bytes that a layer uses of a block. -/
def Config.cells (c : Config N A) (n : N) (b : Fin c.numBlocks) : Set Nat :=
  {a | ∃ t ∈ c.tensors, n ∈ t.layers ∧ a ∈ t.block b}

/-- The group of a layer, by its position. -/
def groupOf (groups : List (Group N A)) (n : N) : Nat := groups.findIdx fun g =>
    decide (n ∈ g.layerNames)

/-- What a layout of the groups has to be, for an allocation of `bytesPerBlock` bytes a block. -/
structure Sound (e : Engine N A) (bytesPerBlock : Nat) (groups : List (Group N A))
    (override : Option Nat)
    (available : Nat) (c : Config N A) : Prop where
  /-- Every layer of every group has exactly one tensor. -/
  once : ∀ g ∈ groups, ∀ n ∈ g.layerNames, c.tensors.countP (fun t => decide (n ∈ t.layers)) = 1
  size : ∀ t ∈ c.tensors, t.size = bytesPerBlock * c.numBlocks
  memory : override = none → bytesPerBlock * c.numBlocks ≤ available
  /-- Every block lies inside the allocation. -/
  inside : ∀ t ∈ c.tensors, ∀ b < c.numBlocks, t.block b ⊆ Set.Iio t.size
  /-- A block is as large as the layer's page, padded or not. -/
  page : ∀ t ∈ c.tensors, ∀ g ∈ groups, ∀ x ∈ g.entries, x.1 ∈ t.layers →
    e.unpadded x.2 ≤ t.blockStride ∧ e.page x.2 ≤ t.blockStride
  /-- Blocks share no byte when they differ, or when their layers are two of one group. -/
  disjoint : ∀ t ∈ c.tensors, ∀ t' ∈ c.tensors, ∀ n ∈ t.layers, ∀ n' ∈ t'.layers, ∀ b < c.numBlocks,
    ∀ b' < c.numBlocks, (b ≠ b' ∨ (n ≠ n' ∧ ∃ g ∈ groups, n ∈ g.layerNames ∧ n' ∈ g.layerNames)) →
      Disjoint (t.block b) (t'.block b')
  /-- While a group keeps a block, only the layer itself writes to the bytes that it uses of it. -/
  live : ∀ (Val : Type) (s : Pool (Fin c.numBlocks) Nat Nat Val) (y : N) (b : Fin c.numBlocks)
    (h : List (Event (Fin c.numBlocks) Nat N Nat Val)), (∀ ev ∈ h, Foreign y b ev) →
      s.owner b = some (groupOf groups y) →
        ∀ a ∈ c.cells y b, (Run.run (step (groupOf groups) c.cells) s h).mem a = s.mem a

/-- Counting tensors of one layer each. -/
theorem countP_layers (n : N) : ∀ {ts : List (Tensor N)}, (∀ t ∈ ts, ∃ m, t.layers = [m]) →
    ts.countP (fun t => decide (n ∈ t.layers)) = (ts.flatMap Tensor.layers).count n
  | [], _ => rfl
  | t :: ts, h => by
    obtain ⟨m, hm⟩ := h t List.mem_cons_self
    have ih := countP_layers n fun t ht => h t (List.mem_cons_of_mem _ ht)
    rw [List.countP_cons, List.flatMap_cons, List.count_append, ih, hm, Nat.add_comm]
    congr 1
    by_cases hmn : n = m
    · simp [hmn]
    · simp [hmn, Ne.symm hmn]

/-- Two layers at one position are in one group. -/
theorem groupOf_eq {groups : List (Group N A)} {n n' : N} {g : Group N A} (hg : g ∈ groups)
    (hn : n ∈ g.layerNames)
    (h : groupOf groups n = groupOf groups n') : ∃ g ∈ groups, n ∈ g.layerNames ∧
      n' ∈ g.layerNames := by
  have hlt : groupOf groups n < groups.length :=
    List.findIdx_lt_length_of_exists ⟨g, hg, decide_eq_true hn⟩
  have h₁ := List.findIdx_getElem (w := hlt)
  have hlt' : groupOf groups n' < groups.length := h ▸ hlt
  have h₂ := List.findIdx_getElem (w := hlt')
  refine ⟨groups[groupOf groups n], List.getElem_mem hlt, of_decide_eq_true h₁, ?_⟩
  have heq : groups[groupOf groups n] = groups[groupOf groups n'] := by
    congr 1
  rw [heq]
  exact of_decide_eq_true h₂

section Staged

variable {l : LayerSpecs N A} {groups groups' : List (Group N A)} {G : Grouped e l groups}
    {worker : N → Bool}
  {L : Layout N A} {found : Found N A}

/-- The config of a stage: the tensors of both banks. -/
def Engine.stageConfig (e : Engine N A) (L : Layout N A) (groups : List (Group N A))
    (n : Nat) : Config N A :=
  ⟨n, e.bank L groups (L.bytesPerBlock * n) n .mla ++ e.bank L groups (L.bytesPerBlock * n) n
    .indexer, groups⟩

theorem mem_tensors {n : Nat} {t : Tensor N} : t ∈ (e.stageConfig L groups' n).tensors ↔
    ∃ b, ∃ i < L.slots b, ∃ g ∈ groups', ∃ x, (g.row b)[i]? = some x ∧
      e.addTensor (L.bytesPerBlock * n) n (L.slotOffset n b i) x.1 x.2 = t := by
  simp only [Engine.stageConfig, List.mem_append, mem_bank]
  constructor
  · rintro (h | h)
    · exact ⟨.mla, h⟩
    · exact ⟨.indexer, h⟩
  · rintro ⟨b, h⟩
    cases b with
    | mla => exact Or.inl h
    | indexer => exact Or.inr h

/-- The layers of the tensors are those of the groups, each once. -/
theorem tensors_layers (s : Staged G worker groups') (h : Recognised e groups' L found)
    (hsorted : (l.entries.map Prod.fst).Pairwise fun m n => e.layerIndex m ≤ e.layerIndex n)
    (hstage : HoldsStage e l worker) (n : Nat) :
    ((e.stageConfig L groups' n).tensors.flatMap Tensor.layers).Perm
      (groups'.flatMap Group.layerNames) := by
  have hbank : ∀ b, ((e.bank L groups' (L.bytesPerBlock * n) n b).flatMap Tensor.layers).Perm
      (groups'.flatMap fun g => (g.row b).map Prod.fst) :=
    fun b => bank_layers fun g hg => row_length s h hsorted hstage b hg
  rw [Engine.stageConfig, List.flatMap_append]
  refine ((hbank .mla).append (hbank .indexer)).trans ((List.flatMap_append_perm _ _ _).trans ?_)
  refine List.Perm.flatMap_left _ fun g hg => ?_
  rw [← List.map_append, ← s.specced g hg]
  have hsplit : g.row .indexer = g.entries.filter fun x => !Bank.holds .mla x.2 := by
    refine List.filter_congr fun x _ => ?_
    rw [Bank.holds, Bank.holds, Bool.not_not]
  rw [hsplit]
  exact (List.filter_append_perm (fun x : N × Spec A => Bank.holds .mla x.2) g.entries).map Prod.fst

/-- **The config of a stage is sound.** -/
theorem sound_of_staged (s : Staged G worker groups') (h : Recognised e groups' L found)
    (hsorted : (l.entries.map Prod.fst).Pairwise fun m n => e.layerIndex m ≤ e.layerIndex n)
    (hstage : HoldsStage e l worker) (override : Option Nat) (available : Nat) :
    Sound e L.bytesPerBlock groups' override available
      (e.stageConfig L groups' (override.getD (available / L.bytesPerBlock))) := by
  generalize hn : override.getD (available / L.bytesPerBlock) = n
  have hname : ∀ {g : Group N A} {b : Bank} {i : Nat} {x : N × Spec A}, g ∈ groups' →
    (g.row b)[i]? = some x → x ∈ g.entries ∧ x.1 ∈ g.layerNames := by
    intro g b i x hg hx
    have hmem : x ∈ g.entries := List.mem_of_mem_filter (List.mem_of_getElem? hx)
    exact ⟨hmem, s.specced g hg ▸ List.mem_map_of_mem hmem⟩
  have hcell : ∀ {g : Group N A} {b : Bank} {i : Nat} {x : N × Spec A}, g ∈ groups' →
    i < L.slots b →
      (g.row b)[i]? = some x → ∀ c, (e.addTensor (L.bytesPerBlock * n) n (L.slotOffset n b i) x.1
      x.2).block c = cell L.width n (L.index b i) c :=
    fun hg hi hx => block_eq_cell hi (row_page s h _ hg (List.mem_of_getElem? hx)).1
  have hdisjoint : ∀ t ∈ (e.stageConfig L groups' n).tensors,
    ∀ t' ∈ (e.stageConfig L groups' n).tensors, ∀ m ∈ t.layers, ∀ m' ∈ t'.layers, ∀ c < n, ∀ c' < n,
        (c ≠ c' ∨ (m ≠ m' ∧ ∃ g ∈ groups', m ∈ g.layerNames ∧ m' ∈ g.layerNames)) →
          Disjoint (t.block c) (t'.block c') := by
    intro t ht t' ht' m hm m' hm' c hc c' hc' hor
    obtain ⟨b, i, hi, g, hg, x, hx, rfl⟩ := mem_tensors.mp ht
    obtain ⟨b', i', hi', g', hg', x', hx', rfl⟩ := mem_tensors.mp ht'
    obtain rfl := List.mem_singleton.mp hm
    obtain rfl := List.mem_singleton.mp hm'
    rw [hcell hg hi hx, hcell hg' hi' hx']
    refine cell_disjoint hc hc' (hor.symm.imp_left ?_)
    -- layers of one group at one slot are one layer
    rintro ⟨hne, g₀, hg₀, hmem, hmem'⟩ hindex
    obtain ⟨rfl, rfl⟩ := index_inj hi hi' hindex
    obtain rfl := group_unique s.nodup hg₀ hg hmem (hname hg hx).2
    obtain rfl := group_unique s.nodup hg₀ hg' hmem' (hname hg' hx').2
    rw [hx] at hx'
    exact hne (congrArg Prod.fst (Option.some.inj hx'))
  refine ⟨?_, ?_, ?_, ?_, ?_, hdisjoint, ?_⟩
  · intro g hg m hm
    have hperm := tensors_layers s h hsorted hstage n
    have hmem : m ∈ groups'.flatMap Group.layerNames := List.mem_flatMap.mpr ⟨g, hg, hm⟩
    rw [countP_layers m, hperm.count_eq, List.count_eq_one_of_mem s.nodup hmem]
    intro t ht
    obtain ⟨b, i, -, g, -, x, -, rfl⟩ := mem_tensors.mp ht
    exact ⟨x.1, rfl⟩
  · intro t ht
    obtain ⟨b, i, -, g, -, x, -, rfl⟩ := mem_tensors.mp ht
    rfl
  · rintro rfl
    obtain rfl := hn
    rw [Nat.mul_comm]
    exact Nat.div_mul_le_self available L.bytesPerBlock
  · intro t ht c hc
    obtain ⟨b, i, hi, g, hg, x, hx, rfl⟩ := mem_tensors.mp ht
    rw [hcell hg hi hx, show (e.addTensor (L.bytesPerBlock * n) n (L.slotOffset n b i)
      x.1 x.2).size =
      L.bytesPerBlock * n from rfl, ← slotStart_all]
    refine cell_subset ?_ hc
    cases b with
    | mla => exact hi.trans_le (Nat.le_add_right _ _)
    | indexer => exact Nat.add_lt_add_left hi _
  · intro t ht g hg y hy hyt
    obtain ⟨b, i, hi, g', hg', x, hx, rfl⟩ := mem_tensors.mp ht
    have hxy : y.1 = x.1 := List.mem_singleton.mp hyt
    obtain ⟨hxe, hxn⟩ := hname hg' hx
    have hyn : y.1 ∈ g.layerNames := s.specced g hg ▸ List.mem_map_of_mem hy
    obtain rfl := group_unique s.nodup hg hg' hyn (hxy ▸ hxn)
    have hnd : (g.entries.map Prod.fst).Nodup := by
      rw [s.specced g hg]
      exact (List.nodup_flatMap.mp s.nodup).1 g hg
    obtain rfl := List.inj_on_of_nodup_map hnd hy hxe hxy
    obtain ⟨hpage, hfits⟩ := row_page s h b hg (List.mem_of_getElem? hx)
    exact ⟨hfits.trans_eq hpage.symm, le_refl _⟩
  · intro Val p y c ev hev hown
    refine kept_run (fun m m' c c' hor => ?_) ev hev hown
    refine Set.disjoint_left.mpr fun a ha ha' => ?_
    obtain ⟨t, ht, hm, hat⟩ := ha
    obtain ⟨t', ht', hm', hat'⟩ := ha'
    refine Set.disjoint_left.mp (hdisjoint t ht t' ht' m hm m' hm' c c.isLt c' c'.isLt ?_) hat hat'
    refine hor.imp (fun hc heq => hc (Fin.ext heq)) fun ⟨hne, hgroup⟩ => ⟨hne, ?_⟩
    obtain ⟨b, i, -, g, hg, x, hx, rfl⟩ := mem_tensors.mp ht
    obtain rfl := List.mem_singleton.mp hm
    exact groupOf_eq hg (hname hg hx).2 hgroup

end Staged

/-- **The KV-cache tensor layout is sound under block sharing**: for every list of specs that the
grouping accepts, in increasing layer order, every stage of the pipeline and every number of blocks;
a config is refused only if a block has no bytes. -/
theorem layout_sound [DecidableEq A] (e : Engine N A) (l : LayerSpecs N A)
    (hsorted : (l.entries.map Prod.fst).Pairwise fun m n => e.layerIndex m ≤ e.layerIndex n)
    {groups groups' : List (Group N A)} (hgroups : e.glm5Groups l = .ok (some groups))
    {worker : N → Bool} (hstage : HoldsStage e l worker)
    (hproject : List.Forall₂ (Projected worker) groups groups') {L : Layout N A}
    (hlayout : e.tensorLayout groups' = some L) (override : Option Nat) (available : Nat) :
    (L.bytesPerBlock = 0 ∧ e.glm5Config override available groups' L = .error "ZeroDivisionError") ∨
      ∃ c, e.glm5Config override available groups' L = .ok c ∧
        Sound e L.bytesPerBlock groups' override available c := by
  obtain ⟨G⟩ := glm5Groups_ok hgroups
  obtain ⟨s⟩ := exists_staged G hproject
  obtain ⟨found, h⟩ := tensorLayout_ok hlayout
  rw [s.glm5Config_eq h]
  by_cases hzero : L.bytesPerBlock = 0
  · exact Or.inl ⟨hzero, if_pos hzero⟩
  · exact Or.inr ⟨_, if_neg hzero, sound_of_staged s h hsorted hstage override available⟩

/-- An engine whose pages are their tokens times the bytes of a token, with one stage. -/
def tinyEngine : Engine Nat Nat where
  bytes kind block field := if kind = .mamba then field else block * field
  uniformBlock specs := specs.head?.map fun x => x.2.blockSize
  layerIndex n := n / 10
  stages := [(0, 4)]

/-- Two KDA layers, one layer with an indexer, its tail and MLA attention, and one drafter layer. -/
def tinyLayers : LayerSpecs Nat Nat where
  entries := [(0, ⟨.mamba, 64, none, 100⟩), (10, ⟨.mamba, 64, none, 100⟩),
    (20, ⟨.mla (Nat.succPNat 3), 64, none, 1⟩),
    (21, ⟨.tail, 4, none, 2⟩), (22, ⟨.mla (Nat.succPNat 0), 64, none, 2⟩),
    (30, ⟨.window 2048, 16, none, 2⟩)]
  names_nodup := by decide

def tinyGroups : List (Group Nat Nat) :=
  [⟨[20, 22], .uniform 64 [(20, ⟨.mla (Nat.succPNat 3), 64, none, 1⟩),
    (22, ⟨.mla (Nat.succPNat 0), 64, none, 2⟩)], false⟩,
    ⟨[21], .uniform 4 [(21, ⟨.tail, 4, some 64, 2⟩)], false⟩,
    ⟨[0], .single ⟨.mamba, 64, some 128, 100⟩, false⟩,
    ⟨[10], .single ⟨.mamba, 64, some 128, 100⟩, false⟩,
    ⟨[30], .uniform 64 [(30, ⟨.window 2048, 64, none, 2⟩)], true⟩]

/-- The tiny model in 1000 bytes: five blocks of 192 bytes. -/
theorem tinyGroups_sound : ∃ L c, tinyEngine.glm5Config none 1000 tinyGroups L = .ok c ∧
    c.numBlocks = 5 ∧
    Sound tinyEngine 192 tinyGroups none 1000 c := by
  have hproject : List.Forall₂ (Projected fun _ => true) tinyGroups tinyGroups := by
    refine List.forall₂_same.mpr fun g _ => ⟨by simp, ?_⟩
    obtain ⟨names, spec, eagle⟩ := g
    cases spec with
    | uniform => exact .uniform (List.Sublist.refl _) fun _ h _ => h
    | single s => exact .single s
  have hstage : HoldsStage tinyEngine tinyLayers fun _ => true := by
    have hone : tinyEngine.stages.length = 1 := rfl
    rw [HoldsStage, if_pos hone]
    exact fun _ _ => rfl
  have hgroups : tinyEngine.glm5Groups tinyLayers = .ok (some tinyGroups) := rfl
  rcases layout_sound tinyEngine tinyLayers (by decide) hgroups hstage hproject rfl none 1000 with
    ⟨hzero, -⟩ | ⟨c, hc, hsound⟩
  · exact absurd hzero (by decide)
  · exact ⟨_, c, hc, congrArg Config.numBlocks (Except.ok.inj (hc.symm.trans rfl)), hsound⟩

end Ringside.KvLayout

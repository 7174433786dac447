import Ringside.KvLayout.Layout

/-!
# The tensors slot by slot

The layers of the groups fall into two banks of slots: the MLA slots, shared with the Mamba and
drafter layers, and the indexer slots, shared with the tails. In each bank a group's layers take the
slots from the first on. The code has two loops and offsets that it adds up; this file gives the
tensors of one slot in closed form.

* `slotOffset` is where a slot begins for `n` blocks: behind the slots before it, each as wide as
  its page times `n`.
* `Engine.column` are the tensors of one slot, `Engine.bank` those of a bank.
* `Shape` is a record of the groups on a stage whose layout is recognised. A stage may lack tails or
  a drafter.

Results:
* `found_eq`: what the loop over the uniform groups finds on a stage.
* `mlaSlot_eq`, `idxSlot_eq`: one turn of either loop places one slot.
* `glm5Config_eq`: the tensors of the config are those of the two banks, slot by slot; the config
  fails only when a block has no bytes.
-/

namespace Ringside.KvLayout

open Checks Columns

variable {N A : Type} [DecidableEq N] (e : Engine N A)

/-! ## Banks -/

inductive Bank where
  | mla | indexer
  deriving DecidableEq

/-- Indexer layers and tails take indexer slots, all others MLA slots. -/
def Bank.holds (b : Bank) (s : Spec A) : Bool :=
  match b with
  | .mla => !(s.isIndexer || s.isTail)
  | .indexer => s.isIndexer || s.isTail

/-- The layers of a group with their specs. -/
def Group.entries (g : Group N A) : List (N × Spec A) :=
  match g.spec with
  | .uniform _ specs => Uniform.entries ⟨g.layerNames, specs⟩
  | .single s => g.layerNames.map (·, s)

/-- The layers of a group in a bank. -/
def Group.row (b : Bank) (g : Group N A) : List (N × Spec A) :=
    g.entries.filter fun x => b.holds x.2

namespace Layout

variable (l : Layout N A)

def slots : Bank → Nat
  | .mla => l.mlaNames.length
  | .indexer => l.idxNames.length

def slotPage : Bank → Nat
  | .mla => l.mlaPage
  | .indexer => l.idxPage

/-- Where a slot begins, for `n` blocks. -/
def slotOffset (n : Nat) : Bank → Nat → Nat
  | .mla, i => i * l.mlaPage * n
  | .indexer, i => l.mlaNames.length * l.mlaPage * n + i * l.idxPage * n

end Layout

/-- The tensors of one slot. -/
def Engine.column (l : Layout N A) (groups : List (Group N A)) (size n : Nat) (b : Bank) (i : Nat) :
    List (Tensor N) :=
  groups.filterMap fun g => (g.row b)[i]?.map fun x =>
    e.addTensor size n (l.slotOffset n b i) x.1 x.2

/-- The tensors of a bank. -/
def Engine.bank (l : Layout N A) (groups : List (Group N A)) (size n : Nat) (b : Bank) :
    List (Tensor N) :=
  (List.range (l.slots b)).flatMap (e.column l groups size n b)

/-! ## The groups of a stage

On a stage there is an attention group, and there may be one of tails, some of Mamba layers and one
of the drafter. The loop of the source recognises them by their specs; an empty group can be taken
for another one, and then has nothing to place.
-/

/-- The names and specs of a uniform group. -/
def Group.toUniform (g : Group N A) : Uniform N A :=
  ⟨g.layerNames, match g.spec with | .uniform _ specs => specs | .single _ => []⟩

/-- A uniform group whose specs are all of a class. -/
def Group.UniformOf (g : Group N A) (isClass : Spec A → Bool) : Prop :=
  ∃ block specs, g.spec = .uniform block specs ∧ ∀ x ∈ specs, isClass x.2 = true

/-- The groups on a pipeline stage: the attention group, the tails, the Mamba groups and the
drafter. -/
structure Shape (groups : List (Group N A)) where
  attn : Group N A
  tail : Option (Group N A)
  mambas : List (Group N A)
  drafter : Option (Group N A)
  groups_eq : groups = attn :: (tail.toList ++ (mambas ++ drafter.toList))
  attn_uniform : attn.UniformOf Spec.isAttention
  tail_uniform : ∀ t, tail = some t → t.UniformOf Spec.isTail
  drafter_uniform : ∀ d, drafter = some d → d.UniformOf Spec.isWindow
  mamba_single : ∀ g ∈ mambas, ∃ s, g.spec = .single s ∧ s.isMamba = true
  /-- Every layer has a spec. -/
  specced : ∀ g ∈ groups, g.entries.map Prod.fst = g.layerNames
  nodup : (groups.flatMap Group.layerNames).Nodup

section Classes

variable {g : Group N A} {isClass : Spec A → Bool}

omit [DecidableEq N] in
theorem Group.UniformOf.uniform? (h : g.UniformOf isClass) : g.uniform? = some g.toUniform := by
  obtain ⟨block, specs, hspec, -⟩ := h
  simp only [Group.uniform?, Group.toUniform, hspec]

omit [DecidableEq N] in
theorem Group.UniformOf.mamba? (h : g.UniformOf isClass) : g.mamba? = none := by
  obtain ⟨block, specs, hspec, -⟩ := h
  simp only [Group.mamba?, hspec]

omit [DecidableEq N] in
theorem Group.UniformOf.of_mem (h : g.UniformOf isClass) : ∀ x ∈ g.toUniform.specs,
    isClass x.2 = true := by
  obtain ⟨block, specs, hspec, hall⟩ := h
  simpa only [Group.toUniform, hspec] using hall

theorem Group.UniformOf.entries_eq (h : g.UniformOf isClass) : g.entries = g.toUniform.entries := by
  obtain ⟨block, specs, hspec, -⟩ := h
  simp only [Group.entries, Group.toUniform, hspec]

theorem Group.UniformOf.of_mem_entries (h : g.UniformOf isClass) {x : N × Spec A}
    (hx : x ∈ g.entries) :
    isClass x.2 = true := by
  rw [h.entries_eq] at hx
  exact h.of_mem x (Uniform.mem_specs hx)

end Classes

/-! ## Rows of the groups

Each group has a row of layers in each bank, and a slot of the bank is a column through the rows.
-/

section Rows

variable {g : Group N A}

/-- The classes exclude each other. -/
theorem Spec.isTail_of_isAttention {s : Spec A} (h : s.isAttention = true) : s.isTail = false := by
  unfold isAttention at h
  unfold isTail
  cases hk : s.kind <;> simp_all

theorem Spec.isLatent_eq {s : Spec A} (h : s.isAttention = true) : s.isLatent = !s.isIndexer := by
  unfold isAttention at h
  unfold isLatent isIndexer
  cases hk : s.kind with
  | mla t =>
    have : 1 ≤ t := one_le
    by_cases ht : t = 1
    · simp [ht]
    · simp [ht, lt_of_le_of_ne this (Ne.symm ht)]
  | _ => simp [hk] at h

theorem Spec.isIndexer_of_isWindow {s : Spec A} (h : s.isWindow = true) :
    (s.isIndexer || s.isTail) = false := by
  unfold isWindow at h
  unfold isIndexer isTail
  cases hk : s.kind <;> simp_all

theorem Spec.isAttention_of_isWindow {s : Spec A} (h : s.isWindow = true) :
    s.isAttention = false := by
  unfold isWindow at h
  unfold isAttention
  cases hk : s.kind <;> simp_all

theorem Spec.isIndexer_of_isMamba {s : Spec A} (h : s.isMamba = true) :
    (s.isIndexer || s.isTail) = false := by
  have hk : s.kind = .mamba := by simpa [isMamba] using h
  simp [isIndexer, isTail, hk]

/-- The attention group's row of MLA layers, and of indexer layers. -/
theorem row_attn (h : g.UniformOf Spec.isAttention) :
    g.row .mla = g.toUniform.entries.filter (fun x => x.2.isLatent) ∧
      g.row .indexer = g.toUniform.entries.filter fun x => x.2.isIndexer := by
  unfold Group.row
  constructor
  · rw [← h.entries_eq]
    refine List.filter_congr fun x hx => ?_
    have ha := h.of_mem_entries hx
    rw [Bank.holds, Spec.isTail_of_isAttention ha, Bool.or_false, Spec.isLatent_eq ha]
  · rw [← h.entries_eq]
    refine List.filter_congr fun x hx => ?_
    rw [Bank.holds, Spec.isTail_of_isAttention (h.of_mem_entries hx), Bool.or_false]

theorem row_tail (h : g.UniformOf Spec.isTail) : g.row .mla = [] ∧ g.row .indexer = g.entries := by
  unfold Group.row
  constructor
  · refine List.filter_eq_nil_iff.mpr fun x hx => ?_
    simp [Bank.holds, h.of_mem_entries hx]
  · refine List.filter_eq_self.mpr fun x hx => ?_
    simp [Bank.holds, h.of_mem_entries hx]

theorem row_drafter (h : g.UniformOf Spec.isWindow) : g.row .mla = g.entries ∧
    g.row .indexer = [] := by
  unfold Group.row
  constructor
  · refine List.filter_eq_self.mpr fun x hx => ?_
    rw [Bank.holds, Spec.isIndexer_of_isWindow (h.of_mem_entries hx), Bool.not_false]
  · refine List.filter_eq_nil_iff.mpr fun x hx => ?_
    rw [Bank.holds, Spec.isIndexer_of_isWindow (h.of_mem_entries hx)]
    exact Bool.false_ne_true

theorem row_mamba {s : Spec A} (h : g.spec = .single s) (hs : s.isMamba = true) :
    g.row .mla = g.layerNames.map (·, s) ∧ g.row .indexer = [] := by
  unfold Group.row Group.entries
  simp only [h]
  constructor
  · refine List.filter_eq_self.mpr fun x hx => ?_
    obtain ⟨n, -, rfl⟩ := List.mem_map.mp hx
    rw [Bank.holds, Spec.isIndexer_of_isMamba hs, Bool.not_false]
  · refine List.filter_eq_nil_iff.mpr fun x hx => ?_
    obtain ⟨n, -, rfl⟩ := List.mem_map.mp hx
    rw [Bank.holds, Spec.isIndexer_of_isMamba hs]
    exact Bool.false_ne_true

end Rows

/-! ## The layout of a stage

The loops of the source place slot after slot. A turn is compared with the column of its slot, and
the loop with the bank.
-/

section Config

variable {e} {groups : List (Group N A)} {l : Layout N A} {found : Found N A}

omit [DecidableEq N] in
theorem filterMap_toList {f : Group N A → Option (Uniform N A)} {o : Option (Group N A)}
    (h : ∀ g, o = some g → f g = some g.toUniform) :
      o.toList.filterMap f = (o.map Group.toUniform).toList := by
  cases o with
  | none => rfl
  | some g => simp [h g rfl]

/-- The uniform groups and the Mamba groups of a stage. -/
theorem Shape.filterMap_eq (s : Shape groups) :
    groups.filterMap Group.uniform? =
        s.attn.toUniform :: ((s.tail.map Group.toUniform).toList ++
        (s.drafter.map Group.toUniform).toList) ∧
      groups.filterMap Group.mamba? = s.mambas.filterMap Group.mamba? := by
  have hmambas : s.mambas.filterMap Group.uniform? = [] := by
    refine List.filterMap_eq_nil_iff.mpr fun g hg => ?_
    obtain ⟨spec, hspec, -⟩ := s.mamba_single g hg
    simp only [Group.uniform?, hspec]
  have htail : s.tail.toList.filterMap Group.mamba? = [] :=
    List.filterMap_eq_nil_iff.mpr fun g hg => (s.tail_uniform g (Option.mem_toList.mp hg)).mamba?
  have hdrafter : s.drafter.toList.filterMap Group.mamba? = [] :=
    List.filterMap_eq_nil_iff.mpr fun g hg => (s.drafter_uniform g (Option.mem_toList.mp hg)).mamba?
  constructor
  · conv_lhs => rw [s.groups_eq]
    rw [List.filterMap_cons, s.attn_uniform.uniform?, List.filterMap_append,
      List.filterMap_append, hmambas,
      List.nil_append, filterMap_toList fun t ht => (s.tail_uniform t ht).uniform?,
      filterMap_toList fun d hd => (s.drafter_uniform d hd).uniform?]
  · conv_lhs => rw [s.groups_eq]
    rw [List.filterMap_cons, s.attn_uniform.mamba?, List.filterMap_append, List.filterMap_append,
      htail, hdrafter, List.nil_append, List.append_nil]

/-- A group without specs passes for an attention group; the layout then has no MLA layer. -/
theorem Recognised.specs_ne (h : Recognised e groups l found) : l.attn.specs ≠ [] := by
  intro hnil
  refine h.mla_ne ?_
  rw [h.mla_names, List.map_eq_nil_iff, List.filter_eq_nil_iff]
  intro x hx
  have := Uniform.mem_specs hx
  rw [hnil] at this
  cases this

omit [DecidableEq N] in
/-- The loop takes a tail group for the tail, unless it has no specs and passes for the attention
group. -/
theorem add_tail {f f' : Found N A} {u : Uniform N A} (hu : ∀ x ∈ u.specs, x.2.isTail = true)
    (h : f.add u = some f') : f'.attn = some u ∧ u.specs = [] ∨ f' = { f with tail := some u } := by
  unfold Found.add at h
  by_cases hall : ∀ x ∈ u.specs, x.2.isAttention = true
  · rw [if_pos hall] at h
    obtain rfl := Option.some.inj h
    refine Or.inl ⟨rfl, List.eq_nil_iff_forall_not_mem.mpr fun x hx => ?_⟩
    have := Spec.isTail_of_isAttention (hall x hx)
    rw [hu x hx] at this
    cases this
  · rw [if_neg hall, if_pos hu] at h
    exact Or.inr (Option.some.inj h).symm

omit [DecidableEq N] in
/-- And a first drafter group for the drafter. -/
theorem add_drafter {f f' : Found N A} {u : Uniform N A} (hu : ∀ x ∈ u.specs, x.2.isWindow = true)
    (hf : f.drafter = none) (h : f.add u = some f') :
    f'.attn = some u ∧ u.specs = [] ∨ f' = { f with drafter := some u } := by
  unfold Found.add at h
  by_cases hnil : u.specs = []
  · rw [if_pos (by simp [hnil])] at h
    obtain rfl := Option.some.inj h
    exact Or.inl ⟨rfl, hnil⟩
  obtain ⟨x, hx⟩ := List.exists_mem_of_ne_nil _ hnil
  have hclass := Spec.isIndexer_of_isWindow (hu x hx)
  rw [Bool.or_eq_false_iff] at hclass
  have hattn := Spec.isAttention_of_isWindow (hu x hx)
  rw [if_neg fun hall => absurd (hall x hx) (by simp [hattn]),
    if_neg fun hall => absurd (hall x hx) (by simp [hclass.2]), if_pos hu, hf] at h
  exact Or.inr (Option.some.inj h).symm

/-- **What the loop over the uniform groups finds** on a stage whose layout is recognised. -/
theorem Shape.found_eq (s : Shape groups) (h : Recognised e groups l found) :
    found = ⟨some s.attn.toUniform, s.tail.map Group.toUniform, s.drafter.map Group.toUniform⟩ := by
  have hfold := h.found_eq
  have hne : ∀ {u : Uniform N A}, found.attn = some u → u.specs = [] → False := by
    intro u hu hnil
    rw [h.attn_eq] at hu
    obtain rfl := Option.some.inj hu
    exact h.specs_ne hnil
  have hattn : Found.add ⟨none, none, none⟩ s.attn.toUniform =
    some ⟨some s.attn.toUniform, none, none⟩ := by
    unfold Found.add
    rw [if_pos s.attn_uniform.of_mem]
  rw [s.filterMap_eq.1, List.foldlM_cons, hattn, Option.bind_eq_bind, Option.bind_some,
    List.foldlM_append, Option.bind_eq_bind, Option.bind_eq_some_iff] at hfold
  obtain ⟨f, htail, hdrafter⟩ := hfold
  -- the tail, if there is one
  have hf : f = ⟨some s.attn.toUniform, s.tail.map Group.toUniform, none⟩ ∨
      ∃ u, f.attn = some u ∧ u.specs = [] ∧ f.drafter = none := by
    cases ht : s.tail with
    | none =>
      rw [ht] at htail
      exact Or.inl (Option.some.inj htail).symm
    | some t =>
      rw [ht] at htail
      simp only [Option.map_some, Option.toList_some, List.foldlM_cons, List.foldlM_nil,
        Option.bind_eq_bind, Option.bind_eq_some_iff] at htail
      obtain ⟨f₁, hadd, hpure⟩ := htail
      obtain rfl := Option.some.inj hpure
      rcases add_tail (s.tail_uniform t ht).of_mem hadd with ⟨hu, hnil⟩ | rfl
      · refine Or.inr ⟨_, hu, hnil, ?_⟩
        unfold Found.add at hadd
        rw [if_pos (by simp [hnil])] at hadd
        obtain rfl := Option.some.inj hadd
        rfl
      · exact Or.inl rfl
  have hfd : f.drafter = none := hf.elim (fun h => h ▸ rfl) fun ⟨_, _, _, h⟩ => h
  -- and the drafter
  cases hd : s.drafter with
  | none =>
    rw [hd] at hdrafter
    obtain rfl := Option.some.inj hdrafter
    rcases hf with rfl | ⟨u, hu, hnil, -⟩
    · rfl
    · exact (hne hu hnil).elim
  | some d =>
    rw [hd] at hdrafter
    simp only [Option.map_some, Option.toList_some, List.foldlM_cons, List.foldlM_nil,
      Option.bind_eq_bind, Option.bind_eq_some_iff] at hdrafter
    obtain ⟨f₁, hadd, hpure⟩ := hdrafter
    obtain rfl := Option.some.inj hpure
    rcases add_drafter (s.drafter_uniform d hd).of_mem hfd hadd with ⟨hu, hnil⟩ | rfl
    · exact (hne hu hnil).elim
    · rcases hf with rfl | ⟨u, hu, hnil, -⟩
      · rfl
      · exact (hne hu hnil).elim

theorem specOf_ok {u : Uniform N A} {x : N × Spec A} (h : x ∈ u.entries) :
    specOf u.specs x.1 = .ok x.2 := by
  unfold specOf
  rw [Uniform.lookup_of_mem h]
  rfl

/-- The part of a group in a slot. -/
def Engine.part (e : Engine N A) (l : Layout N A) (size n : Nat) (b : Bank) (i : Nat)
    (g : Group N A) :
    Option (Tensor N) :=
  (g.row b)[i]?.map fun x => e.addTensor size n (l.slotOffset n b i) x.1 x.2

theorem Shape.column_eq (s : Shape groups) (size n : Nat) (b : Bank) (i : Nat) :
    e.column l groups size n b i = (e.part l size n b i s.attn).toList ++
      ((s.tail.bind (e.part l size n b i)).toList ++ (s.mambas.filterMap (e.part l size n b i) ++
        (s.drafter.bind (e.part l size n b i)).toList)) := by
  have htoList : ∀ o : Option (Group N A), o.toList.filterMap (e.part l size n b i) =
      (o.bind (e.part l size n b i)).toList := by
    intro o
    cases o with
    | none => rfl
    | some g => cases h : e.part l size n b i g <;> simp [h]
  unfold Engine.column
  conv_lhs => rw [s.groups_eq]
  change (s.attn :: (s.tail.toList ++ (s.mambas ++ s.drafter.toList))).filterMap
    (e.part l size n b i) = _
  rw [List.filterMap_cons, List.filterMap_append, List.filterMap_append, htoList, htoList]
  cases e.part l size n b i s.attn <;> rfl

/-- The names of a group's layers, through their specs. -/
theorem Shape.getElem?_names (s : Shape groups) {g : Group N A} (hg : g ∈ groups) (i : Nat) :
    g.layerNames[i]? = g.entries[i]?.map Prod.fst := by
  rw [← List.getElem?_map, s.specced g hg]

theorem Shape.mem_tail (s : Shape groups) {t : Group N A} (h : s.tail = some t) : t ∈ groups := by
  rw [s.groups_eq, h]
  simp

theorem Shape.mem_drafter (s : Shape groups) {d : Group N A} (h : s.drafter = some d) :
    d ∈ groups := by
  rw [s.groups_eq, h]
  simp

/-- **One turn of the MLA loop** places one slot. -/
theorem Shape.mlaSlot_eq (s : Shape groups) (h : Recognised e groups l found) (size n : Nat)
    {x : N × Spec A}
    {i : Nat} (hx : (s.attn.row .mla)[i]? = some x) :
    e.mlaSlot l size n (x.1, i) = .ok (e.column l groups size n .mla i) := by
  have hfound := s.found_eq h
  have hattn : l.attn = s.attn.toUniform := Option.some.inj
    (h.attn_eq.symm.trans (congrArg Found.attn hfound))
  have hdrafter : l.drafter = s.drafter.map Group.toUniform :=
    h.drafter_eq.trans (congrArg Found.drafter hfound)
  have hmem : x ∈ s.attn.toUniform.entries := by
    rw [← s.attn_uniform.entries_eq]
    exact List.mem_of_mem_filter (List.mem_of_getElem? hx)
  -- the Mamba groups
  have hmambas : (l.mambas.filterMap fun m => m.names[i]?.map fun name =>
      e.addTensor size n (i * l.mlaPage * n) name m.spec) = s.mambas.filterMap
        (e.part l size n .mla i) := by
    rw [h.mambas_eq, s.filterMap_eq.2, List.filterMap_filterMap]
    refine List.filterMap_congr fun g hg => ?_
    obtain ⟨spec, hspec, hm⟩ := s.mamba_single g hg
    simp only [Group.mamba?, hspec, hm, if_true, Option.bind_some, Engine.part,
      (row_mamba hspec hm).1, List.getElem?_map, Option.map_map]
    rfl
  -- the tails take no MLA slot
  have htail : s.tail.bind (e.part l size n .mla i) = none := by
    cases ht : s.tail with
    | none => rfl
    | some t =>
      simp only [Option.bind_some, Engine.part, (row_tail (s.tail_uniform t ht)).1,
        List.getElem?_nil, Option.map_none]
  rw [s.column_eq, htail]
  simp only [Engine.mlaSlot, hattn, specOf_ok hmem, hmambas, hdrafter, Engine.part, hx]
  cases hd : s.drafter with
  | none => rfl
  | some d =>
    have hname : d.toUniform.names[i]? = d.entries[i]?.map Prod.fst :=
      s.getElem?_names (s.mem_drafter hd) i
    have hpart : e.part l size n .mla i d = d.entries[i]?.map fun y =>
        e.addTensor size n (l.slotOffset n .mla i) y.1 y.2 := by
      rw [Engine.part, (row_drafter (s.drafter_uniform d hd)).1]
    simp only [Option.map_some, Option.bind_some, hname, hpart]
    cases hi : d.entries[i]? with
    | none => rfl
    | some y =>
      have hy : y ∈ d.toUniform.entries := by
        rw [← (s.drafter_uniform d hd).entries_eq]
        exact List.mem_of_getElem? hi
      simp only [Option.map_some, specOf_ok hy]
      rfl

omit [DecidableEq N] in
/-- A layer belongs to one group. -/
theorem group_unique {names : Group N A → List N} (h : (groups.flatMap names).Nodup)
    {g g' : Group N A} (hg : g ∈ groups) (hg' : g' ∈ groups) {n : N} (hn : n ∈ names g)
    (hn' : n ∈ names g') : g = g' := by
  by_contra hne
  have hdis := (List.nodup_flatMap.mp h).2
  have : Std.Symm (Function.onFun List.Disjoint names) := ⟨fun _ _ hd => hd.symm⟩
  exact hdis.forall hg hg' hne hn hn'

/-- **One turn of the indexer loop** places one slot. -/
theorem Shape.idxSlot_eq (s : Shape groups) (h : Recognised e groups l found) (size n : Nat)
    {x : N × Spec A}
    {j : Nat} (hx : (s.attn.row .indexer)[j]? = some x) :
    e.idxSlot l groups size n (x.1, j) = .ok (e.column l groups size n .indexer j) := by
  have hfound := s.found_eq h
  have hattn : l.attn = s.attn.toUniform := Option.some.inj
    (h.attn_eq.symm.trans (congrArg Found.attn hfound))
  have htail : found.tail = s.tail.map Group.toUniform := congrArg Found.tail hfound
  have hmem : x ∈ s.attn.toUniform.entries := by
    rw [← s.attn_uniform.entries_eq]
    exact List.mem_of_mem_filter (List.mem_of_getElem? hx)
  -- neither a Mamba group nor the drafter takes an indexer slot
  have hmambas : s.mambas.filterMap (e.part l size n .indexer j) = [] := by
    refine List.filterMap_eq_nil_iff.mpr fun g hg => ?_
    obtain ⟨spec, hspec, hm⟩ := s.mamba_single g hg
    rw [Engine.part, (row_mamba hspec hm).2, List.getElem?_nil, Option.map_none]
  have hdrafter : s.drafter.bind (e.part l size n .indexer j) = none := by
    cases hd : s.drafter with
    | none => rfl
    | some d => simp only [Option.bind_some, Engine.part, (row_drafter (s.drafter_uniform d hd)).2,
        List.getElem?_nil, Option.map_none]
  rw [s.column_eq, hmambas, hdrafter]
  simp only [Engine.idxSlot, hattn, specOf_ok hmem]
  have hpart : e.part l size n .indexer j s.attn =
      some (e.addTensor size n (l.slotOffset n .indexer j) x.1 x.2) := by
    rw [Engine.part, hx, Option.map_some]
  rw [hpart]
  cases ht : s.tail with
  | none =>
    have hnames : l.tailNames = [] := h.no_tail (by rw [htail, ht]; rfl)
    rw [hnames]
    rfl
  | some t =>
    obtain ⟨hnames, hlen, -⟩ := h.tail t.toUniform (by rw [htail, ht]; rfl)
    have hlen : t.layerNames.length = l.idxNames.length := hlen
    -- there is a tail for every indexer slot
    have hj : j < t.entries.length := by
      have hidx : l.idxNames.length = (s.attn.row .indexer).length := by
        rw [h.idx_names, hattn, ← (row_attn s.attn_uniform).2, List.length_map]
      have := congrArg List.length (s.specced t (s.mem_tail ht))
      rw [List.length_map] at this
      rw [this, hlen, hidx]
      exact (List.getElem?_eq_some_iff.mp hx).1
    have hy := List.getElem?_eq_getElem hj
    generalize t.entries[j] = y at hy
    have hymem : y ∈ t.entries := List.mem_of_getElem? hy
    have hyname : y.1 ∈ t.layerNames := by
      rw [← s.specced t (s.mem_tail ht)]
      exact List.mem_map_of_mem hymem
    have hne : l.tailNames ≠ [] := by
      rw [hnames]
      exact List.ne_nil_of_mem hyname
    have hname : l.tailNames[j]? = some y.1 := by
      rw [hnames]
      exact (s.getElem?_names (s.mem_tail ht) j).trans (by rw [hy]; rfl)
    have hfind : (groups.find? fun g => decide (y.1 ∈ g.layerNames)) = some t := by
      cases hf : groups.find? fun g => decide (y.1 ∈ g.layerNames) with
      | none => exact absurd (List.find?_eq_none.mp hf t (s.mem_tail ht)) (by simpa using hyname)
      | some g =>
        have hg := List.find?_some hf
        rw [group_unique s.nodup (List.mem_of_find?_eq_some hf) (s.mem_tail ht)
          (of_decide_eq_true hg) hyname]
    obtain ⟨block, specs, hspec, hspecs⟩ := s.tail_uniform t ht
    have hof : specOf specs y.1 = .ok y.2 := by
      have : specs = t.toUniform.specs := by simp only [Group.toUniform, hspec]
      rw [this]
      refine specOf_ok ?_
      rwa [← (s.tail_uniform t ht).entries_eq]
    have hpart : e.part l size n .indexer j t =
        some (e.addTensor size n (l.slotOffset n .indexer j) y.1 y.2) := by
      rw [Engine.part, (row_tail (s.tail_uniform t ht)).2, hy, Option.map_some]
    simp only [if_neg hne, hname, hfind, hspec, hof, Option.bind_some, hpart]
    rfl

/-- A loop over the layers of a bank that places one slot in each turn places the bank. -/
theorem bank_mapM {size n : Nat} {b : Bank} {row : List (N × Spec A)} {names : List N}
    {slot : N × Nat → Except String (List (Tensor N))} (hnames : names = row.map Prod.fst)
    (hslots : l.slots b = row.length)
    (h : ∀ {x i}, row[i]? = some x → slot (x.1, i) = .ok (e.column l groups size n b i)) :
    ∃ parts, names.zipIdx.mapM slot = .ok parts ∧ parts.flatten = e.bank l groups size n b := by
  have hturn : ∀ t ∈ names.zipIdx, slot t = .ok (e.column l groups size n b t.2) := by
    intro t ht
    obtain ⟨m, i⟩ := t
    have hm := List.mem_zipIdx_iff_getElem?.mp ht
    rw [hnames, List.getElem?_map, Option.map_eq_some_iff] at hm
    obtain ⟨x, hx, rfl⟩ := hm
    exact h hx
  refine ⟨_, mapM_ok hturn, ?_⟩
  have hrange : names.zipIdx.map Prod.snd = List.range (l.slots b) := by
    rw [List.zipIdx_map_snd, hnames, List.length_map, hslots, List.range_eq_range']
  rw [Engine.bank, ← hrange, List.flatMap_map, List.flatMap_def]

/-- **The tensors of the config are those of the two banks**; it fails only when a block has no
bytes. -/
theorem Shape.glm5Config_eq (s : Shape groups) (h : Recognised e groups l found)
    (override : Option Nat)
    (available : Nat) :
    e.glm5Config override available groups l =
      if l.bytesPerBlock = 0 then .error "ZeroDivisionError" else
        let n := override.getD (available / l.bytesPerBlock)
        .ok ⟨n, e.bank l groups (l.bytesPerBlock * n) n .mla ++
          e.bank l groups (l.bytesPerBlock * n) n .indexer,
          groups⟩ := by
  have hattn : l.attn = s.attn.toUniform :=
    Option.some.inj (h.attn_eq.symm.trans (congrArg Found.attn (s.found_eq h)))
  have hmla : l.mlaNames = (s.attn.row .mla).map Prod.fst := by
    rw [h.mla_names, hattn, (row_attn s.attn_uniform).1]
  have hidx : l.idxNames = (s.attn.row .indexer).map Prod.fst := by
    rw [h.idx_names, hattn, (row_attn s.attn_uniform).2]
  unfold Engine.glm5Config
  by_cases hzero : l.bytesPerBlock = 0
  · rw [if_pos hzero, if_pos hzero]
    rfl
  rw [if_neg hzero, if_neg hzero]
  dsimp only
  generalize override.getD (available / l.bytesPerBlock) = n
  obtain ⟨mla, hmlaOk, hmlaBank⟩ := bank_mapM (b := .mla) hmla
    (by rw [Layout.slots, hmla, List.length_map])
    fun hx => s.mlaSlot_eq h (l.bytesPerBlock * n) n hx
  obtain ⟨idx, hidxOk, hidxBank⟩ := bank_mapM (b := .indexer) hidx
    (by rw [Layout.slots, hidx, List.length_map])
    fun hx => s.idxSlot_eq h (l.bytesPerBlock * n) n hx
  rw [hmlaOk, hidxOk, ← hmlaBank, ← hidxBank]
  rfl

end Config

end Ringside.KvLayout

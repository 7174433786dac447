import Ringside.KvLayout.Grouping

/-!
# The shared tensor layout (`_glm5_next_tensor_layout`, `get_kv_cache_config_from_groups`)

The layout recognises the GLM-5.3 groups on a pipeline stage and places their tensors in one
allocation of `N` blocks: MLA layer `i` and the `i`-th layer of every Mamba group and of the drafter
share the bytes of MLA slot `i`; indexer layer `j` and tail `j` share those of indexer slot `j`.

* `_project_kv_cache_groups_to_worker` is not in this repository. `Projected` (in `Stage`) states
  what the layout relies on: a projected group keeps the names of the worker's layers in their
  order, and their specs.
* `Found.add` is a turn of the loop that sorts the uniform groups; two drafter groups are refused.
  `tailLayout`, `drafterFits` and `drafterLayout` are the parts of the function, each with its
  tests. A group that fails a test makes the layout `none`, as in the source.
* `mlaSlot` and `idxSlot` are turns of the two loops of `get_kv_cache_config_from_groups`. Only its
  GLM-5.3 branch is modelled.
* The number of blocks comes from the available memory or from the override.

Results:
* `tensorLayout_ok`: what a recognised layout is (`Recognised`).
-/

namespace Ringside.KvLayout

open Checks Columns

variable {N A : Type} [DecidableEq N] (e : Engine N A)

/-! ## Recognising the groups -/

/-- A group with `UniformTypeKVCacheSpecs`: its layer names and their specs. -/
structure Uniform (N A : Type) where
  names : List N
  specs : List (N × Spec A)

/-- A group with a `MambaSpec`. -/
structure Mamba (N A : Type) where
  names : List N
  spec : Spec A

def Group.uniform? (g : Group N A) : Option (Uniform N A) :=
  match g.spec with
  | .uniform _ specs => some ⟨g.layerNames, specs⟩
  | .single _ => none

def Group.mamba? (g : Group N A) : Option (Mamba N A) :=
  match g.spec with
  | .uniform _ _ => none
  | .single spec => if spec.isMamba then some ⟨g.layerNames, spec⟩ else none

/-- What the loop over the uniform groups has found. -/
structure Found (N A : Type) where
  attn : Option (Uniform N A)
  tail : Option (Uniform N A)
  drafter : Option (Uniform N A)

/-- One turn of that loop; two drafter groups are refused. -/
def Found.add (f : Found N A) (u : Uniform N A) : Option (Found N A) :=
  if ∀ x ∈ u.specs, x.2.isAttention then some { f with attn := some u }
  else if ∀ x ∈ u.specs, x.2.isTail then some { f with tail := some u }
  else if ∀ x ∈ u.specs, x.2.isWindow then
    match f.drafter with
    | some _ => none
    | none => some { f with drafter := some u }
  else some f

/-- The nine values of a recognised layout; `mlaNames` and `idxNames` are layers of `attn`. -/
structure Layout (N A : Type) where
  attn : Uniform N A
  mambas : List (Mamba N A)
  mlaNames : List N
  idxNames : List N
  mlaPage : Nat
  idxPage : Nat
  tailNames : List N
  tailPage : Nat
  drafter : Option (Uniform N A)

/-- The tails ride on the indexers, one on each, and fit into their pages. -/
def Engine.tailLayout (idxNames : List N) (idxPage : Nat) : Option (Uniform N A) →
    Option (List N × Nat)
  | none => some ([], 0)
  | some t => do
    let page ← only (t.specs.map fun x => e.unpadded x.2)
    guard (t.names.length = idxNames.length)
    guard (page ≤ idxPage)
    return (t.names, page)

/-- A drafter layer that joins the layout: an exact fit, unpadded, with the window of the served
drafter. -/
def Engine.drafterFits (mlaPage : Nat) (s : Spec A) : Prop :=
  s.pageSizePadded = none ∧ e.page s = mlaPage ∧ s.blockSize % 64 = 0 ∧ s.kind = .window 2048

instance (mlaPage : Nat) (s : Spec A) : Decidable (e.drafterFits mlaPage s) :=
  inferInstanceAs (Decidable (_ ∧ _))

def Engine.drafterLayout (mlaNames : List N) (mlaPage : Nat) : Option (Uniform N A) → Option Unit
  | none => some ()
  | some d => do
    guard (d.names.length ≤ mlaNames.length)
    guard (∀ x ∈ d.specs, e.drafterFits mlaPage x.2)

/-- The layers of a class, by the specs of their group. -/
def Uniform.ofClass (u : Uniform N A) (isClass : Spec A → Bool) : List N :=
  u.names.filter fun n => (u.specs.lookup n).any isClass

/-- The pages of layers of the group. -/
def Engine.pagesOf (u : Uniform N A) (names : List N) : List Nat :=
  names.filterMap fun n => (u.specs.lookup n).map e.page

/-- `_glm5_next_tensor_layout`. -/
def Engine.tensorLayout (groups : List (Group N A)) : Option (Layout N A) := do
  let uniform := groups.filterMap Group.uniform?
  let mambas := groups.filterMap Group.mamba?
  let found ← uniform.foldlM Found.add ⟨none, none, none⟩
  let attn ← found.attn
  guard (mambas ≠ [])
  guard (uniform.length + mambas.length = groups.length)
  guard (∀ x ∈ attn.specs, x.2.isAttention ∧ x.2.pageSizePadded = none)
  let mlaNames := attn.ofClass Spec.isLatent
  let idxNames := attn.ofClass Spec.isIndexer
  let mlaPage ← only (e.pagesOf attn mlaNames)
  let idxPage ← only (e.pagesOf attn idxNames)
  guard (∀ m ∈ mambas, e.page m.spec = mlaPage)
  let (tailNames, tailPage) ← e.tailLayout idxNames idxPage found.tail
  e.drafterLayout mlaNames mlaPage found.drafter
  return ⟨attn, mambas, mlaNames, idxNames, mlaPage, idxPage, tailNames, tailPage, found.drafter⟩

/-! ## Placing the tensors -/

/-- `KVCacheTensor`. -/
structure Tensor (N : Type) where
  size : Nat
  layers : List N
  layerStride : Nat
  blockStride : Nat
  offset : Nat

/-- `KVCacheConfig`. -/
structure Config (N A : Type) where
  numBlocks : Nat
  tensors : List (Tensor N)
  groups : List (Group N A)

def Layout.bytesPerBlock (l : Layout N A) : Nat :=
  l.mlaNames.length * l.mlaPage + l.idxNames.length * l.idxPage

/-- `add_tensor`. -/
def Engine.addTensor (size numBlocks offset : Nat) (name : N) (spec : Spec A) : Tensor N :=
  ⟨size, [name], e.page spec * numBlocks, e.page spec, offset⟩

/-- `specs[name]`. -/
def specOf (specs : List (N × Spec A)) (name : N) : Except String (Spec A) :=
  match specs.lookup name with
  | none => throw "KeyError"
  | some spec => pure spec

/-- One turn of the loop over the MLA layers. -/
def Engine.mlaSlot (l : Layout N A) (size numBlocks : Nat) (turn : N × Nat) :
    Except String (List (Tensor N)) := do
  let offset := turn.2 * l.mlaPage * numBlocks
  let mla ← specOf l.attn.specs turn.1
  let mambas := l.mambas.filterMap fun m =>
    m.names[turn.2]?.map fun name => e.addTensor size numBlocks offset name m.spec
  let drafter ← match l.drafter.bind fun d => d.names[turn.2]?.map fun name => (d, name) with
    | none => pure []
    | some (d, name) => do
      let spec ← specOf d.specs name
      pure [e.addTensor size numBlocks offset name spec]
  return e.addTensor size numBlocks offset turn.1 mla :: (mambas ++ drafter)

/-- One turn of the loop over the indexer layers. -/
def Engine.idxSlot (l : Layout N A) (groups : List (Group N A)) (size numBlocks : Nat)
    (turn : N × Nat) :
    Except String (List (Tensor N)) := do
  let offset := l.mlaNames.length * l.mlaPage * numBlocks + turn.2 * l.idxPage * numBlocks
  let idx ← specOf l.attn.specs turn.1
  let tail ← if l.tailNames = [] then pure [] else
    match l.tailNames[turn.2]? with
    | none => throw "IndexError"
    | some name =>
      match groups.find? fun g => name ∈ g.layerNames with
      | none => throw "StopIteration"
      | some g =>
        match g.spec with
        | .single _ => throw "AttributeError"
        | .uniform _ specs => do
          let spec ← specOf specs name
          pure [e.addTensor size numBlocks offset name spec]
  return e.addTensor size numBlocks offset turn.1 idx :: tail

/-- The GLM-5.3 branch of `get_kv_cache_config_from_groups`; `override` is
`num_gpu_blocks_override`. -/
def Engine.glm5Config (override : Option Nat) (available : Nat) (groups : List (Group N A))
    (l : Layout N A) :
    Except String (Config N A) := do
  if l.bytesPerBlock = 0 then throw "ZeroDivisionError"
  let numBlocks := override.getD (available / l.bytesPerBlock)
  let size := l.bytesPerBlock * numBlocks
  let mla ← l.mlaNames.zipIdx.mapM (e.mlaSlot l size numBlocks)
  let idx ← l.idxNames.zipIdx.mapM (e.idxSlot l groups size numBlocks)
  return ⟨numBlocks, mla.flatten ++ idx.flatten, groups⟩

/-! ## What a recognised layout is -/

/-- The layers of a group with their specs, in their order. -/
def Uniform.entries (u : Uniform N A) : List (N × Spec A) :=
  u.names.filterMap fun n => (u.specs.lookup n).map (n, ·)

/-- The layers of a class are those entries. -/
theorem Uniform.ofClass_eq (u : Uniform N A) (isClass : Spec A → Bool) :
    u.ofClass isClass = (u.entries.filter fun x => isClass x.2).map Prod.fst := by
  unfold ofClass entries
  induction u.names with
  | nil => rfl
  | cons n names ih =>
    cases hn : u.specs.lookup n with
    | none => simp [hn, ih]
    | some s => cases hs : isClass s <;> simp [hn, hs, ih]

theorem Uniform.lookup_of_mem {u : Uniform N A} {x : N × Spec A} (h : x ∈ u.entries) :
    u.specs.lookup x.1 = some x.2 := by
  obtain ⟨n, -, hn⟩ := List.mem_filterMap.mp h
  cases hs : u.specs.lookup n with
  | none => rw [hs] at hn; cases hn
  | some s =>
    rw [hs] at hn
    obtain rfl := Option.some.inj hn
    exact hs

theorem Uniform.mem_specs {u : Uniform N A} {x : N × Spec A} (h : x ∈ u.entries) : x ∈ u.specs := by
  obtain ⟨l₁, l₂, heq, -⟩ := List.lookup_eq_some_iff.mp (Uniform.lookup_of_mem h)
  rw [heq]
  simp

theorem Engine.pagesOf_eq {u : Uniform N A} : ∀ {row : List (N × Spec A)},
    (∀ x ∈ row, x ∈ u.entries) →
    e.pagesOf u (row.map Prod.fst) = row.map fun x => e.page x.2
  | [], _ => rfl
  | x :: row, h => by
    have ih := Engine.pagesOf_eq fun y hy => h y (List.mem_cons_of_mem x hy)
    unfold Engine.pagesOf at ih ⊢
    rw [List.map_cons, List.filterMap_cons, Uniform.lookup_of_mem (h x List.mem_cons_self), ih]
    rfl

variable {e}

/-- What a recognised layout is, by the entries of its groups. -/
structure Recognised (e : Engine N A) (groups : List (Group N A)) (l : Layout N A)
    (found : Found N A) : Prop where
  found_eq : (groups.filterMap Group.uniform?).foldlM Found.add ⟨none, none, none⟩ = some found
  attn_eq : found.attn = some l.attn
  drafter_eq : l.drafter = found.drafter
  mambas_eq : l.mambas = groups.filterMap Group.mamba?
  mambas_ne : l.mambas ≠ []
  attention : ∀ x ∈ l.attn.specs, x.2.isAttention = true ∧ x.2.pageSizePadded = none
  mla_names : l.mlaNames = (l.attn.entries.filter fun x => x.2.isLatent).map Prod.fst
  idx_names : l.idxNames = (l.attn.entries.filter fun x => x.2.isIndexer).map Prod.fst
  mla_ne : l.mlaNames ≠ []
  idx_ne : l.idxNames ≠ []
  mla_page : ∀ x ∈ l.attn.entries, x.2.isLatent → e.page x.2 = l.mlaPage
  idx_page : ∀ x ∈ l.attn.entries, x.2.isIndexer → e.page x.2 = l.idxPage
  mamba_page : ∀ m ∈ l.mambas, e.page m.spec = l.mlaPage
  no_tail : found.tail = none → l.tailNames = []
  tail : ∀ t, found.tail = some t → l.tailNames = t.names ∧ t.names.length = l.idxNames.length ∧
    ∀ x ∈ t.specs, e.unpadded x.2 ≤ l.idxPage
  drafter : ∀ d, found.drafter = some d → d.names.length ≤ l.mlaNames.length ∧
    ∀ x ∈ d.specs, e.drafterFits l.mlaPage x.2

/-- The page of a class of layers, and that there is one. -/
theorem only_pagesOf {u : Uniform N A} {isClass : Spec A → Bool} {p : Nat}
    (h : only (e.pagesOf u (u.ofClass isClass)) = some p) :
    u.ofClass isClass ≠ [] ∧ ∀ x ∈ u.entries, isClass x.2 → e.page x.2 = p := by
  rw [Uniform.ofClass_eq, e.pagesOf_eq fun x hx => List.mem_of_mem_filter hx] at h
  obtain ⟨hne, hall⟩ := only_eq_some h
  refine ⟨fun hnil => hne ?_, fun x hx hc => hall
    _ (List.mem_map_of_mem (List.mem_filter.mpr ⟨hx, hc⟩))⟩
  rw [Uniform.ofClass_eq, List.map_eq_nil_iff] at hnil
  rw [hnil]
  rfl

omit [DecidableEq N] in
theorem tailLayout_ok {idxNames : List N} {idxPage : Nat} {t : Option (Uniform N A)}
    {names : List N} {page : Nat}
    (h : e.tailLayout idxNames idxPage t = some (names, page)) :
    (t = none → names = []) ∧ ∀ u, t = some u → names = u.names ∧ u.names.length = idxNames.length ∧
      ∀ x ∈ u.specs, e.unpadded x.2 ≤ idxPage := by
  cases t with
  | none =>
    obtain ⟨rfl, -⟩ := Prod.mk.inj (Option.some.inj h)
    exact ⟨fun _ => rfl, nofun⟩
  | some u =>
    simp only [Engine.tailLayout, Option.bind_eq_bind, Option.bind_eq_some_iff,
      Option.guard_eq_some'] at h
    obtain ⟨p, hp, -, hlen, -, hle, heq⟩ := h
    obtain ⟨rfl, rfl⟩ := Prod.mk.inj (Option.some.inj heq)
    refine ⟨nofun, fun v hv => ?_⟩
    obtain rfl := Option.some.inj hv
    exact ⟨rfl, hlen, fun x hx => ((only_eq_some hp).2 _ (List.mem_map_of_mem hx)).trans_le hle⟩

omit [DecidableEq N] in
theorem drafterLayout_ok {mlaNames : List N} {mlaPage : Nat} {d : Option (Uniform N A)}
    (h : e.drafterLayout mlaNames mlaPage d = some ()) (u : Uniform N A) (hu : d = some u) :
    u.names.length ≤ mlaNames.length ∧ ∀ x ∈ u.specs, e.drafterFits mlaPage x.2 := by
  subst hu
  simp only [Engine.drafterLayout, Option.bind_eq_bind, Option.bind_eq_some_iff,
    Option.guard_eq_some'] at h
  obtain ⟨-, hlen, hfit⟩ := h
  exact ⟨hlen, hfit⟩

/-- **What a recognised layout is.** -/
theorem tensorLayout_ok {groups : List (Group N A)} {l : Layout N A}
    (h : e.tensorLayout groups = some l) :
    ∃ found, Recognised e groups l found := by
  simp only [Engine.tensorLayout, Option.bind_eq_bind, Option.bind_eq_some_iff,
    Option.guard_eq_some'] at h
  obtain ⟨found, hfound, attn, hattn, -, hmambas, -, -, -, hattention, mlaPage, hmla, idxPage,
    hidx, -, hpages, ⟨tailNames, tailPage⟩, htail, ⟨⟩, hdrafter, heq⟩ := h
  obtain rfl := Option.some.inj heq
  obtain ⟨hnone, htail⟩ := tailLayout_ok htail
  obtain ⟨hmlaNe, hmla⟩ := only_pagesOf hmla
  obtain ⟨hidxNe, hidx⟩ := only_pagesOf hidx
  exact ⟨found, {
    found_eq := hfound
    attn_eq := hattn
    drafter_eq := rfl
    mambas_eq := rfl
    mambas_ne := hmambas
    attention := hattention
    mla_names := attn.ofClass_eq _
    idx_names := attn.ofClass_eq _
    mla_ne := hmlaNe
    idx_ne := hidxNe
    mla_page := hmla
    idx_page := hidx
    mamba_page := hpages
    no_tail := hnone
    tail := htail
    drafter := drafterLayout_ok hdrafter }⟩

end Ringside.KvLayout

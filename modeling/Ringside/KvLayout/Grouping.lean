import Mathlib.Data.PNat.Basic
import Ringside.Checks
import Ringside.Columns

/-!
# The GLM-5.3 cache groups (`_get_kv_cache_groups_glm5_next`, `kv_cache_utils.py`)

Every layer of the model has a spec of its cache. The grouping puts the MLA and indexer layers into
one group, the indexer tails into another, deals the KDA (Mamba) layers to groups that share the MLA
slots, and gives the drafter layers a group of blocks that fill one MLA page exactly.

* Code of the engine that is not in this repository is a parameter (`Engine`): the page sizes of the
  specs, `UniformTypeKVCacheSpecs.from_specs`, the layer index in a name and the pipeline's stages.
* A spec keeps its class, its block size, its padded page and its other fields, which are a type
  variable; a subclass that the code tells apart from its base is a class of its own (`Kind`).
* `balancedGroupCount` is `_pp_balanced_mamba_group_count` with its loop over the stages; `only` and
  `asserted` are the unpacking of a one-element set and an assertion, with their errors.
* `create_kv_cache_group_specs` merges equal specs, so a Mamba group has the spec of its layers.
* The log line is left out.

Results:
* `balancedGroupCount_le`: no stage has more Mamba layers than groups times MLA layers.
* `TailGroups`, `DrafterGroups`, `Grouped`: what the groups are, as a structure.
* `glm5Groups_ok`: the groups are these when the grouping accepts the specs.
-/

namespace Ringside.KvLayout

open Checks Columns

/-! ## Specs -/

/-- The class of a spec. -/
inductive Kind where
  /-- Exactly `MLAAttentionSpec`: an MLA cache at one token a state, an indexer cache above. -/
  | mla (tokensPerState : ℕ+)
  /-- `KpoolTailSpec`. -/
  | tail
  /-- Exactly `SlidingWindowSpec`. -/
  | window (slidingWindow : Nat)
  | mamba
  | other
  deriving DecidableEq

structure Spec (A : Type) where
  kind : Kind
  blockSize : Nat
  pageSizePadded : Option Nat
  fields : A
  deriving DecidableEq

namespace Spec

variable {A : Type} (s : Spec A)

def isAttention : Bool := match s.kind with | .mla _ => true | _ => false

/-- `tokens_per_state == 1`. -/
def isLatent : Bool := match s.kind with | .mla t => t = 1 | _ => false

/-- `tokens_per_state > 1`. -/
def isIndexer : Bool := match s.kind with | .mla t => 1 < t | _ => false

def isTail : Bool := s.kind = .tail

def isWindow : Bool := match s.kind with | .window _ => true | _ => false

def isMamba : Bool := s.kind = .mamba

end Spec

/-- What the code takes from the engine. -/
structure Engine (N A : Type) where
  /-- `unpadded_page_size_bytes`, `real_page_size_bytes`: of the class, the block size and the other
  fields. -/
  bytes : Kind → Nat → A → Nat
  /-- `UniformTypeKVCacheSpecs.from_specs`: the block size of the collection, if it is uniform. -/
  uniformBlock : List (N × Spec A) → Option Nat
  /-- `extract_layer_index`. -/
  layerIndex : N → Nat
  /-- `get_pp_indices` for each rank. -/
  stages : List (Nat × Nat)

variable {N A : Type} (e : Engine N A)

def Engine.unpadded (s : Spec A) : Nat := e.bytes s.kind s.blockSize s.fields

/-- `page_size_bytes`. -/
def Engine.page (s : Spec A) : Nat := s.pageSizePadded.getD (e.unpadded s)

/-- The specs of the layers, in their order: the entries of a dictionary. -/
structure LayerSpecs (N A : Type) where
  entries : List (N × Spec A)
  names_nodup : (entries.map Prod.fst).Nodup

namespace LayerSpecs

variable (l : LayerSpecs N A)

def mamba : List (N × Spec A) := l.entries.filter fun x => x.2.isMamba

def tails : List (N × Spec A) := l.entries.filter fun x => x.2.isTail

def drafters : List (N × Spec A) := l.entries.filter fun x => x.2.isWindow

/-- `attn_specs`: neither Mamba nor a tail nor a drafter layer. -/
def attn : List (N × Spec A) := l.entries.filter fun x => !x.2.isMamba &&
    !x.2.isTail && !x.2.isWindow

def mlas : List (N × Spec A) := l.attn.filter fun x => x.2.isLatent

def indexers : List (N × Spec A) := l.attn.filter fun x => x.2.isIndexer

end LayerSpecs

/-! ## Groups -/

/-- The spec of a group: `UniformTypeKVCacheSpecs`, or one spec for all its layers. -/
inductive GroupSpec (N A : Type) where
  | uniform (blockSize : Nat) (specs : List (N × Spec A))
  | single (spec : Spec A)

/-- `KVCacheGroupSpec`. -/
structure Group (N A : Type) where
  layerNames : List N
  spec : GroupSpec N A
  isEagle : Bool

/-- The one element of a set. -/
def only (pages : List Nat) : Option Nat :=
  match pages.dedup with
  | [p] => some p
  | _ => none

/-- `assert x is not None`. -/
def asserted {α : Type} (x : Option α) : Except String α :=
  match x with
  | none => throw "AssertionError"
  | some a => pure a

/-- `-(a // -b)`. -/
def cdiv (a b : Nat) : Nat := (a + b - 1) / b

/-- The layers whose index lies in a stage. -/
def Engine.onStage (stage : Nat × Nat) (n : N) : Bool :=
  decide (stage.1 ≤ e.layerIndex n) && decide (e.layerIndex n < stage.2)

/-- One rank of `_pp_balanced_mamba_group_count`. -/
def Engine.balanceStage (mamba mla : List N) (groups : Nat) (stage : Nat × Nat) : Option Nat :=
  let numMamba := mamba.countP (e.onStage stage)
  let numMla := mla.countP (e.onStage stage)
  if numMamba = 0 then some groups
  else if numMla = 0 then none
  else some (max groups (cdiv numMamba numMla))

/-- `_pp_balanced_mamba_group_count`. -/
def Engine.balancedGroupCount (mamba mla : List N) : Option Nat :=
  let groups := cdiv mamba.length mla.length
  if e.stages.length = 1 then some groups else e.stages.foldlM (e.balanceStage mamba mla) groups

/-- Layers with their pages padded to a size. -/
def pad (page : Nat) (layers : List (N × Spec A)) : List (N × Spec A) :=
  layers.map fun x => (x.1, { x.2 with pageSizePadded := some page })

/-- The group of the tails, whose pages are padded to the indexer page. -/
def Engine.tailGroups (idxPage : Nat) (tails : List (N × Spec A)) :
    Except String (List (Group N A)) :=
  if tails = [] then pure []
  else do
    let block ← asserted (e.uniformBlock (pad idxPage tails))
    return [⟨(pad idxPage tails).map Prod.fst, .uniform block (pad idxPage tails), false⟩]

/-- The Mamba groups, whose pages are padded to the MLA page. -/
def Engine.mambaGroups [DecidableEq A] (mlaPage : Nat) (mamba : List (N × Spec A))
    (mlaNames : List N) :
    Except String (List (Group N A)) :=
  match mamba with
  | [] => pure []
  | (_, spec) :: _ => do
    if ¬ ∀ x ∈ mamba, x.2 = spec then throw "AssertionError"
    if mlaPage < e.unpadded spec then
      throw (s!"the mamba state page ({e.unpadded spec} bytes) does not fit the MLA page " ++
        s!"({mlaPage} bytes); increase tensor parallelism or use a wider KV cache dtype")
    match e.balancedGroupCount (mamba.map Prod.fst) mlaNames with
    | none =>
      throw ("a pipeline stage has mamba layers but no MLA layer to share slots with; " ++
        "realign the stage boundaries (VLLM_PP_LAYER_PARTITION)")
    | some g =>
      return (deal g (mamba.map Prod.fst)).map fun names =>
        ⟨names, .single { spec with pageSizePadded := some mlaPage }, false⟩

/-- Drafter layers in blocks of a size, unpadded. -/
def fit (block : Nat) (drafters : List (N × Spec A)) : List (N × Spec A) :=
  drafters.map fun x => (x.1, { x.2 with blockSize := block, pageSizePadded := none })

/-- The group of the drafter, whose blocks fill one MLA page exactly. -/
def Engine.drafterGroups [DecidableEq A] (mlaPage targetBlock numMla : Nat)
    (drafters : List (N × Spec A)) :
    Except String (List (Group N A)) :=
  match drafters with
  | [] => pure []
  | (_, spec) :: _ => do
    if ¬ ∀ x ∈ drafters, x.2 = spec then
      throw ("the DFlash drafter layers have different KV cache specs; the GLM-5.3 drafter " ++
        "group needs one spec for all of them")
    let pageBytes := e.unpadded spec
    let pageTokens := spec.blockSize
    if pageTokens = 0 then throw "ZeroDivisionError"
    if pageBytes % pageTokens ≠ 0 then
      throw (s!"the DFlash drafter page ({pageBytes} bytes for {pageTokens} tokens) is not a " ++
        "whole number of bytes per token")
    let tokenBytes := pageBytes / pageTokens
    if tokenBytes = 0 then throw "ZeroDivisionError"
    if mlaPage % tokenBytes ≠ 0 then
      throw (s!"the MLA page ({mlaPage} bytes) is not a whole number of DFlash drafter tokens " ++
        s!"({tokenBytes} bytes each)")
    let drafterBlock := mlaPage / tokenBytes
    if drafterBlock % 64 ≠ 0 then
      throw (s!"the DFlash drafter block ({drafterBlock} tokens, the exact fit of one MLA page) " ++
        "is not a multiple of 64 tokens")
    if drafterBlock = 0 then throw "ZeroDivisionError"
    if targetBlock % drafterBlock ≠ 0 ∧ drafterBlock % targetBlock ≠ 0 then
      throw (s!"the DFlash drafter block ({drafterBlock} tokens) and the target block " ++
        s!"({targetBlock} tokens) do not divide one another")
    if numMla < drafters.length then
      throw s!"{drafters.length} DFlash drafter layers exceed the {numMla} MLA slots they share"
    let fitted := fit drafterBlock drafters
    if ¬ ∀ x ∈ fitted, e.page x.2 = mlaPage then throw "AssertionError"
    let block ← asserted (e.uniformBlock fitted)
    return [⟨fitted.map Prod.fst, .uniform block fitted, true⟩]

/-- `_get_kv_cache_groups_glm5_next`. -/
def Engine.glm5Groups [DecidableEq A] (l : LayerSpecs N A) :
    Except String (Option (List (Group N A))) :=
  if l.mamba = [] ∨ ¬ ∀ x ∈ l.attn, x.2.isAttention then pure none
  else if l.indexers = [] then pure none
  else do
    if ¬ ∀ x ∈ l.attn, x.2.pageSizePadded = none then throw "AssertionError"
    let idxPage ← asserted (only (l.indexers.map fun x => e.page x.2))
    let mlaPage ← asserted (only (l.mlas.map fun x => e.page x.2))
    let block ← asserted (e.uniformBlock l.attn)
    let tails ← e.tailGroups idxPage l.tails
    let mamba ← e.mambaGroups mlaPage l.mamba (l.mlas.map Prod.fst)
    let drafters ← e.drafterGroups mlaPage block l.mlas.length l.drafters
    return some (⟨l.attn.map Prod.fst, .uniform block l.attn,
      false⟩ :: (tails ++ mamba ++ drafters))

/-! ## The group count covers every stage -/

theorem only_eq_some {pages : List Nat} {p : Nat} : only pages = some p → pages ≠ [] ∧
    ∀ q ∈ pages, q = p := by
  intro h
  unfold only at h
  have hmem : ∀ q, q ∈ pages.dedup ↔ q ∈ pages := fun q => List.mem_dedup
  match hd : pages.dedup, h with
  | [_], h =>
    obtain rfl := Option.some.inj h
    simp only [hd, List.mem_singleton] at hmem
    exact ⟨List.ne_nil_of_mem ((hmem _).mp rfl), fun q hq => (hmem q).mpr hq⟩

theorem asserted_ok {α : Type} {x : Option α} {a : α} : asserted x = .ok a ↔ x = some a := by
  cases x with
  | none => exact ⟨nofun, nofun⟩
  | some b =>
    exact ⟨fun h => congrArg some (Except.ok.inj h), fun h =>
      congrArg Except.ok (Option.some.inj h)⟩

theorem le_of_cdiv_le {a b g : Nat} (hb : 0 < b) (h : cdiv a b ≤ g) : a ≤ b * g := by
  have := (Nat.div_lt_iff_lt_mul hb).mp (Nat.lt_succ_of_le h)
  rw [Nat.succ_mul, Nat.mul_comm] at this
  omega

variable {e} {mamba mla : List N}

theorem balanceStage_le {g g' : Nat} {stage : Nat × Nat}
    (h : e.balanceStage mamba mla g stage = some g') :
    g ≤ g' ∧ mamba.countP (e.onStage stage) ≤ mla.countP (e.onStage stage) * g' := by
  unfold Engine.balanceStage at h
  dsimp only at h
  split_ifs at h with h0 hm
  · obtain rfl := Option.some.inj h
    exact ⟨le_refl _, by omega⟩
  · obtain rfl := Option.some.inj h
    exact ⟨le_max_left _ _, le_of_cdiv_le (Nat.pos_of_ne_zero hm) (le_max_right _ _)⟩

theorem balance_le : ∀ {stages : List (Nat × Nat)} {g g' : Nat},
    stages.foldlM (e.balanceStage mamba mla) g = some g' →
    g ≤ g' ∧ ∀ stage ∈ stages, mamba.countP (e.onStage stage) ≤ mla.countP (e.onStage stage) * g'
  | [], g, g', h => by
    obtain rfl := Option.some.inj h
    exact ⟨le_refl _, by simp⟩
  | stage :: stages, g, g', h => by
    rw [List.foldlM_cons, Option.bind_eq_bind, Option.bind_eq_some_iff] at h
    obtain ⟨g₁, h₁, hrest⟩ := h
    obtain ⟨hle, hfit⟩ := balanceStage_le h₁
    obtain ⟨hle', hall⟩ := balance_le hrest
    refine ⟨hle.trans hle', fun s hs => ?_⟩
    rcases List.mem_cons.mp hs with rfl | hs
    · exact hfit.trans (Nat.mul_le_mul_left _ hle')
    · exact hall s hs

/-- **The group count covers every stage**: no stage has more Mamba layers than groups times MLA
layers. -/
theorem balancedGroupCount_le {g : Nat} (hmla : 0 < mla.length)
    (h : e.balancedGroupCount mamba mla = some g) :
    mamba.length ≤ mla.length * g ∧ (e.stages.length ≠ 1 → ∀ stage ∈ e.stages,
      mamba.countP (e.onStage stage) ≤ mla.countP (e.onStage stage) * g) := by
  unfold Engine.balancedGroupCount at h
  dsimp only at h
  split_ifs at h with hone
  · obtain rfl := Option.some.inj h
    exact ⟨le_of_cdiv_le hmla (le_refl _), fun hne => absurd hone hne⟩
  · obtain ⟨hle, hall⟩ := balance_le h
    exact ⟨le_of_cdiv_le hmla hle, fun _ => hall⟩

/-! ## What the groups are -/

/-- The tail groups: none, or one with its pages padded to the indexer page. -/
def TailGroups (idxPage : Nat) (tails : List (N × Spec A)) (groups : List (Group N A)) : Prop :=
  tails = [] ∧ groups = [] ∨
    ∃ block, groups = [⟨(pad idxPage tails).map Prod.fst,
    .uniform block (pad idxPage tails), false⟩]

/-- The drafter groups: none, or one whose unpadded pages are MLA pages. -/
def DrafterGroups (e : Engine N A) (mlaPage : Nat) (drafters : List (N × Spec A))
    (groups : List (Group N A)) :
    Prop :=
  drafters = [] ∧ groups = [] ∨
    ∃ size block, (∀ x ∈ fit size drafters, e.page x.2 = mlaPage) ∧
      groups = [⟨(fit size drafters).map Prod.fst, .uniform block (fit size drafters), true⟩]

/-- The groups that the grouping makes of accepted specs. -/
structure Grouped (e : Engine N A) (l : LayerSpecs N A) (groups : List (Group N A)) where
  block : Nat
  idxPage : Nat
  mlaPage : Nat
  /-- The spec of every Mamba layer. -/
  state : Spec A
  count : Nat
  tails : List (Group N A)
  drafters : List (Group N A)
  attention : ∀ x ∈ l.attn, x.2.isAttention = true ∧ x.2.pageSizePadded = none
  idx_page : ∀ x ∈ l.indexers, e.page x.2 = idxPage
  mla_page : ∀ x ∈ l.mlas, e.page x.2 = mlaPage
  mla_pos : 0 < l.mlas.length
  mamba_ne : l.mamba ≠ []
  mamba_eq : ∀ x ∈ l.mamba, x.2 = state
  mamba_fits : e.unpadded state ≤ mlaPage
  counted : e.balancedGroupCount (l.mamba.map Prod.fst) (l.mlas.map Prod.fst) = some count
  tail_groups : TailGroups idxPage l.tails tails
  drafter_groups : DrafterGroups e mlaPage l.drafters drafters
  groups_eq : groups = ⟨l.attn.map Prod.fst, .uniform block l.attn, false⟩ :: (tails ++
    (deal count (l.mamba.map Prod.fst)).map
      (fun names => ⟨names, .single { state with pageSizePadded := some mlaPage }, false⟩) ++
        drafters)

theorem tailGroups_ok {idxPage : Nat} {tails : List (N × Spec A)} {groups : List (Group N A)}
    (h : e.tailGroups idxPage tails = .ok groups) : TailGroups idxPage tails groups := by
  unfold Engine.tailGroups at h
  by_cases ht : tails = []
  · rw [if_pos ht] at h
    exact Or.inl ⟨ht, (pure_ok.mp h).symm⟩
  · rw [if_neg ht] at h
    simp only [bind_ok, pure_ok] at h
    obtain ⟨block, -, hgroups⟩ := h
    exact Or.inr ⟨block, hgroups.symm⟩

theorem drafterGroups_ok [DecidableEq A] {mlaPage targetBlock numMla : Nat}
    {drafters : List (N × Spec A)} {groups : List (Group N A)}
    (h : e.drafterGroups mlaPage targetBlock numMla drafters = .ok groups) :
    DrafterGroups e mlaPage drafters groups := by
  unfold Engine.drafterGroups at h
  cases drafters with
  | nil => exact Or.inl ⟨rfl, (pure_ok.mp h).symm⟩
  | cons x drafters =>
    simp only [bind_ok, guarded_ok, pure_ok, not_not] at h
    obtain ⟨-, -, -, -, -, -, -, -, -, hpage, block, -, hgroups⟩ := h
    exact Or.inr ⟨_, block, hpage, hgroups.symm⟩

/-- **What the groups are** when the grouping accepts the specs. -/
theorem glm5Groups_ok [DecidableEq A] {l : LayerSpecs N A} {groups : List (Group N A)}
    (h : e.glm5Groups l = .ok (some groups)) : Nonempty (Grouped e l groups) := by
  unfold Engine.glm5Groups at h
  by_cases hkind : l.mamba = [] ∨ ¬ ∀ x ∈ l.attn, x.2.isAttention = true
  · rw [if_pos hkind] at h
    exact nomatch pure_ok.mp h
  rw [if_neg hkind] at h
  by_cases hidx : l.indexers = []
  · rw [if_pos hidx] at h
    exact nomatch pure_ok.mp h
  rw [if_neg hidx] at h
  push Not at hkind
  obtain ⟨hmamba, hattn⟩ := hkind
  simp only [bind_ok, guarded_ok, asserted_ok, pure_ok, not_not, Option.some.injEq] at h
  obtain ⟨hpad, idxPage, hidxPage, mlaPage, hmlaPage, block, -, tails, htails, mambas, hmambas,
    drafters, hdrafters, heq⟩ := h
  -- the Mamba groups: one spec, dealt to a count of groups that covers every stage
  unfold Engine.mambaGroups at hmambas
  obtain ⟨x, rest, hx⟩ := List.exists_cons_of_ne_nil hmamba
  simp only [hx] at hmambas
  rw [← hx] at hmambas
  simp only [guarded_ok, not_not, not_lt] at hmambas
  obtain ⟨hall, hfits, hmambas⟩ := hmambas
  cases hcount : e.balancedGroupCount (l.mamba.map Prod.fst) (l.mlas.map Prod.fst) with
  | none =>
    rw [hcount] at hmambas
    cases hmambas
  | some g =>
    rw [hcount] at hmambas
    obtain rfl := pure_ok.mp hmambas
    obtain ⟨hne, hmla⟩ := only_eq_some hmlaPage
    exact ⟨{
      block, idxPage, mlaPage, state := x.2, count := g, tails, drafters
      attention := fun y hy => ⟨hattn y hy, hpad y hy⟩
      idx_page := fun y hy => (only_eq_some hidxPage).2 _ (List.mem_map_of_mem hy)
      mla_page := fun y hy => hmla _ (List.mem_map_of_mem hy)
      mla_pos := List.length_pos_iff.mpr fun hnil => hne (by rw [hnil]; rfl)
      mamba_ne := hmamba
      mamba_eq := hall
      mamba_fits := hfits
      counted := hcount
      tail_groups := tailGroups_ok htails
      drafter_groups := drafterGroups_ok hdrafters
      groups_eq := heq.symm }⟩

end Ringside.KvLayout

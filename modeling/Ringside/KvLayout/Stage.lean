import Ringside.KvLayout.Placement

/-!
# The groups of a pipeline stage

Each worker projects the groups to the layers that it holds, and computes its layout from them. The
projection is the engine's; this file has what the layout relies on of it, and what the groups of
`Grouping` become.

* `Projected`: a projected group keeps the names of the worker's layers in their order, and their
  specs (`SpecKept`); a group may become empty.
* `HoldsStage`: the worker holds everything if there is one stage, else the layers whose index lies
  in its stage.
* `Staged` are the groups of a stage with the specs that the grouping gave them, in the form that
  `Placement` takes.

Results:
* `groups_nodup`: the grouping puts every layer into one group.
* `mamba_slots`: on every stage a Mamba group has at most as many layers as there are MLA layers.
* `exists_staged`: the groups of a stage, whatever layers the worker holds.
-/

namespace Ringside.KvLayout

open Columns

variable {N A : Type} [DecidableEq N] {e : Engine N A}

/-! ## Projections -/

/-- The spec of a projected group: it keeps the specs of the layers that stay. -/
inductive SpecKept (names : List N) : GroupSpec N A → GroupSpec N A → Prop
  | uniform {block block' : Nat} {specs specs' : List (N × Spec A)} (sub : specs'.Sublist specs)
      (kept : ∀ x ∈ specs, x.1 ∈ names → x ∈ specs') :
      SpecKept names (.uniform block specs) (.uniform block' specs')
  | single (spec : Spec A) : SpecKept names (.single spec) (.single spec)

/-- What the layout relies on of `_project_kv_cache_groups_to_worker`, for a worker that holds the
layers `worker`. -/
structure Projected (worker : N → Bool) (g g' : Group N A) : Prop where
  names : g'.layerNames = g.layerNames.filter worker
  spec : SpecKept g'.layerNames g.spec g'.spec

/-- The worker holds a stage of the pipeline: everything if there is one stage, else the layers
whose index lies in the stage. -/
def HoldsStage (e : Engine N A) (l : LayerSpecs N A) (worker : N → Bool) : Prop :=
  if e.stages.length = 1 then ∀ x ∈ l.mamba ++ l.mlas, worker x.1 = true
  else ∃ stage ∈ e.stages, ∀ x ∈ l.mamba ++ l.mlas, worker x.1 = e.onStage stage x.1

theorem lookup_of_nodup : ∀ {specs : List (N × Spec A)}, (specs.map Prod.fst).Nodup →
    ∀ {x}, x ∈ specs →
    specs.lookup x.1 = some x.2
  | [], _, _, h => nomatch h
  | (n, s) :: specs, hnd, x, h => by
    rw [List.map_cons, List.nodup_cons] at hnd
    rcases List.mem_cons.mp h with rfl | h
    · exact List.lookup_cons_self
    · have hne : x.1 ≠ n := fun heq => hnd.1 (List.mem_map.mpr ⟨x, h, heq⟩)
      rw [List.lookup_cons, beq_false_of_ne hne]
      exact lookup_of_nodup hnd.2 h

/-- A projected uniform group has the layers of the worker, with their specs. -/
theorem Projected.entries_eq {worker : N → Bool} {src : List (N × Spec A)} {block : Nat}
    {eagle : Bool}
    {g' : Group N A} (h : Projected worker ⟨src.map Prod.fst, .uniform block src, eagle⟩ g')
    (hsrc : (src.map Prod.fst).Nodup) : g'.entries = src.filter fun x => worker x.1 := by
  obtain ⟨hnames, hspec⟩ := h
  cases hg : g'.spec with
  | single s => rw [hg] at hspec; cases hspec
  | uniform block' specs' =>
    rw [hg] at hspec
    obtain ⟨sub, kept⟩ := hspec
    simp only [Group.entries, hg, Uniform.entries]
    have hfilter : g'.layerNames = (src.filter fun x => worker x.1).map Prod.fst := by
      rw [hnames, List.filter_map]
      rfl
    conv_lhs => rw [hfilter, List.filterMap_map]
    refine (List.filterMap_congr fun x hx => ?_).trans List.filterMap_some
    have hmem : x ∈ specs' := kept x (List.mem_of_mem_filter hx) (hfilter ▸ List.mem_map_of_mem hx)
    simp only [Function.comp, lookup_of_nodup (hsrc.sublist (sub.map Prod.fst)) hmem,
      Option.map_some]

omit [DecidableEq N] in
/-- And only specs of its class. -/
theorem Projected.uniformOf {worker : N → Bool} {src : List (N × Spec A)} {names : List N}
    {block : Nat} {eagle : Bool} {g' : Group N A} {isClass : Spec A → Bool}
    (h : Projected worker ⟨names, .uniform block src, eagle⟩ g')
    (hsrc : ∀ x ∈ src, isClass x.2 = true) :
    g'.UniformOf isClass := by
  obtain ⟨-, hspec⟩ := h
  cases hg : g'.spec with
  | single s => rw [hg] at hspec; cases hspec
  | uniform block' specs' =>
    rw [hg] at hspec
    obtain ⟨sub, -⟩ := hspec
    exact ⟨block', specs', hg, fun x hx => hsrc x (sub.subset hx)⟩

omit [DecidableEq N] in
theorem forall₂_append {R : Group N A → Group N A → Prop} : ∀ {a b c : List (Group N A)},
    List.Forall₂ R (a ++ b) c → ∃ c₁ c₂, c = c₁ ++ c₂ ∧ List.Forall₂ R a c₁ ∧ List.Forall₂ R b c₂
  | [], _, c, h => ⟨[], c, rfl, .nil, h⟩
  | _ :: _, _, _, .cons hx h => by
    obtain ⟨c₁, c₂, rfl, h₁, h₂⟩ := forall₂_append h
    exact ⟨_ :: c₁, c₂, rfl, .cons hx h₁, h₂⟩

/-! ## Every layer is in one group -/

variable {l : LayerSpecs N A} {groups : List (Group N A)}

omit [DecidableEq N] in
theorem names_pad (page : Nat) (layers : List (N × Spec A)) :
    (pad page layers).map Prod.fst = layers.map Prod.fst := by
  rw [pad, List.map_map]
  rfl

omit [DecidableEq N] in
theorem names_fit (size : Nat) (layers : List (N × Spec A)) :
    (fit size layers).map Prod.fst = layers.map Prod.fst := by
  rw [fit, List.map_map]
  rfl

omit [DecidableEq N] in
/-- The classes of the grouping part the layers. -/
theorem classes_perm (l : LayerSpecs N A) : (l.attn ++ (l.tails ++ (l.mamba ++ l.drafters))).Perm
    l.entries := by
  have hw := List.filter_append_perm (fun x => x.2.isWindow) l.entries
  have hm := List.filter_append_perm (fun x => x.2.isMamba) (l.entries.filter fun x =>
    !x.2.isWindow)
  have ht := List.filter_append_perm (fun x => x.2.isTail)
    ((l.entries.filter fun x => !x.2.isWindow).filter fun x => !x.2.isMamba)
  -- the classes exclude each other
  have hclass : ∀ s : Spec A, (s.isMamba && !s.isWindow) = s.isMamba ∧
      (s.isTail && (!s.isMamba && !s.isWindow)) = s.isTail := by
    intro s
    unfold Spec.isMamba Spec.isTail Spec.isWindow
    cases s.kind <;> exact ⟨rfl, rfl⟩
  simp only [List.filter_filter, hclass] at hw hm ht
  have hattn :
      (l.entries.filter fun x => !x.2.isTail && (!x.2.isMamba && !x.2.isWindow)) = l.attn := by
    refine List.filter_congr fun x _ => ?_
    cases x.2.isTail <;> cases x.2.isMamba <;> cases x.2.isWindow <;> rfl
  rw [hattn] at ht
  calc l.attn ++ (l.tails ++ (l.mamba ++ l.drafters))
      _ |>.Perm (l.tails ++ l.attn ++ (l.mamba ++ l.drafters)) := by
        rw [← List.append_assoc]
        exact List.perm_append_comm.append_right _
      _ |>.Perm ((l.entries.filter fun x => !x.2.isMamba && !x.2.isWindow) ++
        (l.mamba ++ l.drafters)) :=
        ht.append_right _
      _ |>.Perm (l.mamba ++ (l.entries.filter fun x => !x.2.isMamba && !x.2.isWindow) ++
        l.drafters) := by
        rw [← List.append_assoc]
        exact List.perm_append_comm.append_right _
      _ |>.Perm ((l.entries.filter fun x => !x.2.isWindow) ++ l.drafters) := hm.append_right _
      _ |>.Perm l.entries := List.perm_append_comm.trans hw

omit [DecidableEq N] in
theorem Grouped.count_pos (G : Grouped e l groups) : 0 < G.count := by
  have hlen : 0 < (l.mlas.map Prod.fst).length := by
    rw [List.length_map]
    exact G.mla_pos
  have hle := (balancedGroupCount_le hlen G.counted).1
  have hpos : 0 < (l.mamba.map Prod.fst).length := by
    rw [List.length_map]
    exact List.length_pos_iff.mpr G.mamba_ne
  rcases Nat.eq_zero_or_pos G.count with h0 | h0
  · rw [h0] at hle
    omega
  · exact h0

omit [DecidableEq N] in
/-- **The grouping puts every layer into one group.** -/
theorem groups_nodup (G : Grouped e l groups) : (groups.flatMap Group.layerNames).Nodup := by
  have htails : G.tails.flatMap Group.layerNames = l.tails.map Prod.fst := by
    rcases G.tail_groups with ⟨hnil, h⟩ | ⟨block, h⟩
    · rw [h, hnil]
      rfl
    · rw [h, List.flatMap_singleton, names_pad]
  have hdrafters : G.drafters.flatMap Group.layerNames = l.drafters.map Prod.fst := by
    rcases G.drafter_groups with ⟨hnil, h⟩ | ⟨size, block, -, h⟩
    · rw [h, hnil]
      rfl
    · rw [h, List.flatMap_singleton, names_fit]
  have hmambas : ((deal G.count (l.mamba.map Prod.fst)).map fun names =>
      (⟨names, .single { G.state with pageSizePadded := some G.mlaPage }, false⟩ :
        Group N A)).flatMap
        Group.layerNames = (deal G.count (l.mamba.map Prod.fst)).flatten := by
    rw [List.flatMap_map, List.flatMap_def]
    exact congrArg List.flatten (List.map_id _)
  have hperm : (groups.flatMap Group.layerNames).Perm (l.entries.map Prod.fst) := by
    rw [G.groups_eq, List.flatMap_cons, List.flatMap_append, List.flatMap_append, htails,
      hmambas, hdrafters, List.append_assoc]
    refine List.Perm.trans ?_ ((classes_perm l).map Prod.fst)
    rw [List.map_append, List.map_append, List.map_append]
    exact (((deal_perm G.count_pos _).append_right _).append_left _).append_left _
  exact hperm.nodup_iff.mpr l.names_nodup

omit [DecidableEq N] in
/-- **A Mamba group fits into the slots of every stage**: it has at most as many layers there as
there are MLA layers. -/
theorem mamba_slots (G : Grouped e l groups) {worker : N → Bool}
    (hsorted : (l.entries.map Prod.fst).Pairwise fun m n => e.layerIndex m ≤ e.layerIndex n)
    (hstage : HoldsStage e l worker) {k : Nat} {hand : List N}
    (hhand : (deal G.count (l.mamba.map Prod.fst))[k]? = some hand) :
    (hand.filter worker).length ≤ (l.mlas.filter fun x => worker x.1).length := by
  have hk : k < G.count := by
    have := (List.getElem?_eq_some_iff.mp hhand).1
    rwa [length_deal] at this
  have hmla : 0 < (l.mlas.map Prod.fst).length := by
    rw [List.length_map]
    exact G.mla_pos
  obtain ⟨hone, hall⟩ := balancedGroupCount_le hmla G.counted
  unfold HoldsStage at hstage
  split_ifs at hstage with hstages
  · -- one stage holds everything
    have hw : ∀ x ∈ l.mlas, worker x.1 = true := fun x hx => hstage x (List.mem_append_right _ hx)
    rw [List.filter_eq_self.mpr hw]
    refine deal_window (a := []) (w := l.mamba.map Prod.fst) (c := []) hk (by simpa using hhand)
      (by simp) (by simp) ?_
    simpa only [List.length_map] using hone
  · -- the layers of a stage stand in a row
    obtain ⟨stage, hin, hstage⟩ := hstage
    have hsub : (l.mamba.map Prod.fst).Sublist (l.entries.map Prod.fst) :=
      List.filter_sublist.map Prod.fst
    obtain ⟨a, w, c, hsplit, ha, hw, hc⟩ := exists_window e.layerIndex stage.1 stage.2
      (hsorted.sublist hsub)
    have hworker : ∀ n ∈ l.mamba.map Prod.fst, worker n = e.onStage stage n := by
      intro n hn
      obtain ⟨x, hx, rfl⟩ := List.mem_map.mp hn
      exact hstage x (List.mem_append_left _ hx)
    have hout : ∀ n ∈ l.mamba.map Prod.fst, ¬ (stage.1 ≤ e.layerIndex n ∧
      e.layerIndex n < stage.2) → worker n = false := by
      intro n hn hno
      rw [hworker n hn, Engine.onStage, ← Bool.decide_and]
      exact decide_eq_false hno
    have hcount : (l.mamba.map Prod.fst).countP (e.onStage stage) = w.length := by
      have hzero : ∀ {b : List N},
        (∀ x ∈ b, ¬ (stage.1 ≤ e.layerIndex x ∧ e.layerIndex x < stage.2)) →
          b.countP (e.onStage stage) = 0 := by
        intro b hb
        refine List.countP_eq_zero.mpr fun x hx => ?_
        rw [Engine.onStage, ← Bool.decide_and, decide_eq_true_eq]
        exact hb x hx
      rw [hsplit, List.countP_append, List.countP_append, hzero fun x hx h =>
        absurd (ha x hx) (by omega), hzero hc, Nat.zero_add, Nat.add_zero, List.countP_eq_length]
      intro x hx
      rw [Engine.onStage, ← Bool.decide_and, decide_eq_true_eq]
      exact hw x hx
    have hmlas : (l.mlas.map Prod.fst).countP (e.onStage stage) =
      (l.mlas.filter fun x => worker x.1).length := by
      rw [List.countP_map, ← List.countP_eq_length_filter]
      exact List.countP_congr fun x hx => by
        rw [hstage x (List.mem_append_right _ hx)]
        rfl
    have hle := hall hstages stage hin
    rw [hcount, hmlas] at hle
    have hmem : ∀ {n}, n ∈ a ++ w ++ c → n ∈ l.mamba.map Prod.fst := fun h => hsplit ▸ h
    rw [hsplit] at hhand
    refine deal_window hk hhand (fun x hx => ?_) (fun x hx => ?_) hle
    · exact hout x (hmem (by simp [hx])) fun h => absurd (ha x hx) (by omega)
    · exact hout x (hmem (by simp [hx])) (hc x hx)


/-! ## The groups of a stage -/

/-- The groups of a stage, with the specs that the grouping gave them. -/
structure Staged (G : Grouped e l groups) (worker : N → Bool) (groups' : List (Group N A)) extends
    Shape groups' where
  attn_entries : attn.entries = l.attn.filter fun x => worker x.1
  tail_entries : ∀ t, tail = some t → t.entries = (pad G.idxPage l.tails).filter fun x => worker x.1
  mamba_of : ∀ g ∈ mambas, g.spec = .single { G.state with pageSizePadded := some G.mlaPage } ∧
    ∃ (k : Nat) (hand : List N), (deal G.count (l.mamba.map Prod.fst))[k]? = some hand ∧
      g.layerNames = hand.filter worker

omit [DecidableEq N] in
/-- The projection of at most one group. -/
theorem forall₂_optional {R : Group N A → Group N A → Prop} {a b : List (Group N A)}
    (h : List.Forall₂ R a b)
    (ha : a.length ≤ 1) : ∃ o : Option (Group N A), b = o.toList ∧ ∀ g', o = some g' →
      ∃ g ∈ a, R g g' := by
  cases h with
  | nil => exact ⟨none, rfl, nofun⟩
  | @cons g g' a b hg hrest =>
    cases hrest with
    | nil =>
      refine ⟨some g', rfl, fun x hx => ?_⟩
      obtain rfl := Option.some.inj hx
      exact ⟨g, List.mem_cons_self, hg⟩
    | cons => simp at ha

omit [DecidableEq N] in
theorem projected_sublist {worker : N → Bool} : ∀ {a b : List (Group N A)},
    List.Forall₂ (Projected worker) a b →
    (b.flatMap Group.layerNames).Sublist (a.flatMap Group.layerNames)
  | [], _, .nil => List.Sublist.refl _
  | _ :: _, _ :: _, .cons hg h => by
    rw [List.flatMap_cons, List.flatMap_cons, hg.names]
    exact List.filter_sublist.append (projected_sublist h)

/-- **The groups of a stage**, whatever layers the worker holds. -/
theorem exists_staged (G : Grouped e l groups) {worker : N → Bool} {groups' : List (Group N A)}
    (h : List.Forall₂ (Projected worker) groups groups') : Nonempty (Staged G worker groups') := by
  have hnodup := (groups_nodup G).sublist (projected_sublist h)
  have hattnNd : (l.attn.map Prod.fst).Nodup :=
    l.names_nodup.sublist (List.filter_sublist.map Prod.fst)
  have htailNd : ((pad G.idxPage l.tails).map Prod.fst).Nodup := by
    rw [names_pad]
    exact l.names_nodup.sublist (List.filter_sublist.map Prod.fst)
  rw [G.groups_eq] at h
  obtain ⟨⟩ | ⟨hattn, hrest⟩ := h
  rename_i attn rest
  obtain ⟨front, drafters, rfl, hfront, hdrafters⟩ := forall₂_append hrest
  obtain ⟨tails, mambas, rfl, htails, hmambas⟩ := forall₂_append hfront
  -- the tail
  have htailLen : G.tails.length ≤ 1 := by
    rcases G.tail_groups with ⟨-, h⟩ | ⟨block, h⟩ <;> simp [h]
  obtain ⟨tail, rfl, htail⟩ := forall₂_optional htails htailLen
  have htail : ∀ t, tail = some t → ∃ block, Projected worker
      ⟨(pad G.idxPage l.tails).map Prod.fst, .uniform block (pad G.idxPage l.tails), false⟩ t := by
    intro t ht
    obtain ⟨g, hg, hproj⟩ := htail t ht
    rcases G.tail_groups with ⟨-, h⟩ | ⟨block, h⟩
    · rw [h] at hg
      cases hg
    · rw [h, List.mem_singleton] at hg
      exact ⟨block, hg ▸ hproj⟩
  -- the drafter
  have hdrafterLen : G.drafters.length ≤ 1 := by
    rcases G.drafter_groups with ⟨-, h⟩ | ⟨size, block, -, h⟩ <;> simp [h]
  obtain ⟨drafter, rfl, hdrafter⟩ := forall₂_optional hdrafters hdrafterLen
  have hdrafter : ∀ d, drafter = some d → ∃ size block, Projected worker
      ⟨(fit size l.drafters).map Prod.fst, .uniform block (fit size l.drafters), true⟩ d := by
    intro d hd
    obtain ⟨g, hg, hproj⟩ := hdrafter d hd
    rcases G.drafter_groups with ⟨-, h⟩ | ⟨size, block, -, h⟩
    · rw [h] at hg
      cases hg
    · rw [h, List.mem_singleton] at hg
      exact ⟨size, block, hg ▸ hproj⟩
  -- the Mamba groups
  have hmamba : ∀ g ∈ mambas, g.spec = .single { G.state with pageSizePadded := some G.mlaPage } ∧
      ∃ (k : Nat) (hand : List N), (deal G.count (l.mamba.map Prod.fst))[k]? = some hand ∧
        g.layerNames = hand.filter worker := by
    intro g hg
    obtain ⟨k, hk⟩ := List.getElem?_of_mem hg
    rw [List.forall₂_iff_get] at hmambas
    obtain ⟨hlen, hget⟩ := hmambas
    obtain ⟨hk', rfl⟩ := List.getElem?_eq_some_iff.mp hk
    have hproj := hget k (hlen ▸ hk') hk'
    rw [List.length_map] at hlen
    simp only [List.get_eq_getElem, List.getElem_map] at hproj
    obtain ⟨hnames, hspec⟩ := hproj
    refine ⟨?_, k, _, List.getElem?_eq_getElem (hlen ▸ hk'), hnames⟩
    cases hs : mambas[k].spec with
    | uniform => rw [hs] at hspec; cases hspec
    | single s =>
      rw [hs] at hspec
      cases hspec
      rfl
  have hstate : ({ G.state with pageSizePadded := some G.mlaPage } : Spec A).isMamba = true := by
    obtain ⟨x, hx⟩ := List.exists_mem_of_ne_nil _ G.mamba_ne
    have := (List.mem_filter.mp hx).2
    rw [G.mamba_eq x hx] at this
    exact this
  have htailEq : ∀ t, tail = some t → t.entries = (pad G.idxPage l.tails).filter fun x =>
    worker x.1 := by
    intro t ht
    obtain ⟨block, hproj⟩ := htail t ht
    exact hproj.entries_eq htailNd
  refine ⟨{
    attn, tail, mambas, drafter
    groups_eq := by rw [List.append_assoc]
    attn_uniform := hattn.uniformOf fun x hx => (G.attention x hx).1
    tail_uniform := ?_
    drafter_uniform := ?_
    mamba_single := fun g hg => ⟨_, (hmamba g hg).1, hstate⟩
    specced := ?_
    nodup := hnodup
    attn_entries := hattn.entries_eq hattnNd
    tail_entries := htailEq
    mamba_of := hmamba }⟩
  · intro t ht
    obtain ⟨block, hproj⟩ := htail t ht
    refine hproj.uniformOf fun x hx => ?_
    obtain ⟨y, hy, rfl⟩ := List.mem_map.mp hx
    exact (List.mem_filter.mp hy).2
  · intro d hd
    obtain ⟨size, block, hproj⟩ := hdrafter d hd
    refine hproj.uniformOf fun x hx => ?_
    obtain ⟨y, hy, rfl⟩ := List.mem_map.mp hx
    exact (List.mem_filter.mp hy).2
  · have hall : ∀ {src : List (N × Spec A)} {g : Group N A},
      g.entries = src.filter (fun x => worker x.1) →
        g.layerNames = (src.map Prod.fst).filter worker →
        g.entries.map Prod.fst = g.layerNames := by
      intro src g hentries hnames
      rw [hentries, hnames, List.filter_map]
      rfl
    intro g hg
    rcases List.mem_cons.mp hg with rfl | hg
    · exact hall (hattn.entries_eq hattnNd) hattn.names
    rcases List.mem_append.mp hg with hg | hg
    · rcases List.mem_append.mp hg with hg | hg
      · obtain ⟨block, hproj⟩ := htail g (Option.mem_toList.mp hg)
        exact hall (hproj.entries_eq htailNd) hproj.names
      · simp only [Group.entries, (hmamba g hg).1, List.map_map]
        exact List.map_id _
    · obtain ⟨size, block, hproj⟩ := hdrafter g (Option.mem_toList.mp hg)
      have hnd : ((fit size l.drafters).map Prod.fst).Nodup := by
        rw [names_fit]
        exact l.names_nodup.sublist (List.filter_sublist.map Prod.fst)
      exact hall (hproj.entries_eq hnd) hproj.names

end Ringside.KvLayout

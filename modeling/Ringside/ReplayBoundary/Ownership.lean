import Ringside.ReplayBoundary.Integrity

/-!
# Which boundary a block was last recorded for

`_valid` compares the tag of a block with the recording that the entry lists. A tag is replaced when
its block is recorded again or another block is moved to it, by whatever boundary, and the pool may
have mapped the block under the first boundary's hash again by then. `Owned` says what a tag tells
of the history: as long as nothing but the boundary itself recorded or took over a block it lists,
the tag is the one of its recording.

* `owners` is an account of the history kept beside the registry, which the registry does not have:
  the boundary of the last record of each block, or of the last move to it (`ownStep`,
  `lastBoundary`).
* A move takes along the boundary that `moved` finds by the source's tag (`movedKey`), and leaves
  the source without one.
* The pool is as in `Integrity`: known by its contract, and changed at will between the calls.

Results:
* `Owned.stepOk`: one event keeps the tags at the last recording.
* `owned_after`: so does every run.
* `admit_mapped_iff`: a boundary whose blocks are all mapped is admitted exactly when the registry
  lists of it what is handed over, and no other boundary has recorded or taken over any of it since.
* `native_boundary_refused`: a mapped boundary that is not: its block was recorded for another one
  in between, and cached again by the pool itself.
-/

namespace Ringside.ReplayBoundary

open Ringside.Run

set_option linter.unusedSectionVars false

variable {Pool Blk Key GKey : Type} [DecidableEq Key] [DecidableEq Blk] [DecidableEq GKey]

section Owners

variable (api : BlockPool Pool Blk GKey) (cfg : Config Key GKey)

/-- The boundary whose partial entry `moved` takes along, if it takes one. -/
def movedKey (s : Registry Pool Blk Key) (src : Blk) (groupId : Nat) : Option Key := do
  let tag ← s.tags.get? (api.blockId src)
  let e ← s.entries.get? tag.key
  let r ← e.blocks.get? (api.blockId src)
  if r.groupId ≠ groupId ∨ r.block ≠ src ∨ r.epoch ≠ tag.epoch then none else some tag.key

/-- The boundary of the last record of each block, or of the last move to it; a block that was moved
away has none. -/
def owners (s : Registry Pool Blk Key) (o : Nat → Option Key) : Event Pool Blk Key →
    Nat → Option Key
  | .record key _ _ block => Function.update o (api.blockId block) (some key)
  | .moved src dst groupId =>
    match movedKey api s src groupId with
    | some key =>
      Function.update (Function.update o (api.blockId dst) (some key)) (api.blockId src) none
    | none => o
  | _ => o

/-- One event, with the boundaries before it. -/
def ownStep (x : Except (Fault GKey) (Registry Pool Blk Key) × (Nat → Option Key))
    (ev : Event Pool Blk Key) :
    Except (Fault GKey) (Registry Pool Blk Key) × (Nat → Option Key) :=
  (step api cfg x.1 ev, match x.1 with
    | .ok s => owners api s x.2 ev
    | .error _ => x.2)

/-- The boundary each block was last recorded for or moved to in a history. -/
def lastBoundary (p₀ : Pool) (h : List (Event Pool Blk Key)) : Nat → Option Key :=
  (run (ownStep api cfg) (.ok ⟨Dict.empty, Dict.empty, 0, p₀⟩, fun _ => none) h).2

end Owners

variable {api : BlockPool Pool Blk GKey} {cfg : Config Key GKey} {s s' : Registry Pool Blk Key}
    {o : Nat → Option Key}

/-- The run beside the boundaries is the registry's. -/
theorem after_eq (p₀ : Pool) (h : List (Event Pool Blk Key)) :
    (run (ownStep api cfg) (.ok ⟨Dict.empty, Dict.empty, 0, p₀⟩, fun _ => none) h).1 =
      after api cfg p₀ h := by
  induction h using List.reverseRecOn with
  | nil => rfl
  | append_singleton h ev ih =>
    rw [run_snoc, ownStep, ih, after, after, run_snoc]

/-- **Tags follow the last recording.** -/
structure Owned (s : Registry Pool Blk Key) (o : Nat → Option Key) : Prop where
  listed : ∀ {key e b r}, s.entries.get? key = some e → e.blocks.get? b = some r → o b = some key →
    s.tags.get? b = some ⟨r.epoch, e.key, e.tokens⟩
  tagged : ∀ {b t}, s.tags.get? b = some t → o b = some t.key

/-- Dropping entries leaves the tags of the others. -/
theorem Owned.dropping {es : List (Entry Key Blk)} (hs : Sound api s) (h : Owned s o)
    (hd : Dropping api cfg s s' es) :
    Owned s' o where
  listed he hr ho := by
    have he' := hd.get?_le he
    refine hd.tag_kept (h.listed he' hr ho) fun e'' he'' hk => ?_
    rw [hs.entry_key he'] at hk
    have hgone := hd.dropped e'' he''
    rw [hk, he] at hgone
    cases hgone
  tagged ht := h.tagged (hd.tag_le ht)

/-- A recorded block has the tag of its recording. -/
theorem Owned.enter (h : Owned s o) (hs : Sound api s) (key : Key) (tokens groupId : Nat)
    (block : Blk) (ht : ∀ e, s.entries.get? key = some e → e.tokens = tokens) :
    Owned (enter api s key tokens groupId block)
      (Function.update o (api.blockId block) (some key)) := by
  let e₀ : Entry Key Blk := (s.entries.get? key).getD ⟨key, tokens, Dict.empty⟩
  have hkey : e₀.key = key ∧ e₀.tokens = tokens := by
    cases hk : s.entries.get? key with
    | none => simp [e₀, hk]
    | some e => simpa [e₀, hk] using ⟨hs.entry_key hk, ht e hk⟩
  have hold : ∀ {b r}, e₀.blocks.get? b = some r → s.entries.get? key = some e₀ := by
    intro b r h
    cases hk : s.entries.get? key with
    | none => simp [e₀, hk] at h
    | some e => simp [e₀, hk]
  refine ⟨fun {k e b r} he hr ho => ?_, fun {b t} htag => ?_⟩
  · by_cases hb : b = api.blockId block
    · subst hb
      rw [Function.update_self, Option.some.injEq] at ho
      subst ho
      rw [ReplayBoundary.enter, Dict.get?_moveToEnd, Dict.get?_set_self, Option.some.injEq] at he
      subst he
      rw [Dict.get?_set_self, Option.some.injEq] at hr
      subst hr
      rw [ReplayBoundary.enter, Dict.get?_set_self]
      exact congrArg some (by rw [Tag.mk.injEq]; exact ⟨rfl, hkey.1.symm, hkey.2.symm⟩)
    · rw [Function.update_of_ne hb] at ho
      rw [ReplayBoundary.enter, Dict.get?_set_of_ne hb]
      rw [ReplayBoundary.enter, Dict.get?_moveToEnd] at he
      by_cases hk : k = key
      · subst hk
        rw [Dict.get?_set_self, Option.some.injEq] at he
        subst he
        have hr' : e₀.blocks.get? b = some r := (Dict.get?_set_of_ne hb).symm.trans hr
        have htag := h.listed (hold hr') hr' ho
        exact htag
      · rw [Dict.get?_set_of_ne hk] at he
        exact h.listed he hr ho
  · by_cases hb : b = api.blockId block
    · subst hb
      rw [ReplayBoundary.enter, Dict.get?_set_self, Option.some.injEq] at htag
      rw [Function.update_self, ← htag]
    · rw [ReplayBoundary.enter, Dict.get?_set_of_ne hb] at htag
      rw [Function.update_of_ne hb]
      exact h.tagged htag

variable (api) in
/-- `moved` by whether it takes a partial entry along. -/
theorem moved_cases (s : Registry Pool Blk Key) (src dst : Blk) (groupId : Nat) :
    movedKey api s src groupId = none ∧ moved api s src dst groupId = s ∨
      ∃ tag e, movedKey api s src groupId = some tag.key ∧
      s.tags.get? (api.blockId src) = some tag ∧ s.entries.get? tag.key = some e ∧
        moved api s src dst groupId = { s with
          entries := s.entries.set tag.key { e with
            blocks := (e.blocks.erase (api.blockId src)).set (api.blockId dst)
              ⟨groupId, dst, tag.epoch⟩ }
          tags := (s.tags.set (api.blockId dst) tag).erase (api.blockId src) } := by
  unfold movedKey moved
  cases htag : s.tags.get? (api.blockId src) with
  | none => exact Or.inl ⟨rfl, rfl⟩
  | some tag =>
    simp only [Option.bind_eq_bind, Option.bind_some]
    cases hent : s.entries.get? tag.key with
    | none => exact Or.inl ⟨rfl, rfl⟩
    | some e =>
      simp only [Option.bind_some]
      cases hrec : e.blocks.get? (api.blockId src) with
      | none => exact Or.inl ⟨rfl, rfl⟩
      | some r =>
        simp only [Option.bind_some]
        split_ifs
        · exact Or.inl ⟨rfl, rfl⟩
        · exact Or.inr ⟨tag, e, rfl, rfl, hent, rfl⟩

/-- A moved block takes the tag along, and the block it left has none. -/
theorem Owned.moved (h : Owned s o) (hs : Sound api s) (src dst : Blk) (groupId : Nat) :
    Owned (moved api s src dst groupId) (owners api s o (.moved src dst groupId)) := by
  rw [owners]
  obtain ⟨hkey, heq⟩ | ⟨tag, e, hkey, htag, he, heq⟩ := moved_cases api s src dst groupId
  · rw [hkey, heq]
    exact h
  rw [hkey, heq]
  dsimp only
  obtain ⟨e', -, he', htokens, -, -⟩ := hs.tag_live htag
  rw [he, Option.some.injEq] at he'
  subst he'
  refine ⟨fun {k e' b r} hk hr ho => ?_, fun {b t} ht => ?_⟩
  · -- a block that still has a boundary is not the one that was left
    have hsrc : b ≠ api.blockId src := by
      rintro rfl
      rw [Function.update_self] at ho
      cases ho
    rw [Function.update_of_ne hsrc] at ho
    rw [Dict.get?_erase_of_ne hsrc]
    by_cases hb : b = api.blockId dst
    · subst hb
      rw [Function.update_self, Option.some.injEq] at ho
      subst ho
      rw [Dict.get?_set_self, Option.some.injEq] at hk
      subst hk
      rw [Dict.get?_set_self, Option.some.injEq] at hr
      subst hr
      rw [Dict.get?_set_self]
      exact congrArg some (by rw [Tag.mk.injEq]; exact ⟨rfl, (hs.entry_key he).symm, htokens.symm⟩)
    · rw [Function.update_of_ne hb] at ho
      rw [Dict.get?_set_of_ne hb]
      by_cases hkey : k = tag.key
      · subst hkey
        rw [Dict.get?_set_self, Option.some.injEq] at hk
        subst hk
        have hr' : e.blocks.get? b = some r :=
          (Dict.get?_erase_of_ne hsrc).symm.trans ((Dict.get?_set_of_ne hb).symm.trans hr)
        have hlisted := h.listed he hr' ho
        exact hlisted
      · rw [Dict.get?_set_of_ne hkey] at hk
        exact h.listed hk hr ho
  · have hsrc : b ≠ api.blockId src := by
      rintro rfl
      rw [Dict.get?_erase_self] at ht
      cases ht
    rw [Dict.get?_erase_of_ne hsrc] at ht
    rw [Function.update_of_ne hsrc]
    by_cases hb : b = api.blockId dst
    · subst hb
      rw [Dict.get?_set_self, Option.some.injEq] at ht
      rw [Function.update_self, ht]
    · rw [Dict.get?_set_of_ne hb] at ht
      rw [Function.update_of_ne hb]
      exact h.tagged ht

/-- **One event** keeps the tags at the last recording. -/
theorem Owned.stepOk (h : Owned s o) (hs : Sound api s) (ev : Event Pool Blk Key)
    (hstep : stepOk api cfg s ev = .ok s') :
    Owned s' (owners api s o ev) := by
  cases ev with
  | moved src dst groupId =>
    obtain rfl := Except.ok.inj hstep
    exact h.moved hs src dst groupId
  | poolChange pool =>
    obtain rfl := Except.ok.inj hstep
    exact ⟨h.listed, h.tagged⟩
  | admitEntry key blocks groupIds =>
    obtain ⟨ok, s₁, ds, heq, hd, -⟩ := admit_ok hs cfg key blocks groupIds
    rw [ReplayBoundary.stepOk, heq] at hstep
    obtain rfl := Except.ok.inj hstep
    exact h.dropping hs hd
  | clear =>
    obtain ⟨s₁, heq, hd⟩ := clear_ok hs cfg
    rw [ReplayBoundary.stepOk, heq] at hstep
    obtain rfl := Except.ok.inj hstep
    exact h.dropping hs hd
  | record key tokens groupId block =>
    obtain ⟨s₂, s₁, ds₁, ds, heq, hd₁, -, ht₁, hd, -⟩ := record_ok hs cfg key tokens groupId block
    rw [ReplayBoundary.stepOk, heq] at hstep
    obtain rfl := Except.ok.inj hstep
    exact ((h.dropping hs hd₁).enter hd₁.sound key tokens groupId block ht₁).dropping
      (hd₁.sound.enter key tokens groupId block ht₁) hd

/-- **Tags follow the last recording on every run.** -/
theorem owned_after (api : BlockPool Pool Blk GKey) (cfg : Config Key GKey) (p₀ : Pool)
    (h : List (Event Pool Blk Key)) :
    ∃ s, after api cfg p₀ h = .ok s ∧ Sound api s ∧ Owned s (lastBoundary api cfg p₀ h) := by
  have hrun : ∃ s, (run (ownStep api cfg) (.ok ⟨Dict.empty, Dict.empty, 0, p₀⟩, fun _ => none)
    h).1 = .ok s ∧ Sound api s ∧ Owned s (lastBoundary api cfg p₀ h) := by
    refine invariant (P := fun x : Except (Fault GKey) (Registry Pool Blk Key) ×
      (Nat → Option Key) =>
      ∃ s, x.1 = .ok s ∧ Sound api s ∧ Owned s x.2)
      ⟨_, rfl, Sound.init p₀, fun he => by simp at he, fun ht => by simp at ht⟩
        (fun x ev hx => ?_) h
    obtain ⟨⟨_, o⟩, s, rfl, hs, ho⟩ := x, hx
    obtain ⟨s', hstep, hs', -⟩ := stepOk_ok hs cfg ev
    exact ⟨s', hstep, hs', ho.stepOk hs ev hstep⟩
  rwa [after_eq] at hrun

/-! ## Admitting a mapped boundary -/

/-- Nothing was dropped: the same entries, tags and pool. -/
structure Untouched (s s' : Registry Pool Blk Key) : Prop where
  entries : ∀ k, s'.entries.get? k = s.entries.get? k
  tags : s'.tags = s.tags
  pool : s'.pool = s.pool

/-- `admit` answers true, and then drops nothing, when it finds valid what the entry lists. -/
theorem admit_true_iff (s : Registry Pool Blk Key) (key : Key) (blocks : List Blk)
    (groupIds : List Nat) :
    (∃ s', admitEntry api cfg s key blocks groupIds = .ok (true, s') ∧ Untouched s s') ↔
      ∀ e, s.entries.get? key = some e → ∀ gb ∈ groupIds.zip blocks,
      api.blockId gb.2 ∈ e.blocks.keys → valid api cfg s e gb.1 gb.2 = true := by
  unfold admitEntry
  cases hk : s.entries.get? key with
  | none => exact iff_of_true ⟨s, rfl, fun _ => rfl, rfl, rfl⟩ fun e he => by cases he
  | some e =>
    dsimp only
    have hall : ((groupIds.zip blocks).filter fun gb => api.blockId gb.2 ∈ e.blocks.keys).all
        (fun gb => valid api cfg s e gb.1 gb.2) = true ↔ ∀ e', some e = some e' →
          ∀ gb ∈ groupIds.zip blocks,
          api.blockId gb.2 ∈ e'.blocks.keys → valid api cfg s e' gb.1 gb.2 = true := by
      simp only [List.all_eq_true, List.mem_filter, decide_eq_true_eq, and_imp,
        Option.some.injEq, forall_eq']
    by_cases hv : ((groupIds.zip blocks).filter fun gb => api.blockId gb.2 ∈ e.blocks.keys).all
        (fun gb => valid api cfg s e gb.1 gb.2) = true
    · refine iff_of_true ?_ (hall.mp hv)
      rw [if_neg (not_not.mpr hv)]
      split
      · exact ⟨s, rfl, fun _ => rfl, rfl, rfl⟩
      · exact ⟨_, rfl, fun _ => Dict.get?_moveToEnd, rfl, rfl⟩
    · refine iff_of_false ?_ (hall.not.mp hv)
      rw [if_pos hv]
      rintro ⟨s', heq, -⟩
      cases hdrop : drop api cfg s e with
      | error err => simp [hdrop] at heq
      | ok s₁ => simp [hdrop] at heq

/-- A mapped block that an entry lists is valid when it is the block that was recorded, and for no
other boundary since. -/
theorem valid_mapped_iff (hs : Sound api s) (h : Owned s o) {key : Key} {e : Entry Key Blk}
    (he : s.entries.get? key = some e) {groupId : Nat} {block : Blk} {r : Recorded Blk}
    (hr : e.blocks.get? (api.blockId block) = some r)
    (hmapped : api.contain s.pool (cfg.makeKey key groupId) (api.blockId block) = true) :
    valid api cfg s e groupId block = true ↔
      (r.groupId = groupId ∧ r.block = block ∧ api.isNull block = false) ∧
      o (api.blockId block) = some key := by
  have hkey := hs.entry_key he
  have htag : s.tags.get? (api.blockId block) = some ⟨r.epoch, e.key, e.tokens⟩ ↔
    o (api.blockId block) = some key :=
    ⟨fun ht => (h.tagged ht).trans (congrArg some hkey), h.listed he hr⟩
  rw [hkey] at htag
  unfold valid
  simp only [hr, Bool.and_eq_true, decide_eq_true_eq, Bool.not_eq_true', htag, hkey, hmapped,
    and_true, and_assoc]

/-- **When a mapped boundary is admitted**, after any history: when what the registry lists of it is
what is handed over, and no other boundary has recorded or taken over any of it since. -/
theorem admit_mapped_iff (api : BlockPool Pool Blk GKey) (cfg : Config Key GKey) (p₀ : Pool)
    (h : List (Event Pool Blk Key)) :
    ∃ s, after api cfg p₀ h = .ok s ∧ ∀ key blocks groupIds,
      (∀ gb ∈ groupIds.zip blocks, api.contain s.pool (cfg.makeKey key gb.1)
        (api.blockId gb.2) = true) →
      ((∃ s', admitEntry api cfg s key blocks groupIds = .ok (true, s') ∧ Untouched s s') ↔
        ∀ e, s.entries.get? key = some e → ∀ gb ∈ groupIds.zip blocks, ∀ r,
        e.blocks.get? (api.blockId gb.2) = some r →
          (r.groupId = gb.1 ∧ r.block = gb.2 ∧ api.isNull gb.2 = false) ∧
            lastBoundary api cfg p₀ h (api.blockId gb.2) = some key) := by
  obtain ⟨s, hrun, hs, howned⟩ := owned_after api cfg p₀ h
  refine ⟨s, hrun, fun key blocks groupIds hmapped =>
    (admit_true_iff s key blocks groupIds).trans ?_⟩
  refine forall₂_congr fun e he => forall₂_congr fun gb hgb => ?_
  constructor
  · intro hvalid r hr
    exact (valid_mapped_iff hs howned he hr (hmapped gb hgb)).mp
      (hvalid (Dict.mem_keys_iff.mpr ⟨r, hr⟩))
  · intro hlisted hm
    obtain ⟨r, hr⟩ := Dict.mem_keys_iff.mp hm
    exact (valid_mapped_iff hs howned he hr (hmapped gb hgb)).mpr (hlisted r hr)

/-! ## A boundary that is refused -/

/-- Block 1 mapped under a key. -/
def oneTail (key : Nat) : TablePool := ⟨[((key, 0), 1)], fun b => if b = 1 then some (key, 0)
    else none, fun _ => none⟩

/-- Block 1 is recorded for boundary 7, evicted and recorded for boundary 8, then evicted and cached
for 7 by the pool itself. -/
def recached : List (Event TablePool Nat Nat) :=
  [.record 7 1152 0 1, .poolChange (oneTail 8), .record 8 2304 0 1, .poolChange (oneTail 7)]

/-- The boundary is refused, though its block is mapped under its hash. -/
theorem native_boundary_refused : ¬ ∀ s, after tablePool ⟨2, [0], fun key groupId => (key, groupId)⟩
    (oneTail 7) recached = .ok s →
    ∀ key blocks groupIds, (∀ gb ∈ groupIds.zip blocks,
    tablePool.contain s.pool (key, gb.1) gb.2 = true) →
      ∃ s', admitEntry tablePool ⟨2, [0], fun key groupId => (key, groupId)⟩ s key blocks groupIds =
      .ok (true, s') ∧ Untouched s s' := by
  intro h
  obtain ⟨s', heq, -⟩ := h _ rfl 7 [1] [0] (by decide)
  cases heq

end Ringside.ReplayBoundary

import Ringside.ReplayBoundary.Registry

/-!
# The registry keeps its cross-references

`Sound` says that every tag refers to a live entry that lists the block with the tag's epoch. Every
operation either changes one entry (`enter`, `moved`) or drops entries, and `Dropping` says once
what dropping a list of entries does to the registry and to the pool.

* The proof follows the source's calls: what one iteration of `_drop` does (`Unlinked`), then
  `_drop`, the two loops of `_enforce_cap`, and the operations.
* A run is a list of events (`after`). `Event` has the registry's four operations and an arbitrary
  change of the pool between them, so nothing is assumed of who else uses the pool.
* The pool is only known by its contract (`BlockPool`). `TablePool` is a pool that keeps it, on
  which runs can be computed.
* The eviction loop takes as much fuel as there are entries. `evictOldest_ok` says that it ends
  before the fuel does.

Results:
* `drop_ok`: a drop never raises, unmaps what the entry recorded and touches no other block.
* `evictOldest_ok`: the loop ends within the cap, or with only the entry to keep.
* `record_ok`, `admit_ok`, `clear_ok`: what the operations leave.
* `stepOk_ok`: every event keeps the registry sound, none raises, and only recorded blocks of the
  dropped entries leave the pool's map (`Unmaps`).
* `registry_integrity` assembles them for every run.
-/

namespace Ringside.ReplayBoundary

open Ringside.Run

set_option linter.unusedSectionVars false

variable {Pool Blk Key GKey : Type} [DecidableEq Key] [DecidableEq Blk] [DecidableEq GKey]
variable {api : BlockPool Pool Blk GKey} {cfg : Config Key GKey}

/-- **The cross-references of the registry.** -/
structure Sound (api : BlockPool Pool Blk GKey) (s : Registry Pool Blk Key) : Prop where
  entry_key : ∀ {k e}, s.entries.get? k = some e → e.key = k
  block_id : ∀ {k e b r}, s.entries.get? k = some e → e.blocks.get? b = some r →
    api.blockId r.block = b
  tag_live : ∀ {b t}, s.tags.get? b = some t → ∃ e r, s.entries.get? t.key = some e ∧
    e.tokens = t.tokens ∧ e.blocks.get? b = some r ∧ r.epoch = t.epoch

theorem Sound.init (p₀ : Pool) :
    Sound api (⟨Dict.empty, Dict.empty, 0, p₀⟩ : Registry Pool Blk Key) :=
  ⟨fun h => by simp at h, fun h => by simp at h, fun h => by simp at h⟩

/-- Soundness does not depend on the order of the entries, nor on the pool. -/
theorem Sound.congr {s s' : Registry Pool Blk Key} (h : Sound api s)
    (he : ∀ k, s'.entries.get? k = s.entries.get? k) (ht : s'.tags = s.tags) : Sound api s' where
  entry_key hk := h.entry_key ((he _).symm.trans hk)
  block_id hk := h.block_id ((he _).symm.trans hk)
  tag_live hb := by
    obtain ⟨e, r, hk, hr⟩ := h.tag_live (ht ▸ hb)
    exact ⟨e, r, (he _).trans hk, hr⟩

/-! ## Dropping an entry

`Dropping` is the contract of every operation that drops: which entries went, what was unmapped for
them, and that everything else is as it was. It composes, so the operations below only say which
entries they drop.
-/

section Unmap

variable (p : Pool) (key : GKey) (block : Blk)

theorem unmap_self : api.contain (unmap api p key block) key (api.blockId block) = false := by
  unfold unmap
  split
  · exact api.remove_primary p block key ‹_›
  · simp only
    split
    · rw [api.contain_setHashes, api.pop_self]
    · exact api.pop_self p key _

theorem unmap_other {k : GKey} {b : Nat} (hb : b ≠ api.blockId block) :
    api.contain (unmap api p key block) k b = api.contain p k b := by
  have hpop : api.contain (api.pop p key (api.blockId block)) k b = api.contain p k b :=
    api.pop_other p key _ k b fun h => hb (congrArg Prod.snd h)
  unfold unmap
  split
  · exact api.remove_other p block k b hb
  · simp only
    split
    · rw [api.contain_setHashes, hpop]
    · exact hpop

theorem unmap_le {k : GKey} {b : Nat} (h : api.contain (unmap api p key block) k b = true) :
    api.contain p k b = true := by
  have hpop : api.contain (api.pop p key (api.blockId block)) k b = true →
      api.contain p k b = true := by
    intro h
    by_cases hkb : (k, b) = (key, api.blockId block)
    · rw [Prod.mk.injEq] at hkb
      rw [hkb.1, hkb.2, api.pop_self] at h
      exact absurd h (by simp)
    · rwa [api.pop_other _ _ _ _ _ hkb] at h
  unfold unmap at h
  split at h
  · exact api.remove_le p block k b h
  · simp only at h
    split at h
    · rw [api.contain_setHashes] at h
      exact hpop h
    · exact hpop h

end Unmap

/-- What the loop of `_drop` has done after the recorded blocks `rs` of `e`. -/
structure Unlinked (api : BlockPool Pool Blk GKey) (cfg : Config Key GKey) (e : Entry Key Blk)
    (rs : List (Recorded Blk)) (s s' : Registry Pool Blk Key) : Prop where
  entries : s'.entries = s.entries
  tag_le : ∀ {b t}, s'.tags.get? b = some t → s.tags.get? b = some t
  tag_kept : ∀ {b t}, s.tags.get? b = some t → t.key ≠ e.key → s'.tags.get? b = some t
  tag_gone : ∀ r ∈ rs, s'.tags.get? (api.blockId r.block) ≠ some ⟨r.epoch, e.key, e.tokens⟩
  unmapped : ∀ r ∈ rs,
    api.contain s'.pool (cfg.makeKey e.key r.groupId) (api.blockId r.block) = false
  untouched : ∀ k b, (∀ r ∈ rs, api.blockId r.block ≠ b) →
    api.contain s'.pool k b = api.contain s.pool k b
  mapped_le : ∀ {k b}, api.contain s'.pool k b = true → api.contain s.pool k b = true

/-- One iteration never raises and unlinks its block. -/
theorem dropBlock_ok (api : BlockPool Pool Blk GKey) (cfg : Config Key GKey) (e : Entry Key Blk)
    (s : Registry Pool Blk Key) (r : Recorded Blk) :
    ∃ s', dropBlock api cfg e s r = .ok s' ∧ Unlinked api cfg e [r] s s' := by
  let key := cfg.makeKey e.key r.groupId
  let id := api.blockId r.block
  let pool := if api.contain s.pool key id then unmap api s.pool key r.block else s.pool
  have hun : api.contain pool key id = false := by
    by_cases hc : api.contain s.pool key id = true
    · simp only [pool, if_pos hc]
      exact unmap_self s.pool key r.block
    · simp only [pool, if_neg hc]
      simpa using hc
  have hother : ∀ k b, b ≠ id → api.contain pool k b = api.contain s.pool k b := by
    intro k b hb
    simp only [pool]
    split
    · exact unmap_other s.pool key r.block hb
    · rfl
  have hle : ∀ {k b}, api.contain pool k b = true → api.contain s.pool k b = true := by
    intro k b h
    simp only [pool] at h
    split at h
    · exact unmap_le s.pool key r.block h
    · exact h
  refine ⟨{ s with
    pool := pool
    tags := if s.tags.get? id = some ⟨r.epoch, e.key, e.tokens⟩ then s.tags.erase id
      else s.tags }, ?_, ?_⟩
  · unfold dropBlock
    rw [if_neg (by simp [show api.contain (if api.contain s.pool key id then
      unmap api s.pool key r.block else s.pool) key id = false from hun, key, id])]
  · refine ⟨rfl, fun {b t} h => ?_, fun {b t} h hne => ?_, fun r' hr => ?_, fun r' hr =>
      ?_, fun k b h => ?_, hle⟩
    · simp only at h
      split at h
      · by_cases hb : b = id
        · rw [hb, Dict.get?_erase_self] at h
          exact absurd h (by simp)
        · rwa [Dict.get?_erase_of_ne hb] at h
      · exact h
    · simp only
      split
      · rename_i htag
        have hb : b ≠ id := by
          rintro rfl
          rw [h, Option.some.injEq] at htag
          exact hne (htag ▸ rfl)
        rwa [Dict.get?_erase_of_ne hb]
      · exact h
    · rw [List.mem_singleton.mp hr]
      simp only
      split
      · rw [Dict.get?_erase_self]
        simp
      · assumption
    · rw [List.mem_singleton.mp hr]
      exact hun
    · exact hother k b fun hb => h r List.mem_cons_self hb.symm

/-- The loop of `_drop` unlinks the blocks it went through. -/
theorem dropBlocks_ok (api : BlockPool Pool Blk GKey) (cfg : Config Key GKey)
    (e : Entry Key Blk) : ∀ (rs : List (Recorded Blk))
    (s : Registry Pool Blk Key),
    ∃ s', rs.foldlM (dropBlock api cfg e) s = .ok s' ∧ Unlinked api cfg e rs s s'
  | [], s => ⟨s, rfl, rfl, id, fun h _ => h, by simp, by simp, fun _ _ _ => rfl, id⟩
  | r :: rs, s => by
    obtain ⟨s₁, h₁, hr⟩ := dropBlock_ok api cfg e s r
    obtain ⟨s₂, h₂, hrs⟩ := dropBlocks_ok api cfg e rs s₁
    refine ⟨s₂, by rw [List.foldlM_cons, h₁]; exact h₂, hrs.entries.trans hr.entries,
      fun h => hr.tag_le (hrs.tag_le h), fun h hne => hrs.tag_kept (hr.tag_kept h hne) hne, ?_, ?_,
      fun k b h => ?_, fun h => hr.mapped_le (hrs.mapped_le h)⟩
    · rintro r' hr' hb
      rcases List.mem_cons.mp hr' with rfl | hm
      · exact hr.tag_gone r' List.mem_cons_self (hrs.tag_le hb)
      · exact hrs.tag_gone r' hm hb
    · intro r' hr'
      rcases List.mem_cons.mp hr' with rfl | hm
      · by_contra hc
        have := hrs.mapped_le (by simpa using hc)
        rw [hr.unmapped r' List.mem_cons_self] at this
        exact absurd this (by simp)
      · exact hrs.unmapped r' hm
    · rw [hrs.untouched k b fun r' hm => h r' (List.mem_cons_of_mem _ hm),
        hr.untouched k b fun r' hm => h r' (by
          rw [List.mem_singleton.mp hm]
          exact List.mem_cons_self)]

/-- What dropping the entries `es` of `s` leads to. -/
structure Dropping (api : BlockPool Pool Blk GKey) (cfg : Config Key GKey)
    (s s' : Registry Pool Blk Key) (es : List (Entry Key Blk)) : Prop where
  sound : Sound api s'
  live : ∀ e ∈ es, s.entries.get? e.key = some e
  dropped : ∀ e ∈ es, s'.entries.get? e.key = none
  kept : ∀ k, (∀ e ∈ es, e.key ≠ k) → s'.entries.get? k = s.entries.get? k
  unmapped : ∀ e ∈ es, ∀ {b r}, e.blocks.get? b = some r →
    api.contain s'.pool (cfg.makeKey e.key r.groupId) b = false
  untouched : ∀ k b, (∀ e ∈ es, b ∉ e.blocks.keys) →
    api.contain s'.pool k b = api.contain s.pool k b
  mapped_le : ∀ {k b}, api.contain s'.pool k b = true → api.contain s.pool k b = true
  tag_le : ∀ {b t}, s'.tags.get? b = some t → s.tags.get? b = some t
  tag_kept : ∀ {b t}, s.tags.get? b = some t → (∀ e ∈ es, e.key ≠ t.key) → s'.tags.get? b = some t

/-- Nothing dropped, at most reordered. -/
theorem Dropping.reorder {s s' : Registry Pool Blk Key} (h : Sound api s)
    (he : ∀ k, s'.entries.get? k = s.entries.get? k) (ht : s'.tags = s.tags)
    (hp : s'.pool = s.pool) : Dropping api cfg s s' [] where
  sound := h.congr he ht
  live := by simp
  dropped := by simp
  kept k _ := he k
  unmapped := by simp
  untouched k b _ := by rw [hp]
  mapped_le h := by rwa [hp] at h
  tag_le h := by rwa [ht] at h
  tag_kept h _ := by rwa [ht]

theorem Dropping.refl {s : Registry Pool Blk Key} (h : Sound api s) : Dropping api cfg s s [] :=
  .reorder h (fun _ => rfl) rfl rfl

/-- What drops leave was there before. -/
theorem Dropping.get?_le {s s' : Registry Pool Blk Key} {es : List (Entry Key Blk)}
    (h : Dropping api cfg s s' es) {k : Key} {e : Entry Key Blk}
    (he : s'.entries.get? k = some e) : s.entries.get? k = some e := by
  by_cases hk : ∀ e ∈ es, e.key ≠ k
  · rw [← h.kept k hk]
    exact he
  · simp only [not_forall, not_not] at hk
    obtain ⟨e', he', rfl⟩ := hk
    rw [h.dropped e' he'] at he
    exact absurd he (by simp)

/-- Drops compose. -/
theorem Dropping.trans {s s' s'' : Registry Pool Blk Key} {es es' : List (Entry Key Blk)}
    (h : Dropping api cfg s s' es) (h' : Dropping api cfg s' s'' es') :
    Dropping api cfg s s'' (es ++ es') where
  sound := h'.sound
  live e he := by
    rcases List.mem_append.mp he with he | he
    · exact h.live e he
    · exact h.get?_le (h'.live e he)
  dropped e he := by
    rcases List.mem_append.mp he with he | he
    · by_contra hne
      obtain ⟨e', he'⟩ := Option.ne_none_iff_exists'.mp hne
      have := h'.get?_le he'
      rw [h.dropped e he] at this
      exact absurd this (by simp)
    · exact h'.dropped e he
  kept k hk := (h'.kept k fun e he => hk e (List.mem_append_right _ he)).trans
    (h.kept k fun e he => hk e (List.mem_append_left _ he))
  unmapped e he b r hr := by
    rcases List.mem_append.mp he with he | he
    · by_contra hc
      have := h'.mapped_le (by simpa using hc)
      rw [h.unmapped e he hr] at this
      exact absurd this (by simp)
    · exact h'.unmapped e he hr
  untouched k b hb := (h'.untouched k b fun e he => hb e (List.mem_append_right _ he)).trans
    (h.untouched k b fun e he => hb e (List.mem_append_left _ he))
  mapped_le hc := h.mapped_le (h'.mapped_le hc)
  tag_le ht := h.tag_le (h'.tag_le ht)
  tag_kept ht hk := h'.tag_kept (h.tag_kept ht fun e he => hk e (List.mem_append_left _ he))
    fun e he => hk e (List.mem_append_right _ he)

/-- **`_drop` never raises**: the entry goes, what it recorded is unmapped and untagged, and no
other block is touched. -/
theorem drop_ok (cfg : Config Key GKey) {s : Registry Pool Blk Key} (hs : Sound api s)
    {e : Entry Key Blk}
    (he : s.entries.get? e.key = some e) :
    ∃ s', drop api cfg s e = .ok s' ∧ Dropping api cfg s s' [e] ∧
      s'.entries = s.entries.erase e.key := by
  obtain ⟨s₁, h₁, hu⟩ := dropBlocks_ok api cfg e e.blocks.values s
  have hval : ∀ {b r}, e.blocks.get? b = some r → r ∈ e.blocks.values ∧ api.blockId r.block = b :=
    fun {b r} hr => ⟨List.mem_map.mpr ⟨(b, r), Dict.mem_items.mpr hr, rfl⟩, hs.block_id he hr⟩
  have hent : s₁.entries.erase e.key = s.entries.erase e.key := by rw [hu.entries]
  refine ⟨{ s₁ with entries := s₁.entries.erase e.key }, by unfold drop; rw [h₁]; rfl,
    ⟨⟨?_, ?_, ?_⟩, ?_, ?_, ?_, ?_, ?_, hu.mapped_le, hu.tag_le,
      fun ht hk => hu.tag_kept ht (hk e List.mem_cons_self).symm⟩, hent⟩
  · intro k e' hk
    simp only [hent] at hk
    by_cases hke : k = e.key
    · rw [hke, Dict.get?_erase_self] at hk
      exact absurd hk (by simp)
    · rw [Dict.get?_erase_of_ne hke] at hk
      exact hs.entry_key hk
  · intro k e' b r hk hr
    simp only [hent] at hk
    by_cases hke : k = e.key
    · rw [hke, Dict.get?_erase_self] at hk
      exact absurd hk (by simp)
    · rw [Dict.get?_erase_of_ne hke] at hk
      exact hs.block_id hk hr
  · -- a tag of the dropped entry would be one the loop removed
    intro b t hb
    obtain ⟨e', r, hk, htok, hr, hep⟩ := hs.tag_live (hu.tag_le hb)
    by_cases hke : t.key = e.key
    · rw [hke, he, Option.some.injEq] at hk
      subst hk
      obtain ⟨hm, hid⟩ := hval hr
      have hgone := hu.tag_gone r hm
      rw [hid] at hgone
      obtain ⟨tep, tk, ttok⟩ := t
      simp only at hke htok hep
      exact absurd hb (by rw [hke, ← htok, ← hep]; exact hgone)
    · refine ⟨e', r, ?_, htok, hr, hep⟩
      simp only [hent]
      rw [Dict.get?_erase_of_ne hke]
      exact hk
  · intro e' h'
    rw [List.mem_singleton.mp h']
    exact he
  · intro e' h'
    rw [List.mem_singleton.mp h']
    exact Dict.get?_erase_self
  · intro k hk
    simp only [hent]
    exact Dict.get?_erase_of_ne (hk e List.mem_cons_self).symm
  · intro e' h' b r hr
    rw [List.mem_singleton.mp h'] at hr ⊢
    obtain ⟨hm, hid⟩ := hval hr
    rw [← hid]
    exact hu.unmapped r hm
  · intro k b hb
    refine hu.untouched k b fun r hr hid => hb e List.mem_cons_self ?_
    obtain ⟨⟨b', r'⟩, hm, rfl⟩ := List.mem_map.mp hr
    rw [Dict.mem_keys_iff]
    refine ⟨r', ?_⟩
    rw [← hid, hs.block_id he (Dict.mem_items.mp hm)]
    exact Dict.mem_items.mp hm

/-- Dropping an entry makes the registry smaller by one. -/
theorem size_drop {s s' : Registry Pool Blk Key} {e : Entry Key Blk}
    (he : s.entries.get? e.key = some e) (h : s'.entries = s.entries.erase e.key) :
    s'.entries.size + 1 = s.entries.size := by
  rw [h]
  exact Dict.size_erase (Dict.mem_keys_iff.mpr ⟨e, he⟩)

/-! ## Enforcing the cap

First the dead entries go, then the oldest ones while there are too many. The second loop has fuel
in the model; each of its turns makes the registry smaller, so the fuel does not run out.
-/

/-- Dead entries go, never the one to keep. -/
theorem dropDead_ok (cfg : Config Key GKey) (keep : Key) :
    ∀ (es : List (Entry Key Blk)) {s : Registry Pool Blk Key},
    Sound api s → (∀ e ∈ es, s.entries.get? e.key = some e) → (es.map (·.key)).Nodup →
    ∃ s' ds, dropDead api cfg keep es s = .ok s' ∧ Dropping api cfg s s' ds ∧
      ∀ e ∈ ds, e.key ≠ keep
  | [], s, hs, _, _ => ⟨s, [], rfl, .refl hs, by simp⟩
  | e :: es, s, hs, hlive, hn => by
    have hn' := List.nodup_cons.mp hn
    by_cases hcap : (s.entries.size : Int) ≤ cfg.cap
    · exact ⟨s, [], by unfold dropDead; rw [if_pos hcap]; rfl, .refl hs, by simp⟩
    by_cases hd : e.key ≠ keep ∧ dead api cfg s e = true
    · obtain ⟨s₁, h₁, hdrop, -⟩ := drop_ok cfg hs (hlive e List.mem_cons_self)
      have hlive' : ∀ e' ∈ es, s₁.entries.get? e'.key = some e' := fun e' he' => by
        rw [hdrop.kept e'.key fun e'' he'' hk => ?_]
        · exact hlive e' (List.mem_cons_of_mem _ he')
        · rw [List.mem_singleton.mp he''] at hk
          exact hn'.1 (List.mem_map.mpr ⟨e', he', hk.symm⟩)
      obtain ⟨s₂, ds, h₂, hds, hk⟩ := dropDead_ok cfg keep es hdrop.sound hlive' hn'.2
      refine ⟨s₂, [e] ++ ds, ?_, hdrop.trans hds, fun e' he' => ?_⟩
      · unfold dropDead
        rw [if_neg hcap, if_pos hd, h₁]
        exact h₂
      · rcases List.mem_append.mp he' with h | h
        · rw [List.mem_singleton.mp h]
          exact hd.1
        · exact hk e' h
    · obtain ⟨s₂, ds, h₂, hds, hk⟩ := dropDead_ok cfg keep es hs
        (fun e' he' => hlive e' (List.mem_cons_of_mem _ he')) hn'.2
      refine ⟨s₂, ds, ?_, hds, hk⟩
      unfold dropDead
      rw [if_neg hcap, if_neg hd]
      exact h₂

/-- The first entry of a registry that holds one. -/
theorem first_live {s : Registry Pool Blk Key} (hs : Sound api s) {keep : Key}
    (hk : keep ∈ s.entries.keys) : ∃ e rest, s.entries.first? = some e ∧
      s.entries.items = (e.key, e) :: rest ∧ s.entries.get? e.key = some e := by
  cases hf : s.entries.first? with
  | none =>
    have h0 := Dict.size_of_first?_none hf
    unfold Dict.size at h0
    rw [List.length_eq_zero_iff] at h0
    unfold Dict.keys at hk
    rw [h0] at hk
    exact absurd hk List.not_mem_nil
  | some e =>
    obtain ⟨k, rest, hi, hg⟩ := Dict.get?_of_first? hf
    have hek := hs.entry_key hg
    exact ⟨e, rest, rfl, hek ▸ hi, hek ▸ hg⟩

/-- **The eviction loop ends** with the cap met, or with the entry to keep alone; it never drops
that one, and the fuel does not run out. -/
theorem evictOldest_ok (cfg : Config Key GKey) (keep : Key) :
    ∀ (fuel : Nat) {s : Registry Pool Blk Key},
    Sound api s → keep ∈ s.entries.keys → s.entries.size ≤ fuel →
    ∃ s' ds, evictOldest api cfg keep fuel s = .ok s' ∧ Dropping api cfg s s' ds ∧
      (∀ e ∈ ds, e.key ≠ keep) ∧ ((s'.entries.size : Int) ≤ cfg.cap ∨ s'.entries.size ≤ 1)
  | 0, s, hs, _, hn => ⟨s, [], rfl, .refl hs, by simp, Or.inr (by omega)⟩
  | fuel + 1, s, hs, hk, hn => by
    have evict : ∀ {t : Registry Pool Blk Key} {e : Entry Key Blk}, Dropping api cfg s t [] →
        t.entries.size = s.entries.size → t.entries.get? e.key = some e → e.key ≠ keep →
        ∃ s' ds, (drop api cfg t e).bind (evictOldest api cfg keep fuel) = .ok s' ∧
          Dropping api cfg s s' ds ∧ (∀ e ∈ ds, e.key ≠ keep) ∧
            ((s'.entries.size : Int) ≤ cfg.cap ∨ s'.entries.size ≤ 1) := by
      intro t e ht hsize he hne
      obtain ⟨s₁, h₁, hdrop, hent⟩ := drop_ok cfg ht.sound he
      have hsmall := size_drop he hent
      have hk₁ : keep ∈ s₁.entries.keys := by
        obtain ⟨e', he'⟩ := Dict.mem_keys_iff.mp hk
        refine Dict.mem_keys_iff.mpr ⟨e', ?_⟩
        rw [hdrop.kept keep (by simpa using hne), ht.kept keep (by simp)]
        exact he'
      obtain ⟨s₂, ds, h₂, hds, hkeep, hend⟩ :=
        evictOldest_ok cfg keep fuel hdrop.sound hk₁ (by omega)
      refine ⟨s₂, [] ++ ([e] ++ ds), by rw [h₁]; exact h₂, ht.trans (hdrop.trans hds), ?_, hend⟩
      intro e' he'
      rcases List.mem_append.mp (List.nil_append _ ▸ he') with h | h
      · rw [List.mem_singleton.mp h]
        exact hne
      · exact hkeep e' h
    by_cases hcap : (s.entries.size : Int) ≤ cfg.cap
    · exact ⟨s, [], by unfold evictOldest; rw [if_pos hcap]; rfl, .refl hs, by simp, Or.inl hcap⟩
    obtain ⟨e, rest, hf, hi, he⟩ := first_live hs hk
    by_cases hek : e.key = keep
    · -- the entry to keep moves out of the way
      let t : Registry Pool Blk Key := { s with entries := s.entries.moveToEnd keep }
      have ht : Dropping api cfg s t [] := .reorder hs (fun _ => Dict.get?_moveToEnd) rfl rfl
      have hkt : keep ∈ t.entries.keys := by
        obtain ⟨e', he'⟩ := Dict.mem_keys_iff.mp hk
        exact Dict.mem_keys_iff.mpr ⟨e', Dict.get?_moveToEnd.trans he'⟩
      obtain ⟨e', rest', hf', hi', he'⟩ := first_live ht.sound hkt
      by_cases hek' : e'.key = keep
      · refine ⟨t, [], ?_, ht, by simp, Or.inr ?_⟩
        · unfold evictOldest
          simp only [if_neg hcap, hf, if_pos hek]
          rw [show (s.entries.moveToEnd keep).first? = some e' from hf']
          simp only [if_pos hek']
          rfl
        · rw [show t.entries.size = s.entries.size from Dict.size_moveToEnd]
          exact Dict.size_of_first_moveToEnd (hek' ▸ hi')
      · obtain ⟨s', ds, h', hrest⟩ := evict ht Dict.size_moveToEnd he' hek'
        refine ⟨s', ds, ?_, hrest⟩
        unfold evictOldest
        simp only [if_neg hcap, hf, if_pos hek]
        rw [show (s.entries.moveToEnd keep).first? = some e' from hf']
        simp only [if_neg hek']
        exact h'
    · obtain ⟨s', ds, h', hrest⟩ := evict (.refl hs) rfl he hek
      refine ⟨s', ds, ?_, hrest⟩
      unfold evictOldest
      simp only [if_neg hcap, hf, if_neg hek]
      exact h'

theorem values_live {s : Registry Pool Blk Key} (hs : Sound api s) :
    (∀ e ∈ s.entries.values, s.entries.get? e.key = some e) ∧
      (s.entries.values.map (·.key)).Nodup := by
  have hitem : ∀ ke ∈ s.entries.items, s.entries.get? ke.1 = some ke.2 ∧ ke.2.key = ke.1 :=
    fun ke hke => ⟨Dict.mem_items.mp hke, hs.entry_key (Dict.mem_items.mp hke)⟩
  refine ⟨fun e he => ?_, ?_⟩
  · obtain ⟨ke, hke, rfl⟩ := List.mem_map.mp he
    rw [(hitem ke hke).2]
    exact (hitem ke hke).1
  · have : s.entries.values.map (·.key) = s.entries.items.map Prod.fst := by
      unfold Dict.values
      rw [List.map_map]
      exact List.map_congr_left fun ke hke => (hitem ke hke).2
    rw [this]
    exact s.entries.nodup

/-- `_enforce_cap` meets the cap and keeps the entry it was told to keep. -/
theorem enforceCap_ok (cfg : Config Key GKey) {s : Registry Pool Blk Key}
    (hs : Sound api s) {keep : Key}
    (hk : keep ∈ s.entries.keys) :
    ∃ s' ds, enforceCap api cfg s keep = .ok s' ∧ Dropping api cfg s s' ds ∧
      (∀ e ∈ ds, e.key ≠ keep) ∧ (s'.entries.size : Int) ≤ max cfg.cap 1 := by
  by_cases hcap : (s.entries.size : Int) ≤ cfg.cap
  · exact ⟨s, [], by unfold enforceCap; rw [if_pos hcap]; rfl, .refl hs, by simp, by omega⟩
  obtain ⟨hlive, hn⟩ := values_live hs
  obtain ⟨s₁, ds, h₁, hd, hds⟩ := dropDead_ok cfg keep s.entries.values hs hlive hn
  have hk₁ : keep ∈ s₁.entries.keys := by
    obtain ⟨e, he⟩ := Dict.mem_keys_iff.mp hk
    exact Dict.mem_keys_iff.mpr ⟨e, (hd.kept keep hds).trans he⟩
  obtain ⟨s₂, ds', h₂, hd', hds', hend⟩ :=
    evictOldest_ok cfg keep s₁.entries.size hd.sound hk₁ le_rfl
  refine ⟨s₂, ds ++ ds', ?_, hd.trans hd', fun e he => ?_, by omega⟩
  · unfold enforceCap
    rw [if_neg hcap, h₁]
    exact h₂
  · rcases List.mem_append.mp he with h | h
    · exact hds e h
    · exact hds' e h

/-! ## The operations

Each operation is a spec lemma with the same three parts: it does not fail, the result is sound, and
what it dropped.
-/

section Operations

variable {s : Registry Pool Blk Key} (hs : Sound api s)
include hs

/-- Recording tags the block with the epoch its entry now lists. -/
theorem Sound.enter (key : Key) (tokens groupId : Nat) (block : Blk)
    (ht : ∀ e, s.entries.get? key = some e → e.tokens = tokens) :
    Sound api (enter api s key tokens groupId block) := by
  let e₀ : Entry Key Blk := (s.entries.get? key).getD ⟨key, tokens, Dict.empty⟩
  let e₁ : Entry Key Blk :=
    { e₀ with blocks := e₀.blocks.set (api.blockId block) ⟨groupId, block, s.epoch + 1⟩ }
  have hold : ∀ {b r}, e₀.blocks.get? b = some r → s.entries.get? key = some e₀ := by
    intro b r h
    cases hk : s.entries.get? key with
    | none => simp [e₀, hk] at h
    | some e => simp [e₀, hk]
  have hkey : e₁.key = key ∧ e₁.tokens = tokens := by
    cases hk : s.entries.get? key with
    | none => simp [e₁, e₀, hk]
    | some e => simpa [e₁, e₀, hk] using ⟨hs.entry_key hk, ht e hk⟩
  have hself : (ReplayBoundary.enter api s key tokens groupId block).entries.get? key =
      some e₁ := Dict.get?_moveToEnd.trans Dict.get?_set_self
  have hother : ∀ {k}, k ≠ key →
    (ReplayBoundary.enter api s key tokens groupId block).entries.get? k =
      s.entries.get? k := fun hk => Dict.get?_moveToEnd.trans (Dict.get?_set_of_ne hk)
  have hlist : e₁.blocks.get? (api.blockId block) = some ⟨groupId, block, s.epoch + 1⟩ :=
    Dict.get?_set_self
  refine ⟨fun {k e} h => ?_, fun {k e b r} h hr => ?_, fun {b t} h => ?_⟩
  · by_cases hk : k = key
    · subst hk
      rw [hself, Option.some.injEq] at h
      exact h ▸ hkey.1
    · exact hs.entry_key ((hother hk).symm.trans h)
  · by_cases hk : k = key
    · subst hk
      rw [hself, Option.some.injEq] at h
      subst h
      by_cases hb : b = api.blockId block
      · subst hb
        rw [hlist, Option.some.injEq] at hr
        rw [← hr]
      · have hr' : e₀.blocks.get? b = some r := (Dict.get?_set_of_ne hb).symm.trans hr
        exact hs.block_id (hold hr') hr'
    · exact hs.block_id ((hother hk).symm.trans h) hr
  · by_cases hb : b = api.blockId block
    · subst hb
      have htag : t = ⟨s.epoch + 1, key, tokens⟩ :=
        (Option.some.inj ((Dict.get?_set_self).symm.trans h)).symm
      subst htag
      exact ⟨e₁, _, hself, hkey.2, hlist, rfl⟩
    · obtain ⟨e, r, he, htok, hr, hep⟩ := hs.tag_live ((Dict.get?_set_of_ne hb).symm.trans h)
      by_cases hk : t.key = key
      · have he₀ : e₀ = e := by
          rw [hk] at he
          simp [e₀, he]
        refine ⟨e₁, r, by rw [hk]; exact hself, ?_, ?_, hep⟩
        · rw [← htok, hkey.2]
          exact (ht e (hk ▸ he)).symm
        · exact (Dict.get?_set_of_ne hb).trans (he₀ ▸ hr)
      · exact ⟨e, r, (hother hk).trans he, htok, hr, hep⟩

theorem dropMismatch_ok (cfg : Config Key GKey) (key : Key) (tokens : Nat) :
    ∃ s' ds, dropMismatch api cfg s key tokens = .ok s' ∧ Dropping api cfg s s' ds ∧
      (∀ e ∈ ds, e.key = key ∧ e.tokens ≠ tokens) ∧
      ∀ e, s'.entries.get? key = some e → e.tokens = tokens := by
  unfold dropMismatch
  cases hk : s.entries.get? key with
  | none => exact ⟨s, [], rfl, .refl hs, by simp, fun e he => by simp [hk] at he⟩
  | some e =>
    have hek := hs.entry_key hk
    by_cases ht : e.tokens ≠ tokens
    · obtain ⟨s₁, h₁, hd, -⟩ := drop_ok cfg hs (hek ▸ hk)
      refine ⟨s₁, [e], by simp only [if_pos ht]; exact h₁, hd, by simpa using ⟨hek, ht⟩, ?_⟩
      intro e' he'
      rw [← hek, hd.dropped e List.mem_cons_self] at he'
      exact absurd he' (by simp)
    · refine ⟨s, [], by simp only [if_neg ht], .refl hs, by simp, fun e' he' => ?_⟩
      rw [hk, Option.some.injEq] at he'
      exact he' ▸ not_not.mp ht

/-- **`record`** leaves at most `max cap 1` entries, the recorded key among them. -/
theorem record_ok (cfg : Config Key GKey) (key : Key) (tokens groupId : Nat) (block : Blk) :
    ∃ s' s₁ ds₁ ds, record api cfg s key tokens groupId block = .ok s' ∧
      Dropping api cfg s s₁ ds₁ ∧ (∀ e ∈ ds₁, e.key = key ∧ e.tokens ≠ tokens) ∧
      (∀ e, s₁.entries.get? key = some e → e.tokens = tokens) ∧
      Dropping api cfg (ReplayBoundary.enter api s₁ key tokens groupId block) s' ds ∧
      (∀ e ∈ ds, e.key ≠ key) ∧ (s'.entries.size : Int) ≤ max cfg.cap 1 ∧
      ∃ e, s'.entries.get? key = some e ∧ e.tokens = tokens := by
  obtain ⟨s₁, ds₁, h₁, hd₁, hk₁, ht₁⟩ := dropMismatch_ok hs cfg key tokens
  have hsound := hd₁.sound.enter key tokens groupId block ht₁
  have hself : key ∈ (ReplayBoundary.enter api s₁ key tokens groupId block).entries.keys :=
    Dict.mem_keys_iff.mpr ⟨_, Dict.get?_moveToEnd.trans Dict.get?_set_self⟩
  obtain ⟨s', ds, h', hd, hds, hcap⟩ := enforceCap_ok cfg hsound hself
  refine ⟨s', s₁, ds₁, ds, ?_, hd₁, hk₁, ht₁, hd, hds, hcap, _,
    (hd.kept key hds).trans (Dict.get?_moveToEnd.trans Dict.get?_set_self), ?_⟩
  · unfold record
    rw [h₁]
    exact h'
  · cases hk : s₁.entries.get? key with
    | none => rfl
    | some e => exact ht₁ e hk

/-- The moved block takes the tag along. -/
theorem Sound.moved (src dst : Blk) (groupId : Nat) : Sound api (moved api s src dst groupId) := by
  unfold ReplayBoundary.moved
  cases htag : s.tags.get? (api.blockId src) with
  | none => exact hs
  | some tag =>
    simp only
    cases hent : s.entries.get? tag.key with
    | none => exact hs
    | some e =>
      simp only
      cases hrec : e.blocks.get? (api.blockId src) with
      | none => exact hs
      | some r =>
        simp only
        split
        · exact hs
        · rename_i hok
          simp only [not_or, not_not] at hok
          let blocks := (e.blocks.erase (api.blockId src)).set (api.blockId dst)
            ⟨groupId, dst, tag.epoch⟩
          have hblocks : ∀ {b r}, blocks.get? b = some r → (b = api.blockId dst ∧
              r = ⟨groupId, dst, tag.epoch⟩) ∨ e.blocks.get? b = some r := by
            intro b r h
            by_cases hb : b = api.blockId dst
            · subst hb
              exact Or.inl ⟨rfl, Option.some.inj (h.symm.trans Dict.get?_set_self)⟩
            · have h' := (Dict.get?_set_of_ne hb).symm.trans h
              by_cases hb' : b = api.blockId src
              · rw [hb', Dict.get?_erase_self] at h'
                exact absurd h' (by simp)
              · exact Or.inr ((Dict.get?_erase_of_ne hb').symm.trans h')
          have hkey := hs.entry_key hent
          refine ⟨fun {k e'} h => ?_, fun {k e' b r'} h hr => ?_, fun {b t} h => ?_⟩
          · by_cases hk : k = tag.key
            · subst hk
              rw [Dict.get?_set_self, Option.some.injEq] at h
              exact h ▸ hkey
            · exact hs.entry_key ((Dict.get?_set_of_ne hk).symm.trans h)
          · by_cases hk : k = tag.key
            · subst hk
              rw [Dict.get?_set_self, Option.some.injEq] at h
              subst h
              rcases hblocks hr with ⟨rfl, rfl⟩ | hr
              · rfl
              · exact hs.block_id hent hr
            · exact hs.block_id ((Dict.get?_set_of_ne hk).symm.trans h) hr
          · by_cases hsrc : b = api.blockId src
            · rw [hsrc, Dict.get?_erase_self] at h
              exact absurd h (by simp)
            have h' := (Dict.get?_erase_of_ne hsrc).symm.trans h
            by_cases hb : b = api.blockId dst
            · subst hb
              rw [Dict.get?_set_self, Option.some.injEq] at h'
              subst h'
              obtain ⟨e', r', he', htok, -, -⟩ := hs.tag_live htag
              rw [hent, Option.some.injEq] at he'
              exact ⟨_, _, Dict.get?_set_self, he' ▸ htok, Dict.get?_set_self, rfl⟩
            · obtain ⟨e', r', he', htok, hr', hep⟩ :=
                hs.tag_live ((Dict.get?_set_of_ne hb).symm.trans h')
              by_cases hk : t.key = tag.key
              · rw [hk, hent, Option.some.injEq] at he'
                subst he'
                refine ⟨{ e with blocks := blocks }, r', by rw [hk]; exact Dict.get?_set_self, htok,
                  ?_, hep⟩
                exact (Dict.get?_set_of_ne hb).trans ((Dict.get?_erase_of_ne hsrc).trans hr')
              · exact ⟨e', r', (Dict.get?_set_of_ne hk).trans he', htok, hr', hep⟩

/-- **`admit`** either drops the entry it judged, or drops nothing and has found every block it was
given and the registry recorded valid. -/
theorem admit_ok (cfg : Config Key GKey) (key : Key) (blocks : List Blk) (groupIds : List Nat) :
    ∃ ok s' ds, admitEntry api cfg s key blocks groupIds = .ok (ok, s') ∧ Dropping api cfg s s' ds ∧
      (ok = true → ∀ e, s.entries.get? key = some e → ∀ gb ∈ groupIds.zip blocks,
        api.blockId gb.2 ∈ e.blocks.keys → valid api cfg s e gb.1 gb.2 = true) := by
  unfold admitEntry
  cases hk : s.entries.get? key with
  | none => exact ⟨true, s, [], rfl, .refl hs, fun _ e he => absurd he (by simp)⟩
  | some e =>
    have hek := hs.entry_key hk
    simp only
    by_cases hv : ((groupIds.zip blocks).filter fun gb => api.blockId gb.2 ∈ e.blocks.keys).all
        (fun gb => valid api cfg s e gb.1 gb.2) = true
    · have hvalid : ∀ e', some e = some e' → ∀ gb ∈ groupIds.zip blocks,
          api.blockId gb.2 ∈ e'.blocks.keys → valid api cfg s e' gb.1 gb.2 = true := by
        intro e' he' gb hgb hm
        obtain rfl := Option.some.inj he'
        exact List.all_eq_true.mp hv gb (List.mem_filter.mpr ⟨hgb, by simpa using hm⟩)
      rw [if_neg (not_not.mpr hv)]
      split
      · exact ⟨true, s, [], rfl, .refl hs, fun _ => hvalid⟩
      · exact ⟨true, _, [], rfl, .reorder hs (fun _ => Dict.get?_moveToEnd) rfl rfl,
          fun _ => hvalid⟩
    · obtain ⟨s₁, h₁, hd, -⟩ := drop_ok cfg hs (hek ▸ hk)
      rw [if_pos hv, h₁]
      exact ⟨false, s₁, [e], rfl, hd, fun h => absurd h (by simp)⟩

/-- **`clear`** drops every entry. -/
theorem clear_ok (cfg : Config Key GKey) :
    ∃ s', clear api cfg s = .ok s' ∧ Dropping api cfg s s' s.entries.values := by
  have hall : ∀ (es : List (Entry Key Blk)) {s : Registry Pool Blk Key}, Sound api s →
      (∀ e ∈ es, s.entries.get? e.key = some e) → (es.map (·.key)).Nodup →
      ∃ s', es.foldlM (drop api cfg) s = .ok s' ∧ Dropping api cfg s s' es := by
    intro es
    induction es with
    | nil => exact fun hs _ _ => ⟨_, rfl, .refl hs⟩
    | cons e es ih =>
      intro s hs hlive hn
      have hn' := List.nodup_cons.mp hn
      obtain ⟨s₁, h₁, hd, -⟩ := drop_ok cfg hs (hlive e List.mem_cons_self)
      obtain ⟨s₂, h₂, hds⟩ := ih hd.sound (fun e' he' => by
        rw [hd.kept e'.key fun e'' he'' hk => ?_]
        · exact hlive e' (List.mem_cons_of_mem _ he')
        · rw [List.mem_singleton.mp he''] at hk
          exact hn'.1 (List.mem_map.mpr ⟨e', he', hk.symm⟩)) hn'.2
      exact ⟨s₂, by rw [List.foldlM_cons, h₁]; exact h₂, hd.trans hds⟩
  obtain ⟨hlive, hn⟩ := values_live hs
  exact hall _ hs hlive hn

end Operations

/-! ## Runs

Between the calls the pool may do anything with its map, which soundness does not speak of. So the
invariant is kept by the calls and untouched by the rest.
-/

/-- The entry `e` of `s` is gone in `s'`: its key is not there, or names an entry of other tokens.
-/
def DroppedBy (s s' : Registry Pool Blk Key) (e : Entry Key Blk) : Prop :=
  s.entries.get? e.key = some e ∧
    ∀ e', s'.entries.get? e.key = some e' → e'.tokens ≠ e.tokens

/-- The pool lost the recorded blocks of the entries that are gone, and nothing else. -/
structure Unmaps (api : BlockPool Pool Blk GKey) (cfg : Config Key GKey)
    (s s' : Registry Pool Blk Key) : Prop where
  unmapped : ∀ e, DroppedBy s s' e → ∀ b r, e.blocks.get? b = some r →
    api.contain s'.pool (cfg.makeKey e.key r.groupId) b = false
  untouched : ∀ k b, (∀ e, DroppedBy s s' e → b ∉ e.blocks.keys) →
    api.contain s'.pool k b = api.contain s.pool k b

theorem droppedBy_iff {s s' : Registry Pool Blk Key} {ds : List (Entry Key Blk)}
    (h : Dropping api cfg s s' ds) {e : Entry Key Blk} : DroppedBy s s' e ↔ e ∈ ds := by
  constructor
  · rintro ⟨hlive, hgone⟩
    by_contra hne
    refine hgone e ?_ rfl
    rw [h.kept e.key fun e' he' hk => hne ?_]
    · exact hlive
    · have := h.live e' he'
      rw [hk, hlive, Option.some.injEq] at this
      exact this ▸ he'
  · intro he
    exact ⟨h.live e he, fun e' he' => by simp [h.dropped e he] at he'⟩

theorem Dropping.unmaps {s s' : Registry Pool Blk Key} {ds : List (Entry Key Blk)}
    (h : Dropping api cfg s s' ds) : Unmaps api cfg s s' where
  unmapped e he _ _ hr := h.unmapped e ((droppedBy_iff h).mp he) hr
  untouched k b hb := h.untouched k b fun e he => hb e ((droppedBy_iff h).mpr he)

/-- Moving a block drops nothing. -/
theorem moved_unmaps {s : Registry Pool Blk Key} (cfg : Config Key GKey) (src dst : Blk)
    (groupId : Nat) : Unmaps api cfg s (moved api s src dst groupId) := by
  have hsame : ∀ e, ¬ DroppedBy s (moved api s src dst groupId) e := by
    rintro e ⟨hlive, hgone⟩
    unfold moved at hgone
    revert hgone
    split
    · exact fun hgone => hgone e hlive rfl
    · split
      · exact fun hgone => hgone e hlive rfl
      · rename_i tag _ _ e' he'
        split
        · exact fun hgone => hgone e hlive rfl
        · split
          · exact fun hgone => hgone e hlive rfl
          · intro hgone
            by_cases hk : e.key = tag.key
            · rw [← hk, hlive, Option.some.injEq] at he'
              subst he'
              let blocks := (e.blocks.erase (api.blockId src)).set (api.blockId dst)
                ⟨groupId, dst, tag.epoch⟩
              refine hgone { e with blocks := blocks } ?_ rfl
              rw [hk]
              exact Dict.get?_set_self
            · exact hgone e ((Dict.get?_set_of_ne hk).trans hlive) rfl
  have hpool : (moved api s src dst groupId).pool = s.pool := by
    unfold moved
    split
    · rfl
    · split
      · rfl
      · split
        · rfl
        · split <;> rfl
  exact ⟨fun e he => absurd he (hsame e), fun k b _ => by rw [hpool]⟩

/-- **Every event keeps the registry sound**, none raises, and what leaves the pool's map are the
recorded blocks of the entries that are dropped. -/
theorem stepOk_ok {s : Registry Pool Blk Key} (hs : Sound api s) (cfg : Config Key GKey)
    (ev : Event Pool Blk Key) :
    ∃ s', stepOk api cfg s ev = .ok s' ∧ Sound api s' ∧
      ((∀ pool, ev ≠ .poolChange pool) → Unmaps api cfg s s') := by
  cases ev with
  | moved src dst groupId =>
    exact ⟨_, rfl, hs.moved src dst groupId, fun _ => moved_unmaps cfg src dst groupId⟩
  | poolChange pool =>
    exact ⟨_, rfl, hs.congr (fun _ => rfl) rfl, fun h => absurd rfl (h pool)⟩
  | admitEntry key blocks groupIds =>
    obtain ⟨ok, s', ds, h, hd, -⟩ := admit_ok hs cfg key blocks groupIds
    exact ⟨s', by simp only [stepOk, h]; rfl, hd.sound, fun _ => hd.unmaps⟩
  | clear =>
    obtain ⟨s', h, hd⟩ := clear_ok hs cfg
    exact ⟨s', h, hd.sound, fun _ => hd.unmaps⟩
  | record key tokens groupId block =>
    obtain ⟨s', s₁, ds₁, ds, h, hd₁, hds₁, ht₁, hd, hds, -, e', he', ht'⟩ :=
      record_ok hs cfg key tokens groupId block
    have hother : ∀ {k}, k ≠ key → (enter api s₁ key tokens groupId block).entries.get? k =
        s.entries.get? k := fun {k} hk =>
      (Dict.get?_moveToEnd.trans (Dict.get?_set_of_ne hk)).trans
        (hd₁.kept k fun e he => (hds₁ e he).1 ▸ hk.symm)
    have hgone : ∀ e, DroppedBy s s' e ↔ e ∈ ds₁ ∨ e ∈ ds := by
      intro e
      by_cases hk : e.key = key
      · constructor
        · rintro ⟨hlive, hg⟩
          by_contra hne
          refine hg e' (hk ▸ he') ?_
          have hs₁ : s₁.entries.get? key = some e := by
            rw [← hk, hd₁.kept e.key fun e'' he'' hk' => ?_]
            · exact hlive
            · have := hd₁.live e'' he''
              rw [hk', hlive, Option.some.injEq] at this
              exact hne (Or.inl (this ▸ he''))
          rw [ht', ht₁ e hs₁]
        · rintro (he | he)
          · refine ⟨hd₁.live e he, fun e'' he'' => ?_⟩
            rw [hk, he', Option.some.injEq] at he''
            rw [← he'', ht']
            exact (hds₁ e he).2.symm
          · exact absurd hk (hds e he)
      · have hiff : DroppedBy s s' e ↔ DroppedBy (enter api s₁ key tokens groupId block) s' e := by
          unfold DroppedBy
          rw [hother hk]
        rw [hiff, droppedBy_iff hd]
        exact ⟨Or.inr, fun he => he.resolve_left fun he => hk (hds₁ e he).1⟩
    refine ⟨s', h, hd.sound, fun _ => ⟨fun e he b r hr => ?_, fun k b hb => ?_⟩⟩
    · rcases (hgone e).mp he with he | he
      · by_contra hc
        have := hd.mapped_le (by simpa using hc)
        rw [show (enter api s₁ key tokens groupId block).pool = s₁.pool from rfl,
          hd₁.unmapped e he hr] at this
        exact absurd this (by simp)
      · exact hd.unmapped e he hr
    · rw [hd.untouched k b fun e he => hb e ((hgone e).mpr (Or.inr he)),
        show (enter api s₁ key tokens groupId block).pool = s₁.pool from rfl,
        hd₁.untouched k b fun e he => hb e ((hgone e).mpr (Or.inl he))]

/-- Every run ends without a fault in a sound registry. -/
theorem after_ok (api : BlockPool Pool Blk GKey) (cfg : Config Key GKey) (p₀ : Pool)
    (h : List (Event Pool Blk Key)) : ∃ s, after api cfg p₀ h = .ok s ∧ Sound api s := by
  refine invariant (P := fun x : Except (Fault GKey) (Registry Pool Blk Key) =>
    ∃ s, x = .ok s ∧ Sound api s) ⟨_, rfl, Sound.init p₀⟩
    (fun x ev hx => ?_) h
  obtain ⟨s, rfl, hs⟩ := hx
  obtain ⟨s', h', hs', -⟩ := stepOk_ok hs cfg ev
  exact ⟨s', h', hs'⟩

/-- **The registry keeps its integrity on every run**, whatever the pool does between the calls. -/
theorem registry_integrity (api : BlockPool Pool Blk GKey) (cfg : Config Key GKey) (p₀ : Pool)
    (h : List (Event Pool Blk Key)) :
    ∃ s, after api cfg p₀ h = .ok s ∧
      (∀ b t, s.tags.get? b = some t → ∃ e r, s.entries.get? t.key = some e ∧
        e.tokens = t.tokens ∧ e.blocks.get? b = some r ∧ r.epoch = t.epoch) ∧
      (∀ key tokens groupId block, ∃ s', record api cfg s key tokens groupId block = .ok s' ∧
        (s'.entries.size : Int) ≤ max cfg.cap 1 ∧ key ∈ s'.entries.keys) ∧
      (∀ key blocks groupIds, ∃ ok s', admitEntry api cfg s key blocks groupIds = .ok (ok, s') ∧
        (ok = true → ∀ e, s.entries.get? key = some e → ∀ groupId block,
          (groupId, block) ∈ groupIds.zip blocks → api.blockId block ∈ e.blocks.keys →
            ∃ r, e.blocks.get? (api.blockId block) = some r ∧ r.groupId = groupId ∧
              r.block = block ∧
              s.tags.get? (api.blockId block) = some ⟨r.epoch, key, e.tokens⟩ ∧
              api.contain s.pool (cfg.makeKey key groupId) (api.blockId block) = true)) ∧
      ∀ ev, (∀ pool, ev ≠ .poolChange pool) →
        ∃ s', stepOk api cfg s ev = .ok s' ∧ Unmaps api cfg s s' := by
  obtain ⟨s, hrun, hs⟩ := after_ok api cfg p₀ h
  refine ⟨s, hrun, fun b t ht => hs.tag_live ht, fun key tokens groupId block => ?_,
    fun key blocks groupIds => ?_, fun ev hev => ?_⟩
  · obtain ⟨s', -, -, -, h', -, -, -, -, -, hcap, e, he, -⟩ :=
      record_ok hs cfg key tokens groupId block
    exact ⟨s', h', hcap, Dict.mem_keys_iff.mpr ⟨e, he⟩⟩
  · obtain ⟨ok, s', -, h', -, hok⟩ := admit_ok hs cfg key blocks groupIds
    refine ⟨ok, s', h', fun hb e he groupId block hz hm => ?_⟩
    have hv := hok hb e he (groupId, block) hz hm
    have hek := hs.entry_key he
    unfold valid at hv
    cases hr : e.blocks.get? (api.blockId block) with
    | none => simp [hr] at hv
    | some r =>
      simp only [hr, Bool.and_eq_true, decide_eq_true_eq, hek] at hv
      exact ⟨r, rfl, hv.1.1.1.1, hv.1.1.1.2, hv.1.2, hv.2⟩
  · obtain ⟨s', h', -, hun⟩ := stepOk_ok hs cfg ev
    exact ⟨s', h', hun hev⟩

/-! ## A pool -/

/-- A pool as three tables. A block is its id, block 0 is the null block, and a key of the map is a
key with its group. -/
structure TablePool where
  cached : List ((Nat × Nat) × Nat)
  primary : Nat → Option (Nat × Nat)
  hashesByBlock : Nat → Option (List (Nat × Nat))

/-- The pool's calls on the tables. -/
def tablePool : BlockPool TablePool Nat (Nat × Nat) where
  blockId := id
  isNull b := b == 0
  blockHash p b := p.primary b
  contain p k b := (k, b) ∈ p.cached
  pop p k b := { p with cached := p.cached.filter (· ≠ (k, b)) }
  removeCachedBlockHashes p b :=
    ⟨p.cached.filter (·.2 ≠ b), Function.update p.primary b none,
      Function.update p.hashesByBlock b none⟩
  hashesByBlock p b := p.hashesByBlock b
  setHashesByBlock p b hs := { p with hashesByBlock := Function.update p.hashesByBlock b hs }
  pop_self p k b := by simp
  pop_other p k b k' b' h := by simp [h]
  remove_primary p b k h := by simp
  remove_other p b k b' h := by simp at h ⊢; simp [h]
  remove_le p b k b' h := by simp at h ⊢; exact h.1
  contain_setHashes p b hs k b' := rfl

/-- One KDA group and room for one boundary. -/
def oneGroup : Config Nat (Nat × Nat) := ⟨1, [0], fun key groupId => (key, groupId)⟩

/-- Blocks 1 and 2 are mapped under the key 7, block 1 as its primary entry. -/
def twoTails : TablePool :=
  ⟨[((7, 0), 1), ((7, 0), 2)], fun b => if b = 1 then some (7, 0) else none, fun _ => none⟩

/-- Two boundaries recorded with room for one: the younger one stays. -/
theorem twoTails_capped :
    ∃ s, after tablePool oneGroup twoTails [.record 7 1152 0 1] = .ok s ∧
      ∃ s', record tablePool oneGroup s 8 2304 0 2 = .ok s' ∧
        (s'.entries.size : Int) ≤ max 1 1 ∧ 8 ∈ s'.entries.keys := by
  obtain ⟨s, h, -, hrec, -⟩ :=
    registry_integrity tablePool oneGroup twoTails [.record 7 1152 0 1]
  exact ⟨s, h, hrec 8 2304 0 2⟩

/-- A block the registry never recorded under the key is admitted. -/
theorem native_tail_admitted :
    ∃ s s', after tablePool oneGroup twoTails [.record 7 1152 0 1] = .ok s ∧
      admitEntry tablePool oneGroup s 7 [2] [0] = .ok (true, s') ∧
      tablePool.contain s.pool (7, 0) 2 = true ∧
      ¬ ∃ e r, s.entries.get? 7 = some e ∧ e.blocks.get? 2 = some r := by
  refine ⟨_, _, rfl, rfl, rfl, ?_⟩
  rintro ⟨e, r, he, hr⟩
  obtain rfl := Option.some.inj he
  exact Option.some_ne_none r hr.symm

end Ringside.ReplayBoundary

import Ringside.Queue

/-!
# Insertion-ordered dictionaries

A dictionary lists its items in the order their keys came in, and holds a key at most once: that is
a field of `Dict`, so every operation keeps it.

* `set` replaces a value in place or appends a new key, as Python's assignment does; `moveToEnd`
  makes a key the last one (`OrderedDict`); `erase` is `pop` with a default.
* `get?` looks a key up; `first?` is the oldest value.

Lookups see through the order: `mem_items` and the `get?` lemmas (after `set`, `erase` and
`moveToEnd`, at the key and at another) are all a client needs, and are simp lemmas where they have
no side condition.
-/

namespace Ringside

variable {κ ν : Type*} [DecidableEq κ]

/-- The items of a dictionary, oldest first; no key twice. -/
structure Dict (κ ν : Type*) where
  items : List (κ × ν)
  nodup : (items.map Prod.fst).Nodup

namespace Dict

/-- `{}`. -/
def empty : Dict κ ν := ⟨[], List.nodup_nil⟩

def keys (d : Dict κ ν) : List κ := d.items.map Prod.fst

def values (d : Dict κ ν) : List ν := d.items.map Prod.snd

/-- `d.get(k)`. -/
def get? (d : Dict κ ν) (k : κ) : Option ν := (d.items.find? fun kv => kv.1 = k).map Prod.snd

/-- `d.pop(k, None)`. -/
def erase (d : Dict κ ν) (k : κ) : Dict κ ν :=
  ⟨d.items.filter fun kv => kv.1 ≠ k, d.nodup.sublist (List.filter_sublist.map _)⟩

/-- `d[k] = v`. -/
def set (d : Dict κ ν) (k : κ) (v : ν) : Dict κ ν :=
  if hk : k ∈ d.keys then
    ⟨d.items.map fun kv => if kv.1 = k then (k, v) else kv, by
      have : (d.items.map fun kv => if kv.1 = k then (k, v) else kv).map Prod.fst = d.keys := by
        rw [List.map_map]
        refine List.map_congr_left fun kv _ => ?_
        by_cases h : kv.1 = k <;> simp [h]
      rw [this]
      exact d.nodup⟩
  else
    ⟨d.items ++ [(k, v)], by
      rw [List.map_append, List.map_singleton]
      exact d.nodup.append (List.nodup_singleton k) (by simpa [keys] using hk)⟩

/-- `d.move_to_end(k)`, for a key of `d`. -/
def moveToEnd (d : Dict κ ν) (k : κ) : Dict κ ν :=
  ⟨Queue.rotate (fun kv => kv.1 = k) d.items, by
    refine (List.Perm.nodup_iff ?_).mpr d.nodup
    exact ((List.perm_append_comm).trans
      (List.filter_append_perm (fun kv => decide (kv.1 = k)) d.items)).map _⟩

/-! ## Lookup -/

variable {d : Dict κ ν} {k k' : κ} {v : ν}

theorem mem_items : (k, v) ∈ d.items ↔ d.get? k = some v := by
  unfold get?
  constructor
  · intro h
    cases hf : d.items.find? fun kv => kv.1 = k with
    | none => exact absurd (List.find?_eq_none.mp hf _ h) (by simp)
    | some kv =>
      have hk : kv.1 = k := by simpa using List.find?_some hf
      have hm := List.mem_of_find?_eq_some hf
      have := List.inj_on_of_nodup_map d.nodup hm h hk
      rw [this]
      rfl
  · intro h
    obtain ⟨kv, hf, rfl⟩ := Option.map_eq_some_iff.mp h
    have hk : kv.1 = k := by simpa using List.find?_some hf
    rw [← hk]
    exact List.mem_of_find?_eq_some hf

omit [DecidableEq κ] in
theorem mem_keys : k ∈ d.keys ↔ ∃ v, (k, v) ∈ d.items := by
  simp [keys]

theorem mem_keys_iff : k ∈ d.keys ↔ ∃ v, d.get? k = some v := by
  simp only [mem_keys, mem_items]

theorem get?_eq_none : d.get? k = none ↔ k ∉ d.keys := by
  rw [mem_keys_iff, Option.eq_none_iff_forall_ne_some]
  simp

/-- Dictionaries that hold the same items look up the same. -/
theorem get?_congr {d' : Dict κ ν} (h : ∀ v, (k, v) ∈ d.items ↔ (k', v) ∈ d'.items) :
    d.get? k = d'.get? k' := by
  ext v
  exact mem_items.symm.trans ((h v).trans mem_items)

@[simp] theorem get?_empty : (empty : Dict κ ν).get? k = none := rfl

@[simp] theorem get?_erase_self : (d.erase k).get? k = none := by
  rw [get?_eq_none]
  simp [keys, erase]

theorem get?_erase_of_ne (h : k' ≠ k) : (d.erase k).get? k' = d.get? k' :=
  get?_congr fun v => by simp [erase, h]

@[simp] theorem get?_moveToEnd : (d.moveToEnd k).get? k' = d.get? k' :=
  get?_congr fun v => by simp only [moveToEnd, Queue.mem_rotate]

@[simp] theorem get?_set_self : (d.set k v).get? k = some v := by
  rw [← mem_items]
  unfold set
  split
  · rename_i hk
    obtain ⟨v', hv'⟩ := mem_keys.mp hk
    exact List.mem_map.mpr ⟨(k, v'), hv', if_pos rfl⟩
  · exact List.mem_append_right _ (List.mem_singleton.mpr rfl)

theorem get?_set_of_ne (h : k' ≠ k) : (d.set k v).get? k' = d.get? k' := by
  refine get?_congr fun v' => ?_
  unfold set
  split
  · simp only [List.mem_map]
    constructor
    · rintro ⟨kv, hkv, he⟩
      by_cases hk : kv.1 = k
      · rw [if_pos hk] at he
        exact absurd (congrArg Prod.fst he).symm h
      · rw [if_neg hk] at he
        exact he ▸ hkv
    · exact fun hv => ⟨(k', v'), hv, if_neg h⟩
  · simp [h]

/-! ## Size and order -/

def size (d : Dict κ ν) : Nat := d.items.length

theorem size_moveToEnd : (d.moveToEnd k).size = d.size := Queue.length_rotate _ _

theorem keys_erase : (d.erase k).keys = d.keys.erase k := by
  rw [keys, keys, List.Nodup.erase_eq_filter d.nodup]
  simp only [erase, List.filter_map]
  refine congrArg _ (List.filter_congr fun kv _ => ?_)
  simp [bne, beq_eq_decide]

theorem size_erase (h : k ∈ d.keys) : (d.erase k).size + 1 = d.size := by
  have hkeys : ∀ d : Dict κ ν, d.size = d.keys.length := fun d => by simp [size, keys]
  have hpos := List.length_pos_of_mem h
  rw [hkeys, hkeys, keys_erase, List.length_erase_of_mem h]
  omega

/-- `next(iter(d.values()))`. -/
def first? (d : Dict κ ν) : Option ν := d.items.head?.map Prod.snd

theorem get?_of_first? (h : d.first? = some v) : ∃ k rest, d.items = (k, v) :: rest ∧
    d.get? k = some v := by
  obtain ⟨⟨k, v'⟩, hh, rfl⟩ := Option.map_eq_some_iff.mp h
  obtain ⟨rest, hr⟩ := List.head?_eq_some_iff.mp hh
  exact ⟨k, rest, hr, mem_items.mp (hr ▸ List.mem_cons_self)⟩

omit [DecidableEq κ] in
theorem size_of_first?_none (h : d.first? = none) : d.size = 0 := by
  unfold first? at h
  rw [Option.map_eq_none_iff, List.head?_eq_none_iff] at h
  simp [size, h]

/-- A key that is still the first one after it moved to the end is the only one. -/
theorem size_of_first_moveToEnd {rest : List (κ × ν)} (h : (d.moveToEnd k).items = (k, v) :: rest) :
    d.size ≤ 1 := by
  have hnil : d.items.filter (fun kv => !decide (kv.1 = k)) = [] := by
    cases hf : d.items.filter (fun kv => !decide (kv.1 = k)) with
    | nil => rfl
    | cons kv l =>
      have hne := List.mem_filter.mp (hf ▸ List.mem_cons_self : kv ∈ d.items.filter _)
      simp only [moveToEnd, Queue.rotate, hf, List.cons_append, List.cons.injEq] at h
      rw [h.1] at hne
      simp at hne
  have hall : ∀ kv ∈ d.items, kv.1 = k := fun kv hkv => by
    simpa using List.filter_eq_nil_iff.mp hnil kv hkv
  have hn := d.nodup
  unfold size
  match hi : d.items with
  | [] => simp
  | [_] => simp
  | a :: b :: _ =>
    rw [hi] at hall hn
    have hab : a.1 = b.1 := (hall a (by simp)).trans (hall b (by simp)).symm
    simp [hab] at hn

end Dict

end Ringside

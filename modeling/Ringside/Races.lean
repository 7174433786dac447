import Ringside.Scatter

/-!
# Racing stores

The programs of a launch store at once: each address ends with one of the values stored to it, or
keeps what it held. Launches follow one another and read what the ones before left.

* A launch is a list of programs and a program a list of stores, an address with a value. What a
  program reads is computed before the launch, so this is about programs that read nothing another
  one stores to.
* `Outcome` is a relation: it says which memories a launch may leave. A memory is any function of
  addresses, of any type.
* `grid`, `lanes` and `strided` are the shapes that programs have: a grid of blocks, the lanes of a
  block before a bound, a loop with a stride.

Results:
* `outcome_serial`: running the programs one after another is an outcome, so there is one.
* `outcome_overlay`: stores that agree leave one outcome.
* `outcome_seq`: two launches in a row, as one whose first part leaves out what the second
  overwrites.
* `runs_outcome`: launches that read nothing they store to leave an outcome of all their programs.
* `stores_grid_parts`: a flat grid of two kinds of programs.
-/

namespace Ringside.Races

open Ringside.Scatter

variable {κ β : Type}

/-- A launch: what each of its programs stores. -/
abbrev Launch (κ β : Type) := List (List (κ × β))

/-- Some program stores `v` to `k`. -/
def Stores (l : Launch κ β) (k : κ) (v : β) : Prop := ∃ p ∈ l, (k, v) ∈ p

/-- What a launch may leave. -/
def Outcome (l : Launch κ β) (m m' : κ → β) : Prop := ∀ k, Stores l k (m' k) ∨
    ((∀ v, ¬ Stores l k v) ∧ m' k = m k)

/-- What launches in a row may leave, each reading the memory it finds. -/
def Runs : List ((κ → β) → Launch κ β) → (κ → β) → (κ → β) → Prop
  | [], m, m' => m' = m
  | l :: rest, m, m' => ∃ m₁, Outcome (l m) m m₁ ∧ Runs rest m₁ m'

section Outcome

variable {l a e : Launch κ β} {m m' : κ → β} {k : κ}

theorem stores_append {v : β} : Stores (a ++ e) k v ↔ Stores a k v ∨ Stores e k v := by
  unfold Stores
  simp only [List.mem_append, or_and_right, exists_or]

/-- What no program stores to is kept. -/
theorem Outcome.kept (h : Outcome l m m') (hk : ∀ v, ¬ Stores l k v) : m' k = m k :=
  (h k).elim (fun hs => absurd hs (hk _)) And.right

/-- What only one value is stored to has that value. -/
theorem Outcome.stored (h : Outcome l m m') {v : β} (hv : Stores l k v)
    (hone : ∀ v', Stores l k v' → v' = v) : m' k = v :=
  (h k).elim (hone _) fun hk => absurd hv (hk.1 v)

/-- **Running the programs one after another is an outcome.** -/
theorem outcome_serial [DecidableEq κ] : Outcome l m (stores l.flatten m) := by
  intro k
  have hmem : ∀ (ws : List (κ × β)) (m : κ → β), (k, stores ws m k) ∈ ws ∨
    (k ∉ ws.map Prod.fst ∧ stores ws m k = m k) := by
    intro ws
    induction ws with
    | nil => exact fun _ => Or.inr ⟨by simp, rfl⟩
    | cons w ws ih =>
      intro m
      show (k, stores ws (Function.update m w.1 w.2) k) ∈ w :: ws ∨
        (k ∉ (w :: ws).map Prod.fst ∧ stores ws (Function.update m w.1 w.2) k = m k)
      rcases ih (Function.update m w.1 w.2) with hin | ⟨hout, heq⟩
      · exact Or.inl (List.mem_cons_of_mem _ hin)
      · rw [heq]
        by_cases hk : k = w.1
        · left
          rw [hk, Function.update_self]
          exact List.mem_cons_self
        · right
          rw [Function.update_of_ne hk, List.map_cons, List.mem_cons, not_or]
          exact ⟨⟨hk, hout⟩, rfl⟩
  rcases hmem l.flatten m with hin | ⟨hout, heq⟩
  · exact Or.inl (List.mem_flatten.mp hin)
  · refine Or.inr ⟨fun v ⟨p, hp, hv⟩ => hout ?_, heq⟩
    exact List.mem_map.mpr ⟨(k, v), List.mem_flatten.mpr ⟨p, hp, hv⟩, rfl⟩

/-- Launches in a row leave something. -/
theorem exists_runs [DecidableEq κ] (ls : List ((κ → β) → Launch κ β)) (m : κ → β) :
    ∃ m', Runs ls m m' := by
  induction ls generalizing m with
  | nil => exact ⟨m, rfl⟩
  | cons l ls ih =>
    obtain ⟨m', h⟩ := ih (stores (l m).flatten m)
    exact ⟨m', _, outcome_serial, h⟩

/-- Memory with the values of `f` over it. -/
def overlay (f : κ → Option β) (m : κ → β) : κ → β := fun k => (f k).getD (m k)

theorem overlay_some {f : κ → Option β} {v : β} (h : f k = some v) : overlay f m k = v := by
  unfold overlay
  rw [h, Option.getD_some]

theorem overlay_none {f : κ → Option β} (h : f k = none) : overlay f m k = m k := by
  unfold overlay
  rw [h, Option.getD_none]

/-- **Stores that agree leave one outcome.** -/
theorem outcome_overlay {f : κ → Option β} (hf : ∀ k v, Stores l k v ↔ f k = some v) :
    Outcome l m m' ↔ m' = overlay f m := by
  constructor
  · intro h
    funext k
    rcases h k with hs | ⟨hn, heq⟩
    · exact (overlay_some ((hf k _).mp hs)).symm
    · have hnone : f k = none := Option.eq_none_iff_forall_ne_some.mpr fun v hv =>
        hn v ((hf k v).mpr hv)
      rw [heq, overlay_none hnone]
  · rintro rfl k
    cases hk : f k with
    | none =>
      refine Or.inr ⟨fun v hs => ?_, overlay_none hk⟩
      rw [(hf k v).mp hs] at hk
      cases hk
    | some v =>
      rw [overlay_some hk]
      exact Or.inl ((hf k v).mpr hk)

/-- Stores to an address that agree. -/
theorem Outcome.unique (hl : ∀ k v v', Stores l k v → Stores l k v' → v = v') {m₁ m₂ : κ → β}
    (h₁ : Outcome l m m₁)
    (h₂ : Outcome l m m₂) : m₁ = m₂ := by
  funext k
  rcases h₁ k with hs | ⟨hn, heq⟩
  · rcases h₂ k with hs' | ⟨hn', -⟩
    · exact hl k _ _ hs hs'
    · exact absurd hs (hn' _)
  · exact heq.trans (h₂.kept hn).symm

/-- **Two launches in a row**, as one that leaves out of the first what the second overwrites. -/
theorem outcome_seq {l : Launch κ β}
    (hl : ∀ k v, Stores l k v ↔ (Stores a k v ∧ ∀ v', ¬ Stores e k v') ∨ Stores e k v) :
    Outcome l m m' ↔ ∃ m₁, Outcome a m m₁ ∧ Outcome e m₁ m' := by
  classical
  constructor
  · intro h
    refine ⟨fun k => if hk : ∃ v, Stores e k v then
      (if ha : ∃ v, Stores a k v then ha.choose else m k) else m' k,
      fun k => ?_, fun k => ?_⟩
    · dsimp only
      split_ifs with he ha
      · exact Or.inl ha.choose_spec
      · exact Or.inr ⟨fun v hv => ha ⟨v, hv⟩, rfl⟩
      · have hnot : ∀ v, ¬ Stores e k v := fun v hv => he ⟨v, hv⟩
        rcases h k with hs | ⟨hn, heq⟩
        · exact Or.inl (((hl k _).mp hs).resolve_right (hnot _)).1
        · exact Or.inr ⟨fun v hv => hn v ((hl k v).mpr (Or.inl ⟨hv, hnot⟩)), heq⟩
    · dsimp only
      split_ifs with he ha
      · obtain ⟨v, hv⟩ := he
        rcases h k with hs | ⟨hn, -⟩
        · exact Or.inl (((hl k _).mp hs).resolve_left fun hc => hc.2 v hv)
        · exact absurd ((hl k v).mpr (Or.inr hv)) (hn v)
      · obtain ⟨v, hv⟩ := he
        rcases h k with hs | ⟨hn, -⟩
        · exact Or.inl (((hl k _).mp hs).resolve_left fun hc => hc.2 v hv)
        · exact absurd ((hl k v).mpr (Or.inr hv)) (hn v)
      · exact Or.inr ⟨fun v hv => he ⟨v, hv⟩, rfl⟩
  · rintro ⟨m₁, ha, he⟩ k
    rcases he k with hs | ⟨hn, heq⟩
    · exact Or.inl ((hl k _).mpr (Or.inr hs))
    · rcases ha k with hs | ⟨hn', heq'⟩
      · exact Or.inl ((hl k _).mpr (Or.inl ⟨heq ▸ hs, hn⟩))
      · exact Or.inr ⟨fun v hv => ((hl k v).mp hv).elim (fun hc => hn' v hc.1) (hn v),
          heq.trans heq'⟩

theorem runs_append {p q : List ((κ → β) → Launch κ β)} : Runs (p ++ q) m m' ↔ ∃ m₁, Runs p m m₁ ∧
    Runs q m₁ m' := by
  induction p generalizing m with
  | nil =>
    simp only [List.nil_append, Runs, exists_eq_left]
  | cons l p ih =>
    simp only [List.cons_append, Runs, ih]
    constructor
    · rintro ⟨m₁, hl, m₂, hp, hq⟩
      exact ⟨m₂, ⟨m₁, hl, hp⟩, hq⟩
    · rintro ⟨m₂, ⟨m₁, hl, hp⟩, hq⟩
      exact ⟨m₁, hl, m₂, hp, hq⟩

/-- **Launches that read nothing they store to** leave an outcome of all their programs at once:
`kept` is what they read. -/
theorem runs_outcome {ls : List ((κ → β) → Launch κ β)} (kept : κ → Prop)
    (hread : ∀ l ∈ ls, ∀ m₁ : κ → β, (∀ k, kept k → m₁ k = m k) → l m₁ = l m)
    (hkeep : ∀ l ∈ ls, ∀ k, kept k → ∀ v, ¬ Stores (l m) k v) (h : Runs ls m m') :
    Outcome (ls.flatMap fun l => l m) m m' := by
  -- from any memory that holds what is read
  suffices hall : ∀ m₁ : κ → β, (∀ k, kept k → m₁ k = m k) → Runs ls m₁ m' →
    Outcome (ls.flatMap fun l => l m) m₁ m' from
    hall m (fun _ _ => rfl) h
  clear h
  induction ls with
  | nil =>
    intro m₁ _ h k
    have hsame : m' = m₁ := h
    exact Or.inr ⟨fun _ ⟨_, hp, _⟩ => absurd hp List.not_mem_nil, congrFun hsame k⟩
  | cons l ls ih =>
    rintro m₁ hm₁ ⟨m₂, hl, hrest⟩ k
    rw [hread l List.mem_cons_self m₁ hm₁] at hl
    have hm₂ : ∀ k, kept k → m₂ k = m k := fun k hk =>
      (hl.kept (hkeep l List.mem_cons_self k hk)).trans (hm₁ k hk)
    have hout := ih (fun l hl => hread l (List.mem_cons_of_mem _ hl))
      (fun l hl => hkeep l (List.mem_cons_of_mem _ hl))
      m₂ hm₂ hrest
    rw [List.flatMap_cons]
    simp only [stores_append]
    rcases hout k with hs | ⟨hno, heq⟩
    · exact Or.inl (Or.inr hs)
    · rcases hl k with hs | ⟨hno', heq'⟩
      · exact Or.inl (Or.inl (heq ▸ hs))
      · exact Or.inr ⟨fun v => not_or.mpr ⟨hno' v, hno v⟩, heq.trans heq'⟩

end Outcome

/-! ## Grids -/

section Grid

/-- A grid of `a` by `b` programs. -/
def grid (a b : Nat) (program : Nat → Nat → List (κ × β)) : Launch κ β :=
  (List.range a).flatMap fun x => (List.range b).map (program x)

/-- A grid of `a` by `b` by `c` programs. -/
def grid3 (a b c : Nat) (program : Nat → Nat → Nat → List (κ × β)) : Launch κ β :=
  (List.range a).flatMap fun x => (List.range b).flatMap fun y => (List.range c).map (program x y)

variable {a b c : Nat} {k : κ} {v : β}

theorem stores_grid {program : Nat → Nat → List (κ × β)} :
    Stores (grid a b program) k v ↔ ∃ x < a, ∃ y < b, (k, v) ∈ program x y := by
  unfold Stores grid
  simp only [List.mem_flatMap, List.mem_map, List.mem_range]
  constructor
  · rintro ⟨p, ⟨x, hx, y, hy, rfl⟩, hm⟩
    exact ⟨x, hx, y, hy, hm⟩
  · rintro ⟨x, hx, y, hy, hm⟩
    exact ⟨_, ⟨x, hx, y, hy, rfl⟩, hm⟩

theorem stores_grid3 {program : Nat → Nat → Nat → List (κ × β)} :
    Stores (grid3 a b c program) k v ↔ ∃ x < a, ∃ y < b, ∃ z < c, (k, v) ∈ program x y z := by
  unfold Stores grid3
  simp only [List.mem_flatMap, List.mem_map, List.mem_range]
  constructor
  · rintro ⟨p, ⟨x, hx, y, hy, z, hz, rfl⟩, hm⟩
    exact ⟨x, hx, y, hy, z, hz, hm⟩
  · rintro ⟨x, hx, y, hy, z, hz, hm⟩
    exact ⟨_, ⟨x, hx, y, hy, z, hz, rfl⟩, hm⟩

theorem stores_grid_congr {f g : Nat → Nat → List (κ × β)} (h : ∀ x < a, ∀ y < b, f x y = g x y) :
    Stores (grid a b f) k v ↔ Stores (grid a b g) k v := by
  rw [stores_grid, stores_grid]
  constructor
  · rintro ⟨x, hx, y, hy, hm⟩
    exact ⟨x, hx, y, hy, h x hx y hy ▸ hm⟩
  · rintro ⟨x, hx, y, hy, hm⟩
    exact ⟨x, hx, y, hy, (h x hx y hy).symm ▸ hm⟩

theorem stores_grid_append {f g : Nat → Nat → List (κ × β)} :
    Stores (grid a b fun x y => f x y ++ g x y) k v ↔ Stores (grid a b f) k v ∨
    Stores (grid a b g) k v := by
  simp only [stores_grid, List.mem_append]
  constructor
  · rintro ⟨x, hx, y, hy, hm | hm⟩
    · exact Or.inl ⟨x, hx, y, hy, hm⟩
    · exact Or.inr ⟨x, hx, y, hy, hm⟩
  · rintro (⟨x, hx, y, hy, hm⟩ | ⟨x, hx, y, hy, hm⟩)
    · exact ⟨x, hx, y, hy, Or.inl hm⟩
    · exact ⟨x, hx, y, hy, Or.inr hm⟩

/-- The rows of a grid, in two parts. -/
theorem stores_grid_rows {f : Nat → Nat → List (κ × β)} :
    Stores (grid (a + c) b f) k v ↔ Stores (grid a b f) k v ∨
    Stores (grid c b fun x => f (a + x)) k v := by
  simp only [stores_grid]
  constructor
  · rintro ⟨x, hx, y, hy, hm⟩
    rcases Nat.lt_or_ge x a with h | h
    · exact Or.inl ⟨x, h, y, hy, hm⟩
    · refine Or.inr ⟨x - a, by omega, y, hy, ?_⟩
      rwa [Nat.add_sub_cancel' h]
  · rintro (⟨x, hx, y, hy, hm⟩ | ⟨x, hx, y, hy, hm⟩)
    · exact ⟨x, by omega, y, hy, hm⟩
    · exact ⟨a + x, by omega, y, hy, hm⟩

theorem stores_single {p : List (κ × β)} : Stores [p] k v ↔ (k, v) ∈ p := by
  unfold Stores
  simp only [List.mem_singleton, exists_eq_left]

/-- The lanes of block `b` of width `w` that lie before `n`. -/
def lanes (w b n : Nat) : List Nat := ((List.range w).map fun i => b * w + i).filter (· < n)

theorem mem_lanes {w b n x : Nat} (hw : 0 < w) : x ∈ lanes w b n ↔ x < n ∧ x / w = b := by
  unfold lanes
  rw [List.mem_filter, List.mem_map, decide_eq_true_eq, and_comm]
  refine and_congr_right fun _ => ?_
  constructor
  · rintro ⟨i, hi, rfl⟩
    rw [Nat.mul_comm, Nat.mul_add_div hw, Nat.div_eq_of_lt (List.mem_range.mp hi), Nat.add_zero]
  · rintro rfl
    exact ⟨x % w, List.mem_range.mpr (Nat.mod_lt x hw), Nat.div_add_mod' x w⟩

/-- The blocks of width `w` cover what lies before `n`. -/
theorem exists_lane {w n : Nat} (hw : 0 < w) {P : Nat → Prop} :
    (∃ b < (n + w - 1) / w, ∃ x ∈ lanes w b n, P x) ↔ ∃ x < n, P x := by
  constructor
  · rintro ⟨b, -, x, hx, hp⟩
    exact ⟨x, ((mem_lanes hw).mp hx).1, hp⟩
  · rintro ⟨x, hx, hp⟩
    refine ⟨x / w, ?_, x, (mem_lanes hw).mpr ⟨hx, rfl⟩, hp⟩
    rw [Nat.lt_iff_add_one_le, Nat.le_div_iff_mul_le hw, Nat.succ_mul]
    have := Nat.div_mul_le_self x w
    omega

/-- A loop from `start` on while below `stop`, by `step`. -/
def strided (start stop step : Nat) : List Nat :=
    List.range' start ((stop - start + step - 1) / step) step

theorem mem_strided {start stop step x : Nat} (hstep : 0 < step) :
    x ∈ strided start stop step ↔ start ≤ x ∧ x < stop ∧ x % step = start % step := by
  unfold strided
  rw [List.mem_range']
  constructor
  · rintro ⟨i, hi, rfl⟩
    have hi' := (Nat.le_div_iff_mul_le hstep).mp (Nat.succ_le_of_lt hi)
    rw [Nat.succ_mul, Nat.mul_comm] at hi'
    exact ⟨Nat.le_add_right _ _, by omega, Nat.add_mul_mod_self_left _ _ _⟩
  · rintro ⟨hle, hlt, hmod⟩
    obtain ⟨i, hi⟩ := (Nat.modEq_iff_dvd' hle).mp hmod.symm
    refine ⟨i, ?_, by omega⟩
    rw [Nat.lt_iff_add_one_le, Nat.le_div_iff_mul_le hstep, Nat.succ_mul, Nat.mul_comm i, ← hi]
    omega

theorem nodup_strided {start stop step : Nat} (hstep : 0 < step) :
    (strided start stop step).Nodup :=
  List.nodup_range' step hstep

/-- The loops of `step` programs share what lies below `stop`. -/
theorem exists_strided {stop step : Nat} (hstep : 0 < step) {P : Nat → Prop} :
    (∃ t < step, ∃ x ∈ strided t stop step, P x) ↔ ∃ x < stop, P x := by
  constructor
  · rintro ⟨t, -, x, hx, hp⟩
    exact ⟨x, ((mem_strided hstep).mp hx).2.1, hp⟩
  · rintro ⟨x, hx, hp⟩
    refine ⟨x % step, Nat.mod_lt x hstep, x, (mem_strided hstep).mpr
      ⟨Nat.mod_le x step, hx, ?_⟩, hp⟩
    rw [Nat.mod_mod]

/-- A flat program index is a pair. -/
theorem exists_divMod {P : Nat → Nat → Prop} : (∃ p < a * b, P (p / b) (p % b)) ↔
    ∃ x < a, ∃ y < b, P x y := by
  constructor
  · rintro ⟨p, hp, h⟩
    have hb : 0 < b := Nat.pos_of_ne_zero fun h0 => by simp [h0] at hp
    exact ⟨p / b, (Nat.div_lt_iff_lt_mul hb).mpr hp, p % b, Nat.mod_lt p hb, h⟩
  · rintro ⟨x, hx, y, hy, h⟩
    have hb : 0 < b := by omega
    have hlt : x * b + y < a * b := by
      have := Nat.mul_le_mul_right b (show x + 1 ≤ a from hx)
      rw [Nat.succ_mul] at this
      omega
    refine ⟨x * b + y, hlt, ?_⟩
    rwa [Nat.mul_comm x b, Nat.mul_add_div hb, Nat.div_eq_of_lt hy, Nat.add_zero, Nat.mul_add_mod,
      Nat.mod_eq_of_lt hy]

/-- **A flat grid of two kinds of programs**, the first kind indexed by pairs. -/
theorem stores_grid_parts {d : Nat} {f : Nat → Nat → Nat → List (κ × β)}
    {g : Nat → Nat → List (κ × β)} :
    Stores (grid a (b * c + d) fun x p => if p < b * c then f x (p / c) (p % c)
    else g x (p - b * c)) k v ↔ Stores (grid3 a b c f) k v ∨ Stores (grid a d g) k v := by
  rw [stores_grid, stores_grid, stores_grid3]
  constructor
  · rintro ⟨x, hx, p, hp, hm⟩
    split_ifs at hm with h
    · exact Or.inl ⟨x, hx, exists_divMod.mp ⟨p, h, hm⟩⟩
    · exact Or.inr ⟨x, hx, p - b * c, by omega, hm⟩
  · rintro (⟨x, hx, hyz⟩ | ⟨x, hx, y, hy, hm⟩)
    · obtain ⟨p, hp, hm⟩ := exists_divMod.mpr hyz
      refine ⟨x, hx, p, by omega, ?_⟩
      rwa [if_pos hp]
    · refine ⟨x, hx, b * c + y, by omega, ?_⟩
      rwa [if_neg (by omega), Nat.add_sub_cancel_left]

end Grid

end Ringside.Races

import Mathlib.Data.Nat.Count
import Mathlib.Tactic

/-!
# Stores and compaction

A launch of parallel programs leaves what its stores write; `stores` applies them in one order. When
the slots written are distinct the order does not matter. The second half counts flags: `Nat.count p
n` is how many of the first `n` are set, and so the slot of a set flag in the compacted list.

* `nodup_flatMap_range`, `digits_inj` and `digits_lt` are for slots of the form `a * m + i`: they
  are distinct, and lie below a product.
* Flags are decidable predicates. A tile counts its own flags, and a running count of the tiles
  before it gives the slot.

Results:
* `stores_of_mem`, `stores_of_notMem`: with distinct slots, a store is what is read back, in any
  order, and other slots are left.
* `getElem?_filter_range`: a set flag is at the place of its count.
* `exists_count_eq`: every place is some flag's.
* `count_mul`, `sum_lanes`: counts of equal tiles add up.
-/

namespace Ringside.Scatter

section Stores

variable {κ β : Type*} [DecidableEq κ]

/-- Memory after the stores, in order. -/
def stores (ws : List (κ × β)) (m : κ → β) : κ → β :=
  ws.foldl (fun m w => Function.update m w.1 w.2) m

theorem stores_of_notMem : ∀ {ws : List (κ × β)} {m : κ → β} {k : κ},
    k ∉ ws.map Prod.fst → stores ws m k = m k
  | [], _, _, _ => rfl
  | w :: ws, m, k, h => by
    simp only [List.map_cons, List.mem_cons, not_or] at h
    show stores ws (Function.update m w.1 w.2) k = m k
    rw [stores_of_notMem h.2, Function.update_of_ne h.1]

/-- **A store is read back** when no other goes to its slot, whatever the order. -/
theorem stores_of_mem : ∀ {ws : List (κ × β)} {m : κ → β} {k : κ} {v : β},
    (ws.map Prod.fst).Nodup → (k, v) ∈ ws → stores ws m k = v
  | w :: ws, m, k, v, hd, h => by
    simp only [List.map_cons, List.nodup_cons] at hd
    show stores ws (Function.update m w.1 w.2) k = v
    rcases List.mem_cons.mp h with rfl | h
    · rw [stores_of_notMem hd.1, Function.update_self]
    · exact stores_of_mem hd.2 h

/-- What several programs store goes to distinct slots when each does and no two share one. -/
theorem nodup_flatMap_range {β : Type*} {n : Nat} {f : Nat → List β} (h : ∀ i < n, (f i).Nodup)
    (hd : ∀ i < n, ∀ j < n, i ≠ j → ∀ x ∈ f i, x ∉ f j) : ((List.range n).flatMap f).Nodup := by
  induction n with
  | zero => simp
  | succ n ih =>
    rw [List.range_succ, List.flatMap_append, List.flatMap_singleton]
    refine List.nodup_append.mpr ⟨?_, h n (by omega), ?_⟩
    · exact ih (fun i hi => h i (by omega)) fun i hi j hj => hd i (by omega) j (by omega)
    · intro x hx y hy hxy
      obtain ⟨i, hi, hxi⟩ := List.mem_flatMap.mp hx
      rw [List.mem_range] at hi
      exact hd i (by omega) n (by omega) (by omega) x hxi (hxy ▸ hy)

end Stores

/-! ## Digits -/

/-- Digits of a mixed-radix number. -/
theorem digits_inj {m a a' i i' : Nat} (hi : i < m) (hi' : i' < m) (h : a * m + i = a' * m + i') :
    a = a' ∧ i = i' := by
  have hdiv : (i + a * m) / m = (i' + a' * m) / m := by rw [Nat.add_comm i, h, Nat.add_comm]
  rw [Nat.add_mul_div_right _ _ (by omega), Nat.add_mul_div_right _ _ (by omega),
    Nat.div_eq_of_lt hi, Nat.div_eq_of_lt hi', Nat.zero_add, Nat.zero_add] at hdiv
  subst hdiv
  exact ⟨rfl, Nat.add_left_cancel h⟩

theorem digits_lt {a A i m : Nat} (ha : a < A) (hi : i < m) : a * m + i < A * m :=
  calc a * m + i < a * m + m := Nat.add_lt_add_left hi _
    _ = (a + 1) * m := (Nat.succ_mul _ _).symm
    _ ≤ A * m := Nat.mul_le_mul_right _ ha

/-! ## Counting flags -/

section Count

variable {p q : Nat → Prop} [DecidablePred p] [DecidablePred q]

/-- **A set flag is at the place of its count** in the list of set flags. -/
theorem getElem?_filter_range {n i : Nat} (hi : i < n) (hp : p i) :
    ((List.range n).filter (p ·))[Nat.count p i]? = some i := by
  induction n with
  | zero => omega
  | succ n ih =>
    have hlen : ((List.range n).filter (p ·)).length = Nat.count p n := by
      rw [Nat.count, List.countP_eq_length_filter]
    rw [List.range_succ, List.filter_append]
    rcases Nat.lt_or_ge i n with h | h
    · have hget := ih h
      rw [List.getElem?_append_left (List.getElem?_eq_some_iff.mp hget).1]
      exact hget
    · obtain rfl : i = n := by omega
      rw [List.getElem?_append_right (by rw [hlen]), hlen]
      simp [hp]

/-- Every number below the count is the count before some flag. -/
theorem exists_count_eq {n j : Nat} (h : j < Nat.count p n) : ∃ i < n, p i ∧ Nat.count p i = j := by
  induction n with
  | zero => simp at h
  | succ n ih =>
    rw [Nat.count_succ] at h
    rcases Nat.lt_or_ge j (Nat.count p n) with hlt | hge
    · obtain ⟨i, hi, hp⟩ := ih hlt
      exact ⟨i, by omega, hp⟩
    · split_ifs at h with hn
      · exact ⟨n, by omega, hn, by omega⟩
      · omega

/-- Counts before flags keep their order. -/
theorem count_lt_of_lt {i j : Nat} (hi : p i) (h : i < j) : Nat.count p i < Nat.count p j :=
  (Nat.count_lt_count_succ_iff.mpr hi).trans_le (Nat.count_monotone p h)

theorem length_filter_range (n : Nat) : ((List.range n).filter (p ·)).length = Nat.count p n := by
  rw [Nat.count, List.countP_eq_length_filter]

/-- A masked sum over more lanes than there are tiles. -/
theorem sum_lanes {live lanes : Nat} (h : live ≤ lanes) (f : Nat → Nat) :
    (∑ t ∈ Finset.range lanes, if t < live then f t else 0) = ∑ t ∈ Finset.range live, f t := by
  rw [← Finset.sum_filter]
  congr 1
  ext t
  simp only [Finset.mem_filter, Finset.mem_range]
  omega

/-- **Counts of tiles add up.** -/
theorem count_mul (B t : Nat) :
    Nat.count p (t * B) = ∑ i ∈ Finset.range t, Nat.count (fun o => p (i * B + o)) B := by
  induction t with
  | zero => simp
  | succ t ih => rw [Nat.succ_mul, Nat.count_add, ih, Finset.sum_range_succ]

theorem count_congr {n : Nat} (h : ∀ i < n, p i ↔ q i) : Nat.count p n = Nat.count q n :=
  le_antisymm (Nat.count_mono_left fun i hi => (h i hi).mp)
    (Nat.count_mono_left fun i hi => (h i hi).mpr)

theorem count_or {n : Nat} (h : ∀ i, p i → ¬ q i) :
    Nat.count (fun i => p i ∨ q i) n = Nat.count p n + Nat.count q n := by
  induction n with
  | zero => simp
  | succ n ih =>
    rw [Nat.count_succ, Nat.count_succ, Nat.count_succ, ih]
    have := h n
    by_cases hp : p n <;> by_cases hq : q n <;> simp_all <;> omega

/-- Flags beyond the last set one do not count. -/
theorem count_eq_of_le {m n : Nat} (h : m ≤ n) (hp : ∀ i, m ≤ i → ¬ p i) :
    Nat.count p n = Nat.count p m := by
  obtain ⟨d, rfl⟩ := Nat.exists_eq_add_of_le h
  rw [Nat.count_add]
  have : Nat.count (fun k => p (m + k)) d = 0 :=
    Nat.count_of_forall_not fun k _ => hp _ (Nat.le_add_right m k)
  omega

end Count

end Ringside.Scatter

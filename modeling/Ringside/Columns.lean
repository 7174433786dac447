import Mathlib.Data.List.Infix
import Mathlib.Data.List.Perm.Basic
import Mathlib.Tactic

/-!
# Dealing in turn, and reading rows by columns

`deal g l` gives the entries of a list to `g` hands in turn. Rows are read by columns when the
entries at one index come together.

* Hands are lists that grow at their end (`deal_snoc`), so entry `i` goes to hand `i % g`.
* A window is a stretch of the list; what a predicate selects of a list whose keys ascend is one
  (`exists_window`).

Results:
* `deal_perm`: a deal loses and repeats nothing.
* `getElem?_deal`: what a hand holds.
* `deal_window`: of a window of at most `m * g` entries in a row, no hand gets more than `m`.
* `columns_perm`: reading rows by columns loses and repeats nothing.
-/

namespace Ringside.Columns

variable {α : Type}

/-! ## Dealing -/

/-- Deal a list to `g` hands in turn. -/
def deal (g : Nat) (l : List α) : List (List α) :=
  l.zipIdx.foldl (fun hands e => hands.modify (e.2 % g) (· ++ [e.1])) (List.replicate g [])

theorem deal_snoc (g : Nat) (l : List α) (x : α) :
    deal g (l ++ [x]) = (deal g l).modify (l.length % g) (· ++ [x]) := by
  simp [deal, List.zipIdx_append]

@[simp] theorem length_deal (g : Nat) (l : List α) : (deal g l).length = g := by
  induction l using List.reverseRecOn with
  | nil => exact List.length_replicate
  | append_singleton l x ih => rw [deal_snoc, List.length_modify, ih]

/-- What a hand holds: the entries at the positions of its turns. -/
theorem getElem?_deal {g k : Nat} (hk : k < g) (l : List α) :
    (deal g l)[k]? = some ((l.zipIdx.filter fun e => e.2 % g = k).map Prod.fst) := by
  induction l using List.reverseRecOn with
  | nil => simp [deal, hk]
  | append_singleton l x ih =>
    rw [deal_snoc, List.getElem?_modify, ih, List.zipIdx_append, List.filter_append,
      List.map_append]
    by_cases h : l.length % g = k
    · simp [h]
    · simp [h]

theorem flatten_modify_perm (x : α) : ∀ {rows : List (List α)} {j : Nat}, j < rows.length →
    (rows.modify j (· ++ [x])).flatten.Perm (rows.flatten ++ [x])
  | [], _, h => absurd h (Nat.not_lt_zero _)
  | row :: rows, 0, _ => by
    rw [List.modify_zero_cons, List.flatten_cons, List.flatten_cons, List.append_assoc,
      List.append_assoc]
    exact List.perm_append_comm.append_left row
  | row :: rows, j + 1, h => by
    rw [List.modify_succ_cons, List.flatten_cons, List.flatten_cons, List.append_assoc]
    exact (flatten_modify_perm x (Nat.lt_of_succ_lt_succ h)).append_left row

/-- **A deal loses and repeats nothing.** -/
theorem deal_perm {g : Nat} (hg : 0 < g) (l : List α) : (deal g l).flatten.Perm l := by
  induction l using List.reverseRecOn with
  | nil => simp [deal]
  | append_singleton l x ih =>
    rw [deal_snoc]
    refine (flatten_modify_perm x ?_).trans (ih.append_right [x])
    rw [length_deal]
    exact Nat.mod_lt _ hg

/-- A hand has at most one turn in `g` turns. -/
theorem turns_le_one {g k : Nat} (s n : Nat) (hn : n ≤ g) :
    (List.range' s n).countP (fun i => i % g = k) ≤ 1 := by
  rw [List.countP_eq_length_filter, ← not_lt]
  intro h
  obtain ⟨a, b, rest, hfilter⟩ : ∃ a b rest,
      (List.range' s n).filter (fun i => decide (i % g = k)) = a :: b :: rest := by
    match (List.range' s n).filter (fun i => decide (i % g = k)), h with
    | a :: b :: rest, _ => exact ⟨a, b, rest, rfl⟩
  have hmem : ∀ x ∈ [a, b], (s ≤ x ∧ x < s + n) ∧ x % g = k := by
    intro x hx
    have hx' : x ∈ (List.range' s n).filter (fun i => decide (i % g = k)) := by
      rw [hfilter]
      simp only [List.mem_cons, List.not_mem_nil, or_false] at hx ⊢
      tauto
    obtain ⟨hr, hk⟩ := List.mem_filter.mp hx'
    exact ⟨List.mem_range'_1.mp hr, of_decide_eq_true hk⟩
  have hne : a < b := by
    have hp : ((List.range' s n).filter (fun i => decide (i % g = k))).Pairwise (· < ·) :=
      (List.pairwise_lt_range' (s := s) (n := n)).filter _
    rw [hfilter] at hp
    exact (List.pairwise_cons.mp hp).1 b List.mem_cons_self
  obtain ⟨ha, hak⟩ := hmem a (by simp)
  obtain ⟨hb, hbk⟩ := hmem b (by simp)
  have hzero := Nat.sub_mod_eq_zero_of_mod_eq (hbk.trans hak.symm)
  rw [Nat.mod_eq_of_lt (by omega)] at hzero
  omega

/-- A hand has at most `m` turns in `m * g` turns. -/
theorem turns_le {g k : Nat} : ∀ (m s n : Nat), n ≤ m * g →
    (List.range' s n).countP (fun i => i % g = k) ≤ m
  | 0, s, n, h => by
    obtain rfl : n = 0 := by omega
    simp
  | m + 1, s, n, h => by
    rw [Nat.succ_mul] at h
    have hsplit : List.range' s n =
      List.range' s (min n g) ++ List.range' (s + min n g) (n - min n g) := by
      rw [List.range'_append_1, Nat.add_sub_cancel' (Nat.min_le_left n g)]
    have hfirst := turns_le_one (k := k) s (min n g) (Nat.min_le_right n g)
    have hrest := turns_le (g := g) (k := k) m (s + min n g) (n - min n g) (by omega)
    rw [hsplit, List.countP_append]
    omega

/-- **No hand gets more than `m` of a window** of at most `m * g` entries in a row. -/
theorem deal_window {g k m : Nat} (hk : k < g) {p : α → Bool} {a w c hand : List α}
    (hhand : (deal g (a ++ w ++ c))[k]? = some hand) (ha : ∀ x ∈ a, p x = false)
    (hc : ∀ x ∈ c, p x = false) (hw : w.length ≤ m * g) : (hand.filter p).length ≤ m := by
  rw [getElem?_deal hk] at hhand
  obtain rfl := Option.some.inj hhand
  rw [← List.countP_eq_length_filter, List.countP_map, List.countP_filter, List.zipIdx_append,
    List.zipIdx_append, List.countP_append, List.countP_append]
  have hnone : ∀ (l : List α) (s : Nat), (∀ x ∈ l, p x = false) →
      (l.zipIdx s).countP (fun e => (p ∘ Prod.fst) e && decide (e.2 % g = k)) = 0 := by
    intro l s hl
    refine List.countP_eq_zero.mpr fun e he => ?_
    simp [hl e.1 (List.fst_mem_of_mem_zipIdx he)]
  rw [hnone a _ ha, hnone c _ hc, Nat.zero_add, Nat.add_zero]
  calc (w.zipIdx (0 + a.length)).countP (fun e => (p ∘ Prod.fst) e && decide (e.2 % g = k))
      ≤ (w.zipIdx (0 + a.length)).countP ((fun i => decide (i % g = k)) ∘ Prod.snd) := by
        refine List.countP_mono_left fun e _ he => ?_
        simp only [Bool.and_eq_true] at he
        exact he.2
    _ = (List.range' (0 + a.length) w.length).countP (fun i => i % g = k) := by
        rw [← List.countP_map, List.zipIdx_map_snd]
    _ ≤ m := turns_le m _ _ hw

/-- The entries of a sorted list whose key lies in a range stand in a row. -/
theorem exists_window (f : α → Nat) (lo hi : Nat) : ∀ {l : List α},
    l.Pairwise (fun x y => f x ≤ f y) →
    ∃ a w c, l = a ++ w ++ c ∧ (∀ x ∈ a, f x < lo) ∧ (∀ x ∈ w, lo ≤ f x ∧ f x < hi) ∧
      ∀ x ∈ c, ¬ (lo ≤ f x ∧ f x < hi)
  | [], _ => ⟨[], [], [], rfl, by simp, by simp, by simp⟩
  | x :: l, h => by
    obtain ⟨hx, hl⟩ := List.pairwise_cons.mp h
    obtain ⟨a, w, c, rfl, ha, hw, hc⟩ := exists_window f lo hi hl
    by_cases hlo : f x < lo
    · exact ⟨x :: a, w, c, rfl, by simpa [hlo] using ha, hw, hc⟩
    -- nothing after `x` lies below the range
    have ha' : a = [] := by
      cases a with
      | nil => rfl
      | cons y a =>
        have := hx y (by simp)
        have := ha y List.mem_cons_self
        omega
    subst ha'
    by_cases hhi : f x < hi
    · exact ⟨[], x :: w, c, rfl, by simp, by simpa [hhi, not_lt.mp hlo] using hw, hc⟩
    · refine ⟨[], [], x :: (w ++ c), rfl, by simp, by simp, fun y hy => ?_⟩
      have : f x ≤ f y := by
        rcases List.mem_cons.mp hy with rfl | hy
        · exact le_refl _
        · exact hx y hy
      omega

/-! ## Columns -/

theorem filterMap_getElem? : ∀ {m : Nat} {row : List α}, row.length ≤ m →
    (List.range m).filterMap (row[·]?) = row
  | _, [], _ => by simp
  | 0, _ :: _, h => absurd h (Nat.not_succ_le_zero _)
  | m + 1, x :: row, h => by
    rw [List.range_succ_eq_map, List.filterMap_cons, List.filterMap_map]
    exact congrArg (x :: ·) (filterMap_getElem? (Nat.le_of_succ_le_succ h))

/-- **Reading rows by columns loses and repeats nothing**, when no row is longer than the columns
reach. -/
theorem columns_perm {m : Nat} : ∀ {rows : List (List α)}, (∀ row ∈ rows, row.length ≤ m) →
    ((List.range m).flatMap fun i => rows.filterMap fun row => row[i]?).Perm rows.flatten
  | [], _ => by simp
  | row :: rows, h => by
    have hcons : (fun i : Nat => (row :: rows).filterMap fun row => row[i]?) =
        fun i => row[i]?.toList ++ rows.filterMap fun row => row[i]? := by
      funext i
      cases hi : row[i]? <;> simp [hi]
    rw [hcons, List.flatten_cons]
    have hrow : (List.range m).flatMap (fun i => row[i]?.toList) = row := by
      rw [← List.filterMap_eq_flatMap_toList, filterMap_getElem? (h row List.mem_cons_self)]
    refine (List.flatMap_append_perm _ _ _).symm.trans ?_
    rw [hrow]
    exact (columns_perm fun r hr => h r (List.mem_cons_of_mem row hr)).append_left row

end Ringside.Columns

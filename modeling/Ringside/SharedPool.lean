import Mathlib
import Ringside.Run
import Ringside.Segments

/-!
# Cells of a shared pool of blocks

An allocation is cut into slots laid end to end; slot `i` holds `n` cells of `width i` bytes, one
for each block of the pool. A tenant (a layer) uses one cell of every block that its group owns, and
tenants of different groups may use the same cells.

* `Pool` is the owner of each block with the bytes of the allocation. An `Event` takes a free block,
  gives one back, or writes a tenant's cell of a block that its group owns.
* `Separate` is what a layout must give: cells of distinct blocks, and of distinct tenants of one
  group, share no byte. Nothing is asked of tenants of different groups.
* `Foreign` is everything but giving the block back and writing the tenant's own cell of it.

Results:
* `cell_disjoint`, `cell_subset`: the cells of distinct slots or blocks share no byte, and all lie
  inside the allocation.
* `kept_run`: while a group keeps a block, no write of another tenant reaches a tenant's cell of it.
-/

namespace Ringside.SharedPool

open Run Segments

/-! ## Cells -/

section Cells

variable {width : Nat → Nat} {n : Nat}

/-- Where slot `i` begins. -/
def slotStart (width : Nat → Nat) (n i : Nat) : Nat := start (fun j => n * width j) i

/-- The bytes of block `b` in slot `i`. -/
def cell (width : Nat → Nat) (n i b : Nat) : Set Nat :=
  Set.Ico (slotStart width n i + b * width i) (slotStart width n i + (b + 1) * width i)

theorem mem_cell {i b a : Nat} :
    a ∈ cell width n i b ↔ ∃ o, o < width i ∧
    a = place (fun j => n * width j) i (b * width i + o) := by
  unfold cell place slotStart
  rw [Set.mem_Ico, Nat.add_mul, Nat.one_mul]
  constructor
  · rintro ⟨hl, hr⟩
    exact ⟨a - (start (fun j => n * width j) i + b * width i), by omega, by omega⟩
  · rintro ⟨o, ho, rfl⟩
    omega

/-- A byte of a block lies inside its slot. -/
theorem offset_lt {i b o : Nat} (hb : b < n) (ho : o < width i) :
    b * width i + o < n * width i := by
  have := Nat.mul_le_mul_right (width i) (Nat.succ_le_of_lt hb)
  rw [Nat.succ_mul] at this
  omega

/-- **Cells share no byte** unless slot and block agree. -/
theorem cell_disjoint {i i' b b' : Nat} (hb : b < n) (hb' : b' < n) (h : i ≠ i' ∨ b ≠ b') :
    Disjoint (cell width n i b) (cell width n i' b') := by
  refine Set.disjoint_left.mpr fun a ha ha' => ?_
  obtain ⟨o, ho, rfl⟩ := mem_cell.mp ha
  obtain ⟨o', ho', heq⟩ := mem_cell.mp ha'
  obtain ⟨rfl, hin⟩ := @place_inj (fun j => n * width j) _ _ _ _ (offset_lt hb ho)
    (offset_lt hb' ho') heq
  have hdiv : ∀ {c p : Nat}, p < width i → (c * width i + p) / width i = c := fun {c p} hp => by
    rw [Nat.add_comm, Nat.add_mul_div_right _ _ (by omega), Nat.div_eq_of_lt hp, Nat.zero_add]
  have hbb : b = b' := (hdiv ho).symm.trans ((congrArg (· / width i) hin).trans (hdiv ho'))
  exact h.elim (fun h => h rfl) (fun h => h hbb)

/-- **Cells lie inside the slots before `k`**, which take `slotStart width n k` bytes. -/
theorem cell_subset {i b k : Nat} (hi : i < k) (hb : b < n) :
    cell width n i b ⊆ Set.Iio (slotStart width n k) := by
  intro a ha
  obtain ⟨o, ho, rfl⟩ := mem_cell.mp ha
  exact @place_lt_start (fun j => n * width j) _ _ _ (offset_lt hb ho) hi

theorem slotStart_succ (i : Nat) : slotStart width n (i + 1) = slotStart width n i + n * width
    i := start_succ i

/-- Slots of one width, after the first `k`. -/
theorem slotStart_add_of_eq (width : Nat → Nat) (n w k : Nat) :
    ∀ j, (∀ i, k ≤ i → i < k + j → width i = w) →
    slotStart width n (k + j) = slotStart width n k + j * (n * w)
  | 0, _ => by simp
  | j + 1, h => by
    rw [← Nat.add_assoc, slotStart_succ,
      slotStart_add_of_eq width n w k j fun i hi hj => h i hi (by omega),
      h (k + j) (by omega) (by omega), Nat.succ_mul, Nat.add_assoc]

end Cells

/-! ## Blocks that groups take in turn -/

section Pool

variable {Block Group Tenant Addr Val : Type} [DecidableEq Block] [DecidableEq Group]

/-- The owner of each block and the bytes of the allocation. -/
structure Pool (Block Group Addr Val : Type) where
  owner : Block → Option Group
  mem : Addr → Val

/-- Taking a free block, giving it back, and a tenant's write to its cell of a block. -/
inductive Event (Block Group Tenant Addr Val : Type) where
  | take (b : Block) (g : Group)
  | give (b : Block)
  | write (x : Tenant) (b : Block) (content : Addr → Val)

variable (group : Tenant → Group) (cells : Tenant → Block → Set Addr)

open Classical in
/-- A free block goes to the group that takes it; a tenant writes only to blocks of its group. -/
noncomputable def step (s : Pool Block Group Addr Val) : Event Block Group Tenant Addr Val →
    Pool Block Group Addr Val
  | .take b g =>
    if s.owner b = none then { s with owner := Function.update s.owner b (some g) } else s
  | .give b => { s with owner := Function.update s.owner b none }
  | .write x b content =>
    if s.owner b = some (group x) then
      { s with mem := fun a => if a ∈ cells x b then content a else s.mem a }
    else s

variable {group cells}

/-- What a layout must give: cells of distinct blocks, and of distinct tenants of one group, share
no byte. -/
def Separate (group : Tenant → Group) (cells : Tenant → Block → Set Addr) : Prop :=
  ∀ x y b c, b ≠ c ∨ (x ≠ y ∧ group x = group y) → Disjoint (cells x b) (cells y c)

/-- Everything but giving the block back and writing the tenant's own cell of it. -/
def Foreign (y : Tenant) (c : Block) : Event Block Group Tenant Addr Val → Prop
  | .take _ _ => True
  | .give b => b ≠ c
  | .write x b _ => ¬ (x = y ∧ b = c)

/-- One event leaves the cell of a block that its group keeps. -/
theorem kept_step (hsep : Separate group cells) {y : Tenant} {c : Block}
    {s : Pool Block Group Addr Val} {e : Event Block Group Tenant Addr Val} (he : Foreign y c e)
    (hown : s.owner c = some (group y)) :
    (step group cells s e).owner c = some (group y) ∧ ∀ a ∈ cells y c,
      (step group cells s e).mem a = s.mem a := by
  cases e with
  | take b g =>
    simp only [step]
    split_ifs with hfree
    · have hne : c ≠ b := by
        rintro rfl
        rw [hown] at hfree
        cases hfree
      exact ⟨(Function.update_of_ne hne ..).trans hown, fun _ _ => rfl⟩
    · exact ⟨hown, fun _ _ => rfl⟩
  | give b => exact ⟨(Function.update_of_ne (Ne.symm he) ..).trans hown, fun _ _ => rfl⟩
  | write x b content =>
    simp only [step]
    split_ifs with hx
    · -- a write to the same block is one of the same group
      have hor : b ≠ c ∨ (x ≠ y ∧ group x = group y) := by
        by_cases hbc : b = c
        · subst hbc
          exact Or.inr ⟨fun hxy => he ⟨hxy, rfl⟩, Option.some.inj (hx.symm.trans hown)⟩
        · exact Or.inl hbc
      exact ⟨hown, fun a ha => if_neg fun hin => Set.disjoint_left.mp (hsep x y b c hor) hin ha⟩
    · exact ⟨hown, fun _ _ => rfl⟩

/-- **No tenant overwrites another group's live block**: over a run in which the block is not given
back and the tenant itself does not write to it, its cell keeps its bytes. -/
theorem kept_run (hsep : Separate group cells) {y : Tenant} {c : Block}
    {s : Pool Block Group Addr Val}
    (h : List (Event Block Group Tenant Addr Val)) (hh : ∀ e ∈ h, Foreign y c e)
    (hown : s.owner c = some (group y)) :
    ∀ a ∈ cells y c, (run (step group cells) s h).mem a = s.mem a := by
  have hstep : ∀ t e, Foreign y c e → (t.owner c = some (group y) ∧ ∀ a ∈ cells y c,
    t.mem a = s.mem a) → (step group cells t e).owner c = some (group y) ∧ ∀ a ∈ cells y c,
      (step group cells t e).mem a = s.mem a := by
    rintro t e he ⟨ht, hmem⟩
    obtain ⟨hown', hmem'⟩ := kept_step hsep he ht
    exact ⟨hown', fun a ha => (hmem' a ha).trans (hmem a ha)⟩
  exact (invariant_of_forall hstep h hh ⟨hown, fun _ _ => rfl⟩).2

end Pool

end Ringside.SharedPool

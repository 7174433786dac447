import Mathlib.Tactic

/-!
# Row-major tensors

A contiguous tensor is a shape with its elements in row-major order. `reshape` keeps the elements;
`permute`, followed by a copy, and `indexSelect` move them. What each does to an element is stated
by its index.

* An index is a list of numbers with one for each dimension; `Within` says that it lies in a shape.
  `offset` and `index` go between indices and places in the row-major order.
* Elements are a function of the offset, and the statements are about indices within the shape.
* `slice` is a part of a tensor in its first dimension, which is contiguous.

Results:
* `index_offset`, `offset_index`: an index within the shape and its offset determine each other.
* `get_reshape`: indices of equal offset read the same element.
* `get_permute`, `get_indexSelect`: where an element comes from.
-/

namespace Ringside.Tensor

/-- The offset of an index, row-major. -/
def offset : List Nat → List Nat → Nat
  | _ :: dims, i :: idx => i * dims.prod + offset dims idx
  | _, _ => 0

/-- The index at an offset. -/
def index : List Nat → Nat → List Nat
  | [], _ => []
  | _ :: dims, j => j / dims.prod :: index dims (j % dims.prod)

/-- The index lies within the shape. -/
def Within : List Nat → List Nat → Prop := List.Forall₂ fun dim i => i < dim

theorem Within.offset_lt {dims idx : List Nat} (h : Within dims idx) :
    offset dims idx < dims.prod := by
  induction h with
  | nil => exact Nat.one_pos
  | @cons dim i dims idx hi _ ih =>
    rw [List.prod_cons, offset]
    calc i * dims.prod + offset dims idx < i * dims.prod + dims.prod := Nat.add_lt_add_left ih _
      _ = (i + 1) * dims.prod := (Nat.succ_mul _ _).symm
      _ ≤ dim * dims.prod := Nat.mul_le_mul_right _ hi

/-- **The index at the offset of an index is that index.** -/
theorem index_offset {dims idx : List Nat} (h : Within dims idx) :
    index dims (offset dims idx) = idx := by
  induction h with
  | nil => rfl
  | @cons dim i dims idx _ hw ih =>
    have hlt := Within.offset_lt hw
    rw [offset, index, Nat.add_comm, Nat.add_mul_div_right _ _ (by omega),
      Nat.div_eq_of_lt hlt, Nat.zero_add, Nat.add_mul_mod_self_right, Nat.mod_eq_of_lt hlt, ih]

theorem within_index : ∀ {dims : List Nat} {j : Nat}, j < dims.prod → Within dims (index dims j)
  | [], _, _ => .nil
  | dim :: dims, j, h => by
    rw [List.prod_cons] at h
    have hpos : 0 < dims.prod := Nat.pos_of_mul_pos_left (Nat.zero_lt_of_lt h)
    exact .cons (Nat.div_lt_of_lt_mul (by rwa [Nat.mul_comm])) (within_index (Nat.mod_lt _ hpos))

theorem offset_index : ∀ {dims : List Nat} {j : Nat}, j < dims.prod → offset dims (index dims j) = j
  | [], j, h => (Nat.lt_one_iff.mp h).symm
  | dim :: dims, j, h => by
    rw [List.prod_cons] at h
    have hpos : 0 < dims.prod := Nat.pos_of_mul_pos_left (Nat.zero_lt_of_lt h)
    rw [index, offset, offset_index (Nat.mod_lt _ hpos), Nat.div_add_mod']

end Tensor

/-- A contiguous tensor. -/
structure Tensor (β : Type) where
  shape : List Nat
  data : Nat → β

namespace Tensor

variable {β : Type} (T : Tensor β)

/-- The element at an index. -/
def get (idx : List Nat) : β := T.data (offset T.shape idx)

def reshape (dims : List Nat) : Tensor β := ⟨dims, T.data⟩

/-- The index in the permuted tensor, as one in the tensor. -/
def unpermute (p idx : List Nat) : List Nat := (List.range p.length).map fun d =>
    idx.getD (p.idxOf d) 0

/-- Dimension `a` of the result is dimension `p[a]`. -/
def permute (p : List Nat) : Tensor β where
  shape := p.map (T.shape.getD · 0)
  data j := T.get (unpermute p (index (p.map (T.shape.getD · 0)) j))

def indexSelect (dim : Nat) (sel : List Nat) : Tensor β where
  shape := T.shape.set dim sel.length
  data j := T.get ((index (T.shape.set dim sel.length) j).modify dim (sel.getD · 0))

/-- The part of a tensor from `start` on in its first dimension. -/
def slice (start count : Nat) : Tensor β where
  shape := T.shape.set 0 count
  data j := T.data (start * T.shape.tail.prod + j)

variable {T}

/-- **Indices of equal offset read the same element.** -/
theorem get_reshape {dims idx idx' : List Nat} (h : offset dims idx = offset T.shape idx') :
    (T.reshape dims).get idx = T.get idx' := congrArg T.data h

theorem get_permute {p idx : List Nat} (h : Within (T.permute p).shape idx) :
    (T.permute p).get idx = T.get (unpermute p idx) :=
  congrArg (fun i => T.get (unpermute p i)) (index_offset h)

theorem get_indexSelect {dim : Nat} {sel idx : List Nat}
    (h : Within (T.indexSelect dim sel).shape idx) :
    (T.indexSelect dim sel).get idx = T.get (idx.modify dim (sel.getD · 0)) :=
  congrArg (fun i : List Nat => T.get (i.modify dim (sel.getD · 0))) (index_offset h)

end Ringside.Tensor

import Ringside.Dict
import Ringside.TileMajor.Repack

/-!
# Preparing and launching tile-major weights (`_impl.py`, `dynamic.py`)

The preparation rewrites the FC1 and FC2 payload in place and registers the pair of storages; a
launch looks the pair up, takes the views that go with it, and configures the producer's addressing.
Scales are not moved. This file says that the producer reads from a prepared pair what it would read
from the stock one.

* Storages are known by their data pointer; storages of different pointers do not overlap (`World`).
  The view cache is left out (its views share the storages), and the alphas.
* A call is a result or what is raised, and the world it leaves (`Prep`): the registries keep what
  was registered before a later step raised.
* `supported`, `preparationState` and the checks of `prepareExperts` are those of the source, in
  their order and with their errors. `Accepted` states them together.
* The producer's box at a row tile and a column tile of a view is 128 rows of 64 bytes (`box`).
  `gateBox`, `upBox` and `downBox` are its addressing in either configuration. The layout of a scale
  operand of a given shape is a parameter: the scales that go with a tile are read from the bytes
  with that layout.

Results:
* `prepareExperts_cases`: a preparation that succeeds repacks both payloads and registers them, or
  does nothing.
* `exec_prepare_fresh`, `prepareExperts_iff`: which fresh pairs it accepts.
* `exec_prepare_mixed`: one side registered with another partner is refused.
* `sameBoxes`: the boxes of the repacked payloads are the stock boxes.
* `registered_run`: a registration outlives every later call.
* `tile_major_exact`: boxes and scales, the bijection on bytes, chunks, repetition and mixed pairs.

Out of scope: the matrix products, and weights of other formats than the recipe's.
-/

namespace Ringside.TileMajor

open Ringside.Checks Ringside.Scatter

/-- The bytes of a tensor, contiguous or not. -/
structure TensorRef where
  ptr : Nat
  shape : List Nat
  contiguous : Bool

inductive QuantMode where
  | nvfp4 | other
deriving DecidableEq

inductive SourceFormat where
  | modeloptNvfp4 | other
deriving DecidableEq

inductive Activation where
  | silu | other
deriving DecidableEq

inductive W13Layout where
  | w13 | w31
deriving DecidableEq

/-- `MoEWeightPreparationPlan`. -/
structure Plan where
  quantModes : Finset QuantMode
  sourceFormat : SourceFormat
  activation : Activation
  hiddenSize : Nat
  intermediateSize : Nat
  w13Layout : W13Layout

/-- The canonical tensors of the experts: payload and block scales, in storages of their own. -/
structure Experts where
  w1 : TensorRef
  s1 : TensorRef
  w2 : TensorRef
  s2 : TensorRef
  apart : [w1.ptr, s1.ptr, w2.ptr, s2.ptr].Nodup

/-- `_TP4_TILE_MAJOR_STORAGES` key. -/
def Experts.key (x : Experts) : Nat × Nat := (x.w1.ptr, x.w2.ptr)

/-- `_W13_NORMALIZED_STORAGES` key. -/
def Experts.regKey (x : Experts) : Nat × Nat := (x.w1.ptr, x.s1.ptr)

/-- The memory and the two registries. -/
structure World (β : Type) where
  mem : Nat → Nat → β
  normalized : List (Nat × Nat)
  storages : Dict (Nat × Nat) Geometry

/-- A call: a result or what is raised, and the world it leaves. -/
abbrev Prep (β α : Type) := ExceptT Err (StateM (World β)) α

section Prep

variable {β : Type}

/-- `_tp4_tile_major_supported`. -/
def supported (plan : Plan) : Prop :=
  plan.quantModes = {.nvfp4} ∧ plan.sourceFormat = .modeloptNvfp4 ∧ plan.activation = .silu ∧
    plan.hiddenSize % 256 = 0 ∧ plan.intermediateSize % 128 = 0

instance (plan : Plan) : Decidable (supported plan) := by unfold supported; infer_instance

/-- `_tp4_tile_major_prepare_enabled`. -/
def prepareEnabled (env : Bool) (plan : Plan) : Except Err Bool := do
  if env = false then return false
  if ¬ supported plan then
    throw (.valueError
      ("B12X_TP4_TILE_MAJOR_WEIGHTS=1 requires a single-recipe modelopt NVFP4 silu " ++
      "plan with hidden % 256 == 0 and intermediate % 128 == 0"))
  return true

/-- `_tp4_tile_major_preparation_state`. -/
def preparationState (w : World β) (x : Experts) (geo : Geometry) : Except Err Bool :=
  match w.storages.get? x.key with
  | some entry => do
    if entry ≠ geo then throw (.valueError "tile-major storage reused with a different geometry")
    if x.w1.shape ≠ [geo.e, geo.rows13, geo.k / 2] then
      throw (.valueError "registered tile-major W13 shape changed")
    if x.w2.shape ≠ [geo.e, geo.k, geo.n / 2] then
      throw (.valueError "registered tile-major W2 shape changed")
    if x.w1.contiguous = false ∨ x.w2.contiguous = false then
      throw (.valueError "registered tile-major storage must remain contiguous")
    if x.regKey ∉ w.normalized then
      throw (.valueError "registered tile-major W13 paired with unregistered scales")
    return true
  | none =>
    if ∃ registered ∈ w.storages.keys, x.key.1 = registered.1 ∨ x.key.2 = registered.2 then
      .error (.valueError "tile-major preparation received a mixed storage pair")
    else .ok false

/-- A turn of the flip of the halves: the experts from `e0` on. -/
def flipHalves (n cols : Nat) (data : Nat → β) (e0 count : Nat) : Nat → β := fun a =>
  if e0 * (2 * n * cols) ≤ a ∧ a < (e0 + count) * (2 * n * cols) then
    if a % (2 * n * cols) < n * cols then data (a + n * cols) else data (a - n * cols)
  else data a

/-- `_swap_w13_scale_halves_inplace`. -/
def swapScaleHalves (e rows colsBlocks : Nat) (data : Nat → β) : Nat → β :=
  let rowsPad := (rows + 127) / 128 * 128
  let colsPad := (colsBlocks + 3) / 4 * 4
  let u8 : Tensor β := ⟨[e, rowsPad / 128, colsPad / 4, 32, 4, 4], data⟩
  let grid := (u8.permute [0, 1, 4, 3, 2, 5]).reshape [e, rowsPad, colsPad]
  let half := rows / 2
  -- the rows from `half` on, those before it, the padding
  let swapped : Tensor β := ⟨[e, rowsPad, colsPad], fun j =>
    grid.get ((Tensor.index [e, rowsPad, colsPad] j).modify 1 fun r =>
      if r < rows - half then r + half else if r < rows then r - (rows - half) else r)⟩
  let back := (swapped.reshape [e, rowsPad / 128, 4, 32, colsPad / 4, 4]).permute [0, 1, 4, 3, 2, 5]
  copyInto data 0 (e * (rowsPad * colsPad)) back.data

/-- `_ensure_w13_kernel_order_inplace`, for NVFP4. -/
def ensureW13KernelOrder (x : Experts) (n k : Nat) : Prep β Unit := do
  if x.regKey ∈ (← get).normalized then return
  if x.w1.contiguous = false ∨ x.s1.contiguous = false then
    throw (.valueError "w31 FC1 normalization requires contiguous w1 storage")
  if x.w1.shape.length ≠ 3 ∨ x.w1.shape.getD 1 0 ≠ 2 * n then
    throw (.valueError s!"w31 FC1 weights must be [E, 2n, k//2]; got {x.w1.shape} for n={n}")
  let e := x.w1.shape.getD 0 0
  let cols := x.w1.shape.getD 2 0
  let chunk := max 1 (min e (33554432 / max 1 (2 * n * cols)))
  modify fun w =>
    let flipped := (List.range' 0 ((e + chunk - 1) / chunk) chunk).foldl
      (fun data e0 => flipHalves n cols data e0 (min chunk (e - e0))) (w.mem x.w1.ptr)
    let swapped := swapScaleHalves (x.s1.shape.getD 0 0) (2 * n) (k / 16) (w.mem x.s1.ptr)
    { w with
      mem := Function.update (Function.update w.mem x.w1.ptr flipped) x.s1.ptr swapped
      normalized := w.normalized ++ [x.regKey] }

/-- `repack_inplace_torch` of a tensor, with its default chunk size. -/
def repackStorage (t : TensorRef) (repack : Tensor β → Except Err (Tensor β)) : Prep β Unit := do
  if t.contiguous = false then throw (.valueError "contiguous uint8 storage required")
  let packed ← liftM (repackInplace repack 67108864 ⟨t.shape, (← get).mem t.ptr⟩)
  modify fun w => { w with mem := Function.update w.mem t.ptr packed.data }

/-- `_tp4_tile_major_register`. -/
def register (x : Experts) (geo : Geometry) : Prep β Unit := do
  if x.w1.shape ≠ [geo.e, geo.rows13, geo.k / 2] then
    throw (.valueError "tile-major W13 storage must keep the canonical [E, 2n, k//2] shape")
  if x.w2.shape ≠ [geo.e, geo.k, geo.n / 2] then
    throw (.valueError "tile-major W2 storage must keep the canonical [E, k, n//2] shape")
  if x.w1.contiguous = false ∨ x.w2.contiguous = false then
    throw (.valueError "tile-major storage must be contiguous")
  modify fun w =>
    { w with normalized := w.normalized ++ [x.regKey], storages := w.storages.set x.key geo }

/-- `_tp4_tile_major_repack_inplace`. -/
def repackExperts (plan : Plan) (x : Experts) : Prep β Unit := do
  let geo ← liftM (geometry plan.hiddenSize plan.intermediateSize (x.w1.shape.getD 0 0))
  if (← liftM (preparationState (← get) x geo)) then return
  if plan.w13Layout = .w31 then ensureW13KernelOrder x plan.intermediateSize plan.hiddenSize
  repackStorage x.w1 (repackW13 geo)
  repackStorage x.w2 (repackW2 geo)
  register x geo

/-- The end of `prepare_b12x_fp4_moe_weights`. -/
def prepareExperts (env : Bool) (plan : Plan) (x : Experts) : Prep β Unit := do
  if (← liftM (prepareEnabled env plan)) then repackExperts plan x

/-! ## The launch

The producer fetches boxes of 128 rows and 64 bytes. With stock weights a box is at a row tile and a
column tile of the weight; with tile-major ones the weight is a stack of such boxes, and a box is at
its number. `gateBox`, `upBox` and `downBox` are the coordinates of both cases.
-/

/-- What the kernel is launched with: its configuration, the operand views by expert, row and byte,
the scales. -/
structure Launch (β : Type) where
  tileMajorB : Bool
  n : Nat
  k : Nat
  w13 : Tensor β
  down : Tensor β
  w13Sf : Nat → β
  downSf : Nat → β

/-- `_get_weight_views` and the kernel's configuration, for a launch of the plan's quantization
mode. -/
def launch (plan : Plan) (x : Experts) : Prep β (Launch β) := do
  let n := plan.intermediateSize
  let k := plan.hiddenSize
  match (← get).storages.get? x.key with
  | some geo =>
    if plan.quantModes ≠ {.nvfp4} then
      throw (.valueError "tile-major expert weights are NVFP4 only")
    if plan.activation ≠ .silu ∨ n ≠ geo.n ∨ k ≠ geo.k then
      throw (.valueError "tile-major storage geometry does not match the launch")
    -- `configure_tile_major_b`
    if n % 128 ≠ 0 ∨ k % 128 ≠ 0 ∨ k % 256 ≠ 0 then
      throw (.valueError "tile-major weights require n % 128 == 0 and k % 256 == 0")
    let w ← get
    let e := x.w1.shape.getD 0 0
    let w13 : Tensor β := (⟨x.w1.shape, w.mem x.w1.ptr⟩ : Tensor β).reshape [e, geo.tmRows13, 64]
    let down : Tensor β := (⟨x.w2.shape, w.mem x.w2.ptr⟩ : Tensor β).reshape [e, geo.tmRows2, 64]
    return ⟨true, n, k, w13, down, w.mem x.s1.ptr, w.mem x.s2.ptr⟩
  | none =>
    if plan.w13Layout = .w31 ∧ plan.activation = .silu then ensureW13KernelOrder x n k
    let w ← get
    return ⟨false, n, k, ⟨x.w1.shape, w.mem x.w1.ptr⟩, ⟨x.w2.shape, w.mem x.w2.ptr⟩, w.mem x.s1.ptr,
      w.mem x.s2.ptr⟩

namespace Launch

variable (l : Launch β)

def tmKTiles : Nat := l.k / 128
def tmOutTiles : Nat := l.k / 128

def tmGateTiles : Nat := l.n / 128

/-- The tiles of the up half, which the gate half follows. -/
def gateTileCnt : Nat := if l.tileMajorB then l.tmGateTiles else (l.n + 128 - 1) / 128

/-- A box of a view: row `r` and byte `c` at a row tile and a column tile of an expert. -/
def box (view : Tensor β) (expert rowTile colTile r c : Nat) : β :=
  view.get [expert, rowTile * tileRows + r, colTile * tileBytes + c]

/-- The gate tile of a slice. -/
def gateBox (expert slice kTile : Nat) : Nat → Nat → β :=
  if l.tileMajorB then box l.w13 expert (slice * (2 * l.tmKTiles) + kTile) 0
  else box l.w13 expert (l.gateTileCnt + slice) kTile

/-- The up tile of a slice. -/
def upBox (expert slice kTile : Nat) : Nat → Nat → β :=
  if l.tileMajorB then box l.w13 expert (slice * (2 * l.tmKTiles) + l.tmKTiles + kTile) 0
  else box l.w13 expert slice kTile

/-- The output tile of a slice. -/
def downBox (expert slice outTile : Nat) : Nat → Nat → β :=
  if l.tileMajorB then box l.down expert (slice * l.tmOutTiles + outTile) 0
  else box l.down expert outTile slice

/-- The logical shape of an operand, of which its scale layout is made: FP4 elements, two a byte. -/
def logicalShape (view : Tensor β) : List Nat :=
    [view.shape.getD 1 0, 2 * view.shape.getD 2 0, view.shape.getD 0 0]

def w13SfShape : List Nat := if l.tileMajorB then [2 * l.n, l.k, l.w13.shape.getD 0 0]
    else logicalShape l.w13

def downSfShape : List Nat := if l.tileMajorB then [l.k, l.n, l.w13.shape.getD 0 0]
    else logicalShape l.down

section Scales

variable {σ : Type} (sfTile : List Nat → (Nat → β) → Nat → Nat → Nat → σ)

def gateScales (expert slice kTile : Nat) : σ :=
    sfTile l.w13SfShape l.w13Sf expert (l.gateTileCnt + slice) kTile

def upScales (expert slice kTile : Nat) : σ := sfTile l.w13SfShape l.w13Sf expert slice kTile

def downScales (expert slice outTile : Nat) : σ :=
    sfTile l.downSfShape l.downSf expert outTile slice

end Scales

end Launch

/-! ## Running calls

A call is run by `exec`; there is one lemma for each of the operations that calls are made of, and
`exec_bind_ok` takes a call that succeeded apart.
-/

section Exec

variable {α γ : Type}

/-- A call from a world. -/
def exec (p : Prep β α) (w : World β) : Except Err α × World β := p.run.run w

variable {w w' : World β}

theorem exec_bind (x : Prep β α) (f : α → Prep β γ) : exec (x >>= f) w =
    match exec x w with
    | (.ok a, w₁) => exec (f a) w₁
    | (.error e, w₁) => (.error e, w₁) := by
  have hrun : exec (x >>= f) w =
      ((ExceptT.bindCont f (exec x w).1 : StateM (World β) (Except Err γ)).run (exec x w).2 :
      Except Err γ × World β) := rfl
  rw [hrun]
  rcases exec x w with ⟨_ | a, w₁⟩ <;> rfl

/-- **A sequence of calls that succeeds.** -/
theorem exec_bind_ok {x : Prep β α} {f : α → Prep β γ} {b : γ} :
    exec (x >>= f) w = (.ok b, w') ↔ ∃ a w₁, exec x w = (.ok a, w₁) ∧
    exec (f a) w₁ = (.ok b, w') := by
  rw [exec_bind]
  rcases exec x w with ⟨e | a, w₁⟩
  · exact ⟨nofun, fun ⟨_, _, h, _⟩ => nomatch h⟩
  · constructor
    · exact fun h => ⟨a, w₁, rfl, h⟩
    · rintro ⟨_, _, h, h'⟩
      cases h
      exact h'

@[simp] theorem exec_pure (a : α) : exec (pure a : Prep β α) w = (.ok a, w) := rfl

@[simp] theorem exec_throw (e : Err) : exec (throw e : Prep β α) w = (.error e, w) := rfl

@[simp] theorem exec_get : exec (get : Prep β (World β)) w = (.ok w, w) := rfl

@[simp] theorem exec_modify (f : World β → World β) :
    exec (modify f : Prep β PUnit) w = (.ok (), f w) := rfl

@[simp] theorem exec_lift (x : Except Err α) : exec (liftM x : Prep β α) w = (x, w) := rfl

theorem exec_lift_bind_ok {x : Except Err α} {f : α → Prep β γ} {b : γ} :
    exec ((liftM x : Prep β α) >>= f) w = (.ok b, w') ↔ ∃ a, x = .ok a ∧
    exec (f a) w = (.ok b, w') := by
  rw [exec_bind, exec_lift]
  cases x with
  | error e => exact ⟨nofun, fun ⟨_, h, _⟩ => nomatch h⟩
  | ok a => exact ⟨fun h => ⟨a, rfl, h⟩, fun ⟨_, h, h'⟩ => by cases h; exact h'⟩

theorem exec_get_bind (f : World β → Prep β α) : exec ((get : Prep β (World β)) >>= f) w =
    exec (f w) w := rfl

theorem exec_ite {c : Prop} [Decidable c] (x y : Prep β α) :
    exec (if c then x else y) w = if c then exec x w else exec y w := by
  split_ifs <;> rfl

/-- `if c: raise`, then the rest. -/
theorem exec_guard {c : Prop} [Decidable c] {e : Err} {x : Prep β α}
    {g : PUnit → Prep β α} {a : α} :
    exec (if c then (throw e : Prep β PUnit) >>= g else x) w = (.ok a, w') ↔ ¬ c ∧
    exec x w = (.ok a, w') := by
  split_ifs with h
  · exact ⟨nofun, fun h' => absurd h h'.1⟩
  · exact ⟨fun h' => ⟨h, h'⟩, And.right⟩

end Exec

/-- What a repack in place does to the memory. -/
theorem exec_repackStorage {w w' : World β} {t : TensorRef}
    {repack : Tensor β → Except Err (Tensor β)} :
    exec (repackStorage t repack) w = (.ok (), w') ↔ t.contiguous = true ∧
      ∃ packed, repackInplace repack 67108864 ⟨t.shape, w.mem t.ptr⟩ = .ok packed ∧
        w' = { w with mem := Function.update w.mem t.ptr packed.data } := by
  unfold repackStorage
  rw [exec_guard, Bool.not_eq_false]
  refine and_congr_right fun _ => ?_
  rw [exec_bind, exec_get]
  dsimp only
  rw [exec_bind, exec_lift]
  cases repackInplace repack 67108864 ⟨t.shape, w.mem t.ptr⟩ with
  | error e => exact ⟨nofun, fun ⟨_, h, _⟩ => nomatch h⟩
  | ok packed =>
    constructor
    · intro h
      cases h
      exact ⟨packed, rfl, rfl⟩
    · rintro ⟨_, h, rfl⟩
      cases h
      rfl

/-! ## A preparation that succeeds

With the switch on, success means that the pair was registered before, or that the checks passed and
both payloads were repacked, after the halves were flipped where the layout asks for it.
-/

/-- Both payloads of a world are repacked, and the pair is registered. -/
structure Packed (x : Experts) (geo : Geometry) (w w' : World β) (packed1 packed2 : Tensor β) :
    Prop where
  shape1 : x.w1.shape = [geo.e, geo.rows13, geo.k / 2]
  shape2 : x.w2.shape = [geo.e, geo.k, geo.n / 2]
  contiguous : x.w1.contiguous = true ∧ x.w2.contiguous = true
  repack1 : repackInplace (repackW13 geo) 67108864 ⟨x.w1.shape, w.mem x.w1.ptr⟩ = .ok packed1
  repack2 : repackInplace (repackW2 geo) 67108864 ⟨x.w2.shape, w.mem x.w2.ptr⟩ = .ok packed2
  world : w' = ⟨Function.update (Function.update w.mem x.w1.ptr packed1.data) x.w2.ptr packed2.data,
    w.normalized ++ [x.regKey], w.storages.set x.key geo⟩

theorem exec_register {x : Experts} {geo : Geometry} {w w' : World β} :
    exec (register x geo) w = (.ok (), w') ↔
    x.w1.shape = [geo.e, geo.rows13, geo.k / 2] ∧ x.w2.shape = [geo.e, geo.k, geo.n / 2] ∧
      (x.w1.contiguous = true ∧ x.w2.contiguous = true) ∧
      w' = { w with
      normalized := w.normalized ++ [x.regKey], storages := w.storages.set x.key geo } := by
  unfold register
  rw [exec_guard, exec_guard, exec_guard, exec_modify, not_not, not_not, not_or, Bool.not_eq_false,
    Bool.not_eq_false, Prod.mk.injEq, eq_self, true_and, eq_comm (b := w')]

theorem prepareEnabled_ok {plan : Plan} {on : Bool} :
    prepareEnabled true plan = .ok on ↔ supported plan ∧ on = true := by
  unfold prepareEnabled
  rw [if_neg (by simp), guarded_ok, not_not, pure_ok, eq_comm]

theorem ptr_ne (x : Experts) : x.w2.ptr ≠ x.w1.ptr := by
  have := x.apart
  simp only [List.nodup_cons, List.mem_cons, not_or] at this
  exact fun heq => this.1.2.1 heq.symm

variable {plan : Plan} {x : Experts} {w w' : World β}

/-- **What a preparation that succeeds does**: nothing for a registered pair, else both repacks, in
kernel order. -/
theorem prepareExperts_cases (h : exec (prepareExperts true plan x) w = (.ok (), w')) :
    supported plan ∧ ∃ geo, geometry plan.hiddenSize plan.intermediateSize
      (x.w1.shape.getD 0 0) = .ok geo ∧ ((preparationState w x geo = .ok true ∧ w' = w) ∨
        preparationState w x geo = .ok false ∧ ∃ w₀ packed1 packed2,
          exec (if plan.w13Layout = .w31 then
          ensureW13KernelOrder x plan.intermediateSize plan.hiddenSize else pure ()) w =
            (.ok (), w₀) ∧ Packed x geo w₀ w' packed1 packed2) := by
  unfold prepareExperts at h
  obtain ⟨on, hon, h⟩ := exec_lift_bind_ok.mp h
  obtain ⟨hsupported, rfl⟩ := prepareEnabled_ok.mp hon
  rw [if_pos rfl] at h
  refine ⟨hsupported, ?_⟩
  unfold repackExperts at h
  obtain ⟨geo, hgeo, h⟩ := exec_lift_bind_ok.mp h
  rw [exec_get_bind] at h
  obtain ⟨done, hstate, h⟩ := exec_lift_bind_ok.mp h
  refine ⟨geo, hgeo, ?_⟩
  cases done with
  | true =>
    rw [if_pos rfl] at h
    exact Or.inl ⟨hstate, (Prod.mk.inj h).2.symm⟩
  | false =>
    rw [if_neg Bool.false_ne_true] at h
    refine Or.inr ⟨hstate, ?_⟩
    have hrest : ∃ w₀, exec (if plan.w13Layout = .w31 then
      ensureW13KernelOrder x plan.intermediateSize plan.hiddenSize
        else pure ()) w = (.ok (), w₀) ∧ exec (repackStorage x.w1 (repackW13 geo) >>= fun _ =>
          repackStorage x.w2 (repackW2 geo) >>= fun _ => register x geo) w₀ = (.ok (), w') := by
      by_cases hlayout : plan.w13Layout = .w31
      · rw [if_pos hlayout] at h ⊢
        obtain ⟨_, w₀, horder, h⟩ := exec_bind_ok.mp h
        exact ⟨w₀, horder, h⟩
      · rw [if_neg hlayout] at h ⊢
        exact ⟨w, rfl, h⟩
    obtain ⟨w₀, horder, hrest⟩ := hrest
    obtain ⟨_, w₁, h₁, hrest⟩ := exec_bind_ok.mp hrest
    obtain ⟨_, w₂, h₂, h₃⟩ := exec_bind_ok.mp hrest
    obtain ⟨hcontiguous1, packed1, hpacked1, rfl⟩ := exec_repackStorage.mp h₁
    obtain ⟨hcontiguous2, packed2, hpacked2, rfl⟩ := exec_repackStorage.mp h₂
    obtain ⟨hshape1, hshape2, -, hworld⟩ := exec_register.mp h₃
    dsimp only at hpacked2
    rw [Function.update_of_ne (ptr_ne x)] at hpacked2
    exact ⟨w₀, packed1, packed2, horder, hshape1, hshape2, ⟨hcontiguous1, hcontiguous2⟩, hpacked1,
      hpacked2, hworld⟩

/-! ## The boxes

The repack is a permutation of whole boxes, so this is a statement about numbers: the offset of a
byte of a box, and the box that the permutation brings to it.
-/

/-- A byte of a box, by its offset. -/
theorem boxSource_tile {inner t o i r c : Nat} {perm : List Nat}
    (hp : perm.getD t 0 = o * inner + i) (hi : i < inner)
    (hr : r < 128) (hc : c < 64) :
    boxSource inner perm ((t * 128 + r) * 64 + c) = ((o * 128 + r) * inner + i) * 64 + c := by
  have hbox : ((t * 128 + r) * 64 + c) / (128 * 64) = t := by omega
  have hrow : ((t * 128 + r) * 64 + c) / 64 % 128 = r := by omega
  have hcol : ((t * 128 + r) * 64 + c) % 64 = c := by omega
  unfold boxSource
  dsimp only
  rw [hbox, hrow, hcol, hp, Nat.add_comm (o * inner), Nat.add_mul_div_right _ _ (by omega),
    Nat.div_eq_of_lt hi, Nat.add_mul_mod_self_right, Nat.mod_eq_of_lt hi, Nat.zero_add]

/-- **The box of a repacked tile** is the stock box of the tile. -/
theorem box_repacked (data : Nat → β) {e rows cols outer inner : Nat} {perm : List Nat}
    {expert t o i r c : Nat} (hcols : cols = inner * 64)
    (hbytes : rows * cols = expertBytes (outer * inner)) (hx : expert < e) (ht : t < outer * inner)
    (hp : perm.getD t 0 = o * inner + i) (hi : i < inner) (hr : r < 128) (hc : c < 64) :
    Launch.box ⟨[e, outer * inner * 128, 64], repacked (rows * cols) (boxSource inner perm) data e⟩
      expert t 0 r c =
      Launch.box ⟨[e, rows, cols], data⟩ expert o i r c := by
  have hoff : (t * 128 + r) * 64 + c < rows * cols := by
    rw [hbytes, expertBytes, ← Nat.mul_assoc]
    exact digits_lt (digits_lt ht hr) hc
  have hleft : Launch.box ⟨[e, outer * inner * 128, 64],
    repacked (rows * cols) (boxSource inner perm) data e⟩ expert t 0 r c =
      repacked (rows * cols) (boxSource inner perm) data e
      (expert * (rows * cols) + ((t * 128 + r) * 64 + c)) := by
    unfold Launch.box Tensor.get
    refine congrArg (repacked _ _ data e) ?_
    simp only [Tensor.offset, List.prod_cons, List.prod_nil, hbytes, expertBytes]
    ring
  have hright : Launch.box ⟨[e, rows, cols], data⟩ expert o i r c =
      data (expert * (rows * cols) + (((o * 128 + r) * inner + i) * 64 + c)) := by
    unfold Launch.box Tensor.get
    refine congrArg data ?_
    simp only [Tensor.offset, List.prod_cons, List.prod_nil, hcols]
    ring
  rw [hleft, hright, repacked, if_pos (digits_lt hx hoff), byteSource, Nat.add_comm (expert * _),
    Nat.add_mul_div_right _ _ (Nat.zero_lt_of_lt hoff), Nat.div_eq_of_lt hoff,
    Nat.add_mul_mod_self_right, Nat.mod_eq_of_lt hoff, Nat.zero_add, boxSource_tile hp hi hr hc]

theorem geometry_ok {hidden intermediate experts : Nat} {geo : Geometry}
    (h : geometry hidden intermediate experts = .ok geo) :
    geo.k = hidden ∧ geo.n = intermediate ∧ geo.e = experts := by
  unfold geometry at h
  split_ifs at h
  cases h
  exact ⟨rfl, rfl, rfl⟩

/-- The launch of a pair that is not registered: the stock views, in kernel order. -/
theorem exec_launch_stock {w₀ : World β} (hsupported : supported plan)
    (hfresh : w.storages.get? x.key = none)
    (horder : exec (if plan.w13Layout = .w31 then
      ensureW13KernelOrder x plan.intermediateSize plan.hiddenSize
      else pure ()) w = (.ok (), w₀)) :
    exec (launch plan x) w = (.ok ⟨false, plan.intermediateSize, plan.hiddenSize,
      ⟨x.w1.shape, w₀.mem x.w1.ptr⟩,
      ⟨x.w2.shape, w₀.mem x.w2.ptr⟩, w₀.mem x.s1.ptr, w₀.mem x.s2.ptr⟩, w₀) := by
  unfold launch
  dsimp only
  rw [exec_get_bind, hfresh]
  dsimp only
  by_cases hlayout : plan.w13Layout = .w31
  · rw [if_pos hlayout] at horder
    rw [if_pos ⟨hlayout, hsupported.2.2.1⟩]
    exact exec_bind_ok.mpr ⟨(), w₀, horder, rfl⟩
  · rw [if_neg hlayout, exec_pure] at horder
    obtain rfl := (Prod.mk.inj horder).2
    rw [if_neg fun h => hlayout h.1]
    rfl

/-- The launch of a registered pair: views by boxes. -/
theorem exec_launch_tileMajor {geo : Geometry} (hsupported : supported plan)
    (hgeo : geometry plan.hiddenSize plan.intermediateSize (x.w1.shape.getD 0 0) = .ok geo)
    (hregistered : w.storages.get? x.key = some geo) :
    exec (launch plan x) w = (.ok ⟨true, plan.intermediateSize, plan.hiddenSize,
      ⟨[geo.e, geo.tmRows13, 64], w.mem x.w1.ptr⟩, ⟨[geo.e, geo.tmRows2, 64], w.mem x.w2.ptr⟩,
      w.mem x.s1.ptr,
      w.mem x.s2.ptr⟩, w) := by
  obtain ⟨hk, hn, he⟩ := geometry_ok hgeo
  obtain ⟨hmodes, -, hsilu, hhidden, hintermediate⟩ := hsupported
  unfold launch
  dsimp only
  rw [exec_get_bind, hregistered]
  refine exec_guard.mpr ⟨not_not.mpr hmodes, exec_guard.mpr ⟨?_, exec_guard.mpr ⟨by omega, ?_⟩⟩⟩
  · rw [not_or, not_or, not_not, not_not, not_not]
    exact ⟨hsilu, hn.symm, hk.symm⟩
  · rw [he]
    rfl

/-- The boxes and scales of two launches of the experts of a geometry are the same. -/
structure SameBoxes (geo : Geometry) (tm stock : Launch β) : Prop where
  gate : ∀ expert slice kTile r c, expert < geo.e → slice < geo.g → kTile < geo.kt → r < tileRows →
    c < tileBytes →
    tm.gateBox expert slice kTile r c = stock.gateBox expert slice kTile r c
  up : ∀ expert slice kTile r c, expert < geo.e → slice < geo.g → kTile < geo.kt → r < tileRows →
    c < tileBytes →
    tm.upBox expert slice kTile r c = stock.upBox expert slice kTile r c
  down : ∀ expert slice outTile r c, expert < geo.e → slice < geo.st → outTile < geo.ot →
    r < tileRows → c < tileBytes →
    tm.downBox expert slice outTile r c = stock.downBox expert slice outTile r c
  gateScales : ∀ {σ : Type} (sfTile : List Nat → (Nat → β) → Nat → Nat → Nat → σ)
    expert slice kTile,
    tm.gateScales sfTile expert slice kTile = stock.gateScales sfTile expert slice kTile
  upScales : ∀ {σ : Type} (sfTile : List Nat → (Nat → β) → Nat → Nat → Nat → σ) expert slice kTile,
    tm.upScales sfTile expert slice kTile = stock.upScales sfTile expert slice kTile
  downScales : ∀ {σ : Type} (sfTile : List Nat → (Nat → β) → Nat → Nat → Nat → σ) expert
    slice outTile,
    tm.downScales sfTile expert slice outTile = stock.downScales sfTile expert slice outTile

/-- **The boxes of the repacked payloads are the stock boxes.** -/
theorem sameBoxes (geo : Geometry) {perm13 perm2 : List Nat} {data1 data2 sf1 sf2 : Nat → β}
    (hperm13 : ∀ nTile kTile, nTile < 2 * geo.g → kTile < geo.kt →
      w13Tile geo nTile kTile < geo.tiles13 →
      perm13.getD (w13Tile geo nTile kTile) 0 = nTile * geo.kt + kTile)
    (hperm2 : ∀ o s, o < geo.ot → s < geo.st → w2Tile geo o s < geo.tiles2 →
      perm2.getD (w2Tile geo o s) 0 = o * geo.st + s) :
    SameBoxes geo
      ⟨true, geo.n, geo.k, ⟨[geo.e, geo.tmRows13, 64],
        repacked (geo.rows13 * (geo.k / 2)) (boxSource geo.kt perm13) data1 geo.e⟩,
        ⟨[geo.e, geo.tmRows2, 64], repacked (geo.k * (geo.n / 2)) (boxSource geo.st perm2) data2
          geo.e⟩, sf1, sf2⟩
      ⟨false, geo.n, geo.k, ⟨[geo.e, geo.rows13, geo.k / 2], data1⟩,
        ⟨[geo.e, geo.k, geo.n / 2], data2⟩, sf1, sf2⟩ := by
  obtain ⟨k', hk⟩ := geo.hk
  obtain ⟨n', hn⟩ := geo.hn
  have hcols13 : geo.k / 2 = geo.kt * 64 := by
    rw [Geometry.kt, hk]
    omega
  have hcols2 : geo.n / 2 = geo.st * 64 := by
    rw [Geometry.st, hn]
    omega
  have hcnt : (geo.n + 128 - 1) / 128 = geo.g := by
    rw [Geometry.g, hn]
    show (128 * n' + 128 - 1) / 128 = 128 * n' / 128
    omega
  have hrows13 : 2 * geo.n = geo.rows13 := rfl
  refine ⟨fun expert slice kTile r c hx hs hkt hr hc =>
    ?_, fun expert slice kTile r c hx hs hkt hr hc => ?_,
    fun expert slice outTile r c hx hs ho hr hc => ?_, fun sfTile expert slice kTile => ?_,
    fun sfTile expert slice kTile => ?_, fun sfTile expert slice outTile => ?_⟩
  · have htile := w13Tile_gate geo kTile hs
    have hlt : slice * 2 * geo.kt + kTile < 2 * geo.g * geo.kt := digits_lt (by omega) hkt
    have hp := hperm13 (geo.g + slice) kTile (by omega) hkt (htile ▸ hlt)
    rw [htile] at hp
    have hbox := box_repacked data1 hcols13 (bytes13 geo) hx hlt hp hkt hr hc
    show Launch.box ⟨[geo.e, geo.tmRows13, 64], _⟩ expert (slice * (2 * geo.kt) + kTile) 0 r c =
      Launch.box ⟨[geo.e, geo.rows13, geo.k / 2], data1⟩ expert
      ((geo.n + 128 - 1) / 128 + slice) kTile r c
    rw [hcnt, ← Nat.mul_assoc]
    exact hbox
  · have htile := w13Tile_up geo kTile hs
    have hlt : (slice * 2 + 1) * geo.kt + kTile < 2 * geo.g * geo.kt := digits_lt (by omega) hkt
    have hp := hperm13 slice kTile (by omega) hkt (htile ▸ hlt)
    rw [htile] at hp
    have hbox := box_repacked data1 hcols13 (bytes13 geo) hx hlt hp hkt hr hc
    show Launch.box ⟨[geo.e, geo.tmRows13, 64], _⟩ expert
      (slice * (2 * geo.kt) + geo.kt + kTile) 0 r c =
      Launch.box ⟨[geo.e, geo.rows13, geo.k / 2], data1⟩ expert slice kTile r c
    rw [← Nat.mul_assoc, ← Nat.succ_mul]
    exact hbox
  · have hlt : slice * geo.ot + outTile < geo.st * geo.ot := digits_lt hs ho
    have hp := hperm2 outTile slice ho hs hlt
    rw [Nat.mul_comm geo.st] at hlt
    have hbox := box_repacked data2 hcols2 (bytes2 geo) hx hlt hp hs hr hc
    show Launch.box ⟨[geo.e, geo.st * geo.ot * 128, 64], _⟩ expert
      (slice * geo.ot + outTile) 0 r c =
      Launch.box ⟨[geo.e, geo.k, geo.n / 2], data2⟩ expert outTile slice r c
    rw [Nat.mul_comm geo.st]
    exact hbox
  · show sfTile [2 * geo.n, geo.k, geo.e] sf1 expert (geo.n / 128 + slice) kTile =
      sfTile [geo.rows13, 2 * (geo.k / 2), geo.e] sf1 expert ((geo.n + 128 - 1) / 128 + slice) kTile
    rw [hcnt, hrows13, show 2 * (geo.k / 2) = geo.k by omega]
    rfl
  · show sfTile [2 * geo.n, geo.k, geo.e] sf1 expert slice kTile =
      sfTile [geo.rows13, 2 * (geo.k / 2), geo.e] sf1 expert slice kTile
    rw [hrows13, show 2 * (geo.k / 2) = geo.k by omega]
  · show sfTile [geo.k, geo.n, geo.e] sf2 expert outTile slice = sfTile [geo.k, 2 * (geo.n / 2),
      geo.e] sf2 expert outTile slice
    rw [show 2 * (geo.n / 2) = geo.n by omega]

/-! ## Later calls

Other pairs can be prepared after this one, with success or without. `Leaves` is what any such call
leaves of the registries; it goes through the operations of a call like `exec` does.
-/

/-- What a call for a pair leaves: the registrations of the other pairs, and the normalized
storages. -/
structure Later (x : Experts) (w w' : World β) : Prop where
  storages : ∀ key, key ≠ x.key → w'.storages.get? key = w.storages.get? key
  normalized : ∀ key ∈ w.normalized, key ∈ w'.normalized

/-- A call that leaves that, whether it succeeds or raises. -/
def Leaves {α : Type} (x : Experts) (p : Prep β α) : Prop := ∀ w, Later x w (exec p w).2

section Leaves

variable {α γ : Type} {y : Experts}

theorem Later.refl : Later y w w := ⟨fun _ _ => rfl, fun _ h => h⟩

theorem leaves_bind {p : Prep β α} {f : α → Prep β γ} (hp : Leaves y p) (hf : ∀ a, Leaves y (f a)) :
    Leaves y (p >>= f) := by
  intro w
  have hfirst := hp w
  rw [exec_bind]
  generalize exec p w = out at hfirst ⊢
  rcases out with ⟨e | a, w₁⟩
  · exact hfirst
  · have hrest := hf a w₁
    exact ⟨fun key hkey => (hrest.storages key hkey).trans (hfirst.storages key hkey),
      fun key hkey => hrest.normalized key (hfirst.normalized key hkey)⟩

theorem leaves_pure (a : α) : Leaves y (pure a : Prep β α) := fun _ => Later.refl

theorem leaves_lift (e : Except Err α) : Leaves y (liftM e : Prep β α) := fun _ => Later.refl

theorem leaves_get : Leaves y (get : Prep β (World β)) := fun _ => Later.refl

theorem leaves_modify {f : World β → World β} (h : ∀ w, Later y w (f w)) :
    Leaves y (modify f : Prep β PUnit) := h

theorem leaves_ite {c : Prop} [Decidable c] {p q : Prep β α} (hp : Leaves y p) (hq : Leaves y q) :
    Leaves y (if c then p else q) := by
  split_ifs
  · exact hp
  · exact hq

/-- `if c: raise`, then the rest. -/
theorem leaves_guard {c : Prop} [Decidable c] {e : Err} {g : PUnit → Prep β α} {p : Prep β α}
    (hp : Leaves y p) :
    Leaves y (if c then (throw e : Prep β PUnit) >>= g else p) :=
  leaves_ite (fun _ => Later.refl) hp

theorem leaves_ensure (n k : Nat) : Leaves (β := β) y (ensureW13KernelOrder y n k) := by
  refine leaves_bind leaves_get fun w => leaves_ite (leaves_pure ())
    (leaves_guard (leaves_guard (leaves_modify ?_)))
  exact fun w => ⟨fun _ _ => rfl, fun _ h => List.mem_append_left _ h⟩

theorem leaves_repackStorage (t : TensorRef) (repack : Tensor β → Except Err (Tensor β)) :
    Leaves y (repackStorage t repack) :=
  leaves_guard (leaves_bind leaves_get fun _ => leaves_bind (leaves_lift _) fun _ =>
    leaves_modify fun _ => ⟨fun _ _ => rfl, fun _ h => h⟩)

theorem leaves_register (geo : Geometry) : Leaves (β := β) y (register y geo) :=
  leaves_guard (leaves_guard (leaves_guard (leaves_modify fun _ =>
    ⟨fun _ hkey => Dict.get?_set_of_ne hkey, fun _ h => List.mem_append_left _ h⟩)))

theorem leaves_prepareExperts (env : Bool) (plan : Plan) :
    Leaves (β := β) y (prepareExperts env plan y) := by
  refine leaves_bind (leaves_lift _) fun on => leaves_ite ?_ (leaves_pure ())
  refine leaves_bind (leaves_lift _) fun geo => leaves_bind leaves_get fun w =>
    leaves_bind (leaves_lift _) fun done => ?_
  refine leaves_ite (leaves_pure ()) ?_
  have hrest : Leaves (β := β) y (repackStorage y.w1 (repackW13 geo) >>= fun _ =>
      repackStorage y.w2 (repackW2 geo) >>= fun _ => register y geo) :=
    leaves_bind (leaves_repackStorage _ _) fun _ => leaves_bind (leaves_repackStorage _ _) fun _ =>
      leaves_register geo
  exact leaves_ite (leaves_bind (leaves_ensure _ _) fun _ => hrest) hrest

end Leaves

/-- The state of a pair that is registered, with everything in place. -/
theorem preparationState_true {geo : Geometry} : preparationState w x geo = .ok true ↔
    w.storages.get? x.key = some geo ∧ x.w1.shape = [geo.e, geo.rows13, geo.k / 2] ∧
      x.w2.shape = [geo.e, geo.k, geo.n / 2] ∧ (x.w1.contiguous = true ∧ x.w2.contiguous = true) ∧
      x.regKey ∈ w.normalized := by
  unfold preparationState
  cases hget : w.storages.get? x.key with
  | none =>
    refine iff_of_false (fun h => ?_) (fun h => nomatch h.1)
    dsimp only at h
    split_ifs at h
    cases h
  | some entry =>
    dsimp only
    simp only [guarded_ok, pure_ok, not_not, not_or, Bool.not_eq_false, and_true, Option.some.injEq]

/-- A registered pair is left alone, whatever is asked for it. -/
theorem prepareExperts_registered {env : Bool} {entry : Geometry}
    (h : w.storages.get? x.key = some entry) :
    (exec (prepareExperts env plan x) w).2 = w := by
  unfold prepareExperts
  rw [exec_bind, exec_lift]
  rcases prepareEnabled env plan with _ | on
  · rfl
  · dsimp only
    rw [exec_ite]
    split_ifs
    · unfold repackExperts
      rw [exec_bind, exec_lift]
      rcases geometry plan.hiddenSize plan.intermediateSize (x.w1.shape.getD 0 0) with _ | geo
      · rfl
      · dsimp only
        rw [exec_get_bind, exec_bind, exec_lift]
        have hnever : preparationState w x geo ≠ .ok false := by
          unfold preparationState
          rw [h]
          dsimp only
          simp only [ne_eq, guarded_ok, pure_ok, Bool.true_eq_false, and_false, not_false_eq_true]
        rcases hstate : preparationState w x geo with _ | done
        · rfl
        · cases done with
          | true => rfl
          | false => exact absurd hstate hnever
    · rfl

/-- One call of a preparation, for any pair and any plan. -/
def Call (w w' : World β) : Prop := ∃ env plan y, (exec (prepareExperts env plan y) w).2 = w'

/-- **A registration outlives every later call.** -/
theorem registered_run {geo : Geometry} (h : preparationState w x geo = .ok true)
    (hrun : Relation.ReflTransGen Call w w') :
    preparationState w' x geo = .ok true := by
  induction hrun with
  | refl => exact h
  | @tail w₁ _ _ hcall ih =>
    obtain ⟨env, plan, y, rfl⟩ := hcall
    obtain ⟨hget, hshape1, hshape2, hcontiguous, hnormalized⟩ := preparationState_true.mp ih
    by_cases hkey : y.key = x.key
    · rw [prepareExperts_registered (hkey ▸ hget)]
      exact ih
    · have hlater := leaves_prepareExperts (y := y) env plan w₁
      exact preparationState_true.mpr ⟨(hlater.storages _ (Ne.symm hkey)).trans hget, hshape1,
        hshape2, hcontiguous, hlater.normalized _ hnormalized⟩

/-- A registered pair is prepared again by doing nothing. -/
theorem exec_prepare_registered {geo : Geometry} (hsupported : supported plan)
    (hgeo : geometry plan.hiddenSize plan.intermediateSize (x.w1.shape.getD 0 0) = .ok geo)
    (h : preparationState w x geo = .ok true) :
      exec (prepareExperts true plan x) w = (.ok (), w) := by
  unfold prepareExperts
  refine exec_lift_bind_ok.mpr ⟨true, prepareEnabled_ok.mpr ⟨hsupported, rfl⟩, ?_⟩
  rw [if_pos rfl]
  unfold repackExperts
  refine exec_lift_bind_ok.mpr ⟨geo, hgeo, ?_⟩
  rw [exec_get_bind]
  exact exec_lift_bind_ok.mpr ⟨true, h, by rw [if_pos rfl, exec_pure]⟩

/-- **A mixed pair is refused**: one side registered with another partner. -/
theorem exec_prepare_mixed {registered : Nat × Nat} (hregistered : registered ∈ w.storages.keys)
    (hside : x.key.1 = registered.1 ∨ x.key.2 = registered.2)
    (hfresh : w.storages.get? x.key = none) :
    ∃ err, exec (prepareExperts true plan x) w = (.error err, w) := by
  unfold prepareExperts
  rw [exec_bind, exec_lift]
  rcases hon : prepareEnabled true plan with err | on
  · exact ⟨err, rfl⟩
  · obtain ⟨-, rfl⟩ := prepareEnabled_ok.mp hon
    dsimp only
    rw [if_pos rfl]
    unfold repackExperts
    rw [exec_bind, exec_lift]
    rcases geometry plan.hiddenSize plan.intermediateSize (x.w1.shape.getD 0 0) with err | geo
    · exact ⟨err, rfl⟩
    · dsimp only
      rw [exec_get_bind, exec_bind, exec_lift]
      unfold preparationState
      rw [hfresh]
      dsimp only
      rw [if_pos ⟨registered, hregistered, hside⟩]
      exact ⟨_, rfl⟩

/-! ## Which pairs are prepared

The calls are gone through once more, now for what they need: what a check asks for is a field of
`Accepted`, or follows from the fields.
-/

/-- What the preparation accepts of a pair that is not registered: a plan of the recipe, canonical
contiguous payloads with some bytes, scales that the kernel order can be made of, and no side
registered with another partner. -/
structure Accepted (plan : Plan) (x : Experts) (w : World β) : Prop where
  supported : supported plan
  experts_pos : 0 < x.w1.shape.getD 0 0
  hidden_pos : 0 < plan.hiddenSize
  intermediate_pos : 0 < plan.intermediateSize
  shape1 : x.w1.shape = [x.w1.shape.getD 0 0, 2 * plan.intermediateSize, plan.hiddenSize / 2]
  shape2 : x.w2.shape = [x.w1.shape.getD 0 0, plan.hiddenSize, plan.intermediateSize / 2]
  contiguous : x.w1.contiguous = true ∧ x.w2.contiguous = true
  scales : plan.w13Layout = .w31 → x.regKey ∈ w.normalized ∨ x.s1.contiguous = true
  alone : ∀ registered ∈ w.storages.keys, ¬ (x.key.1 = registered.1 ∨ x.key.2 = registered.2)

/-- A pair that is not registered is fresh exactly when neither side is. -/
theorem preparationState_false {geo : Geometry} (hfresh : w.storages.get? x.key = none) :
    preparationState w x geo = .ok false ↔
      ∀ registered ∈ w.storages.keys, ¬ (x.key.1 = registered.1 ∨ x.key.2 = registered.2) := by
  unfold preparationState
  rw [hfresh]
  dsimp only
  split_ifs with h
  · exact iff_of_false nofun fun h' => let ⟨registered, hin, hside⟩ := h; h' registered hin hside
  · exact iff_of_true rfl fun registered hin hside => h ⟨registered, hin, hside⟩

/-- When the kernel order can be made of the experts of a supported plan. -/
theorem exec_ensure_ok {n k : Nat} (hlength : x.w1.shape.length = 3)
    (hrows : x.w1.shape.getD 1 0 = 2 * n)
    (hcontiguous : x.w1.contiguous = true) :
    (∃ w₀, exec (ensureW13KernelOrder x n k) w = (.ok (), w₀)) ↔
      x.regKey ∈ w.normalized ∨ x.s1.contiguous = true := by
  unfold ensureW13KernelOrder
  rw [exec_get_bind]
  by_cases hknown : x.regKey ∈ w.normalized
  · rw [if_pos hknown]
    exact iff_of_true ⟨w, rfl⟩ (Or.inl hknown)
  · rw [if_neg hknown]
    simp only [exec_guard, exec_modify]
    constructor
    · rintro ⟨_, hraise, -⟩
      exact Or.inr (Bool.not_eq_false _ ▸ (not_or.mp hraise).2)
    · rintro (h | hscales)
      · exact absurd h hknown
      · exact ⟨_, by simp [hcontiguous, hscales],
          not_or.mpr ⟨not_not.mpr hlength, not_not.mpr hrows⟩, rfl⟩

/-- **A preparation of a fresh pair**, step by step. -/
theorem exec_prepare_fresh {geo : Geometry} {w₀ : World β} {packed1 packed2 : Tensor β}
    (hsupported : supported plan)
    (hgeo : geometry plan.hiddenSize plan.intermediateSize (x.w1.shape.getD 0 0) = .ok geo)
    (hstate : preparationState w x geo = .ok false)
    (horder : exec (if plan.w13Layout = .w31 then
      ensureW13KernelOrder x plan.intermediateSize plan.hiddenSize
      else pure ()) w = (.ok (), w₀)) (hpacked : Packed x geo w₀ w' packed1 packed2) :
    exec (prepareExperts true plan x) w = (.ok (), w') := by
  have hrest : exec (repackStorage x.w1 (repackW13 geo) >>= fun _ =>
      repackStorage x.w2 (repackW2 geo) >>= fun _ => register x geo) w₀ = (.ok (), w') := by
    refine exec_bind_ok.mpr ⟨(), _, exec_repackStorage.mpr ⟨hpacked.contiguous.1, packed1,
      hpacked.repack1, rfl⟩, ?_⟩
    refine exec_bind_ok.mpr ⟨(), _, exec_repackStorage.mpr ⟨hpacked.contiguous.2,
      packed2, ?_, rfl⟩, ?_⟩
    · dsimp only
      rw [Function.update_of_ne (ptr_ne x)]
      exact hpacked.repack2
    · exact exec_register.mpr ⟨hpacked.shape1, hpacked.shape2, hpacked.contiguous, hpacked.world⟩
  unfold prepareExperts
  refine exec_lift_bind_ok.mpr ⟨true, prepareEnabled_ok.mpr ⟨hsupported, rfl⟩, ?_⟩
  rw [if_pos rfl]
  unfold repackExperts
  refine exec_lift_bind_ok.mpr ⟨geo, hgeo, ?_⟩
  rw [exec_get_bind]
  refine exec_lift_bind_ok.mpr ⟨false, hstate, ?_⟩
  rw [if_neg Bool.false_ne_true]
  by_cases hlayout : plan.w13Layout = .w31
  · rw [if_pos hlayout] at horder ⊢
    exact exec_bind_ok.mpr ⟨(), w₀, horder, hrest⟩
  · rw [if_neg hlayout] at horder ⊢
    obtain rfl := (Prod.mk.inj horder).2
    exact hrest

/-- **Which fresh pairs are prepared.** -/
theorem prepareExperts_iff (hfresh : w.storages.get? x.key = none) :
    (∃ w', exec (prepareExperts true plan x) w = (.ok (), w')) ↔ Accepted plan x w := by
  constructor
  · rintro ⟨w', hprep⟩
    obtain ⟨hsupported, geo, hgeo, ⟨hstate, -⟩ | ⟨hstate, w₀, packed1, packed2, horder, hpacked⟩⟩ :=
      prepareExperts_cases hprep
    · rw [(preparationState_true.mp hstate).1] at hfresh
      cases hfresh
    obtain ⟨hk, hn, he⟩ := geometry_ok hgeo
    obtain ⟨hshape1, hshape2, hcontiguous, hrepack1, hrepack2, -⟩ := hpacked
    obtain ⟨perm13, hmoves13, -⟩ := repackW13_moves (β := β) geo
    rw [hshape1] at hrepack1
    obtain ⟨⟨hpos, hbytes⟩, -⟩ := hmoves13.inPlace hrepack1
    have hrows := Nat.pos_of_mul_pos_right hbytes
    have hcols := Nat.pos_of_mul_pos_left hbytes
    unfold Geometry.rows13 at hrows
    refine ⟨hsupported, he ▸ hpos, ?_, ?_, ?_, ?_, hcontiguous, fun hlayout => ?_,
      (preparationState_false hfresh).mp hstate⟩
    · omega
    · omega
    · rw [← he, ← hn, ← hk]
      exact hshape1
    · rw [← he, ← hn, ← hk]
      exact hshape2
    · rw [if_pos hlayout] at horder
      refine (exec_ensure_ok ?_ ?_ hcontiguous.1).mp ⟨w₀, horder⟩
      · rw [hshape1]
        rfl
      · rw [hshape1, ← hn]
        rfl
  · intro h
    obtain ⟨-, -, -, hhidden, hintermediate⟩ := h.supported
    obtain ⟨geo, hgeo⟩ : ∃ geo, geometry plan.hiddenSize plan.intermediateSize
      (x.w1.shape.getD 0 0) = .ok geo :=
      ⟨_, dif_pos ⟨Nat.dvd_of_mod_eq_zero hintermediate, Nat.dvd_of_mod_eq_zero hhidden⟩⟩
    obtain ⟨hk, hn, he⟩ := geometry_ok hgeo
    have hshape1 : x.w1.shape = [geo.e, geo.rows13, geo.k / 2] := by
      rw [he, Geometry.rows13, hn, hk]
      exact h.shape1
    have hshape2 : x.w2.shape = [geo.e, geo.k, geo.n / 2] := by
      rw [he, hn, hk]
      exact h.shape2
    have hepos : 0 < geo.e := he ▸ h.experts_pos
    have hkpos : 0 < geo.k / 2 := by
      have := h.hidden_pos
      omega
    have hnpos : 0 < geo.n / 2 := by
      have := h.intermediate_pos
      omega
    obtain ⟨w₀, horder⟩ : ∃ w₀, exec (if plan.w13Layout = .w31 then
        ensureW13KernelOrder x plan.intermediateSize plan.hiddenSize else pure ()) w =
          (.ok (), w₀) := by
      split_ifs with hlayout
      · refine (exec_ensure_ok ?_ ?_ h.contiguous.1).mpr (h.scales hlayout)
        · rw [hshape1]
          rfl
        · rw [hshape1, ← hn]
          rfl
      · exact ⟨w, rfl⟩
    obtain ⟨perm13, hmoves13, -⟩ := repackW13_moves (β := β) geo
    obtain ⟨perm2, hmoves2, -⟩ := repackW2_moves (β := β) geo
    have hrepack1 := repackInplace_eq hmoves13 67108864 (w₀.mem x.w1.ptr) hepos
      (Nat.mul_pos (by unfold Geometry.rows13; omega) hkpos)
    have hrepack2 := repackInplace_eq hmoves2 67108864 (w₀.mem x.w2.ptr) hepos
      (Nat.mul_pos (by omega) hnpos)
    rw [← hshape1] at hrepack1
    rw [← hshape2] at hrepack2
    exact ⟨_, exec_prepare_fresh h.supported hgeo
      ((preparationState_false hfresh).mpr h.alone) horder
      ⟨hshape1, hshape2, h.contiguous, hrepack1, hrepack2, rfl⟩⟩

/-! ## The result -/

/-- **Tile-major weights hold the stock boxes.** A pair is prepared when its plan and tensors are
accepted. After the preparation the producer addresses the boxes and the scales that it would have
addressed before, both payloads are permuted as by the repack of the whole tensor, whatever the
chunks, the pair can be prepared again at any time without effect, and a pair that shares one side
with it is refused. -/
theorem tile_major_exact (hfresh : w.storages.get? x.key = none) :
    ((∃ w', exec (prepareExperts true plan x) w = (.ok (), w')) ↔ Accepted plan x w) ∧
    ∀ w', exec (prepareExperts true plan x) w = (.ok (), w') → ∃ geo stock tm w₀,
      geometry plan.hiddenSize plan.intermediateSize (x.w1.shape.getD 0 0) = .ok geo ∧
      (exec (launch plan x) w = (.ok stock, w₀) ∧ stock.tileMajorB = false) ∧
      (exec (launch plan x) w' = (.ok tm, w') ∧ tm.tileMajorB = true) ∧ SameBoxes geo tm stock ∧
      InPlace (repackW13 geo) x.w1.shape (w₀.mem x.w1.ptr) (w'.mem x.w1.ptr) ∧
      InPlace (repackW2 geo) x.w2.shape (w₀.mem x.w2.ptr) (w'.mem x.w2.ptr) ∧
      (∀ later, Relation.ReflTransGen Call w' later →
        exec (prepareExperts true plan x) later = (.ok (), later)) ∧
      ∀ later plan' y, Relation.ReflTransGen Call w' later → y.key.1 = x.key.1 ∨ y.key.2 = x.key.2 →
        later.storages.get? y.key = none →
        ∃ err, exec (prepareExperts true plan' y) later = (.error err, later) := by
  refine ⟨prepareExperts_iff hfresh, fun w' hprep => ?_⟩
  obtain ⟨hsupported, geo, hgeo, ⟨hstate, -⟩ | ⟨-, w₀, packed1, packed2, horder, hpacked⟩⟩ :=
    prepareExperts_cases hprep
  · rw [(preparationState_true.mp hstate).1] at hfresh
    cases hfresh
  obtain ⟨hk, hn, he⟩ := geometry_ok hgeo
  obtain ⟨hshape1, hshape2, hcontiguous, hrepack1, hrepack2, hworld⟩ := hpacked
  obtain ⟨perm13, hmoves13, hat13⟩ := repackW13_moves (β := β) geo
  obtain ⟨perm2, hmoves2, hat2⟩ := repackW2_moves (β := β) geo
  rw [hshape1] at hrepack1
  rw [hshape2] at hrepack2
  obtain ⟨-, hdata1, hin1⟩ := hmoves13.inPlace hrepack1
  obtain ⟨-, hdata2, hin2⟩ := hmoves2.inPlace hrepack2
  have hapart := x.apart
  simp only [List.nodup_cons, List.mem_cons, not_or, List.not_mem_nil, not_false_eq_true,
    and_true] at hapart
  obtain ⟨⟨h1s1, h12, h1s2⟩, ⟨hs12, -⟩, h2s2, -⟩ := hapart
  have hmem1 : w'.mem x.w1.ptr = packed1.data := by
    rw [hworld]
    dsimp only
    rw [Function.update_of_ne h12, Function.update_self]
  have hmem2 : w'.mem x.w2.ptr = packed2.data := by
    rw [hworld]
    exact Function.update_self ..
  have hscale1 : w'.mem x.s1.ptr = w₀.mem x.s1.ptr := by
    rw [hworld]
    dsimp only
    rw [Function.update_of_ne hs12, Function.update_of_ne (Ne.symm h1s1)]
  have hscale2 : w'.mem x.s2.ptr = w₀.mem x.s2.ptr := by
    rw [hworld]
    dsimp only
    rw [Function.update_of_ne (Ne.symm h2s2), Function.update_of_ne (Ne.symm h1s2)]
  have hregistered : preparationState w' x geo = .ok true := by
    refine preparationState_true.mpr ⟨?_, hshape1, hshape2, hcontiguous, ?_⟩
    · rw [hworld]
      exact Dict.get?_set_self
    · rw [hworld]
      exact List.mem_append_right _ List.mem_cons_self
  have hget := (preparationState_true.mp hregistered).1
  refine ⟨geo, _, _, w₀, hgeo, ⟨exec_launch_stock hsupported hfresh horder, rfl⟩,
    ⟨exec_launch_tileMajor hsupported hgeo hget, rfl⟩, ?_, ?_, ?_, fun later hrun =>
    ?_, fun later plan' y hrun hside hy => ?_⟩
  · rw [hshape1, hshape2, hmem1, hmem2, hscale1, hscale2, hdata1, hdata2, ← hk, ← hn]
    exact sameBoxes geo hat13 hat2
  · rw [hshape1, hmem1]
    exact hin1
  · rw [hshape2, hmem2]
    exact hin2
  · exact exec_prepare_registered hsupported hgeo (registered_run hregistered hrun)
  · have hlater := (preparationState_true.mp (registered_run hregistered hrun)).1
    exact exec_prepare_mixed (Dict.mem_keys_iff.mpr ⟨geo, hlater⟩) hside hy

/-- One expert of one slice, gate first. -/
def smallPlan : Plan := ⟨{.nvfp4}, .modeloptNvfp4, .silu, 256, 128, .w31⟩

def smallExperts : Experts where
  w1 := ⟨0, [1, 256, 128], true⟩
  s1 := ⟨1, [1, 4096], true⟩
  w2 := ⟨2, [1, 256, 64], true⟩
  s2 := ⟨3, [1, 2048], true⟩
  apart := by decide

def smallWorld : World Nat := ⟨fun ptr a => ptr + a, [], Dict.empty⟩

theorem smallExperts_accepted : Accepted smallPlan smallExperts smallWorld where
  supported := by decide
  experts_pos := by decide
  hidden_pos := by decide
  intermediate_pos := by decide
  shape1 := rfl
  shape2 := rfl
  contiguous := ⟨rfl, rfl⟩
  scales := fun _ => Or.inr rfl
  alone := fun _ h => nomatch h

/-- The small experts are prepared, and the kernel reads their stock boxes from the repacked
storages. -/
theorem small_boxes : ∃ w' geo stock tm w₀,
    exec (prepareExperts true smallPlan smallExperts) smallWorld = (.ok (), w') ∧ geo.k = 256 ∧
    (exec (launch smallPlan smallExperts) smallWorld = (.ok stock, w₀) ∧ stock.tileMajorB = false) ∧
    (exec (launch smallPlan smallExperts) w' = (.ok tm, w') ∧ tm.tileMajorB = true) ∧
    SameBoxes geo tm stock ∧
    InPlace (repackW13 geo) [1, 256, 128] (w₀.mem 0) (w'.mem 0) ∧
    InPlace (repackW2 geo) [1, 256, 64] (w₀.mem 2) (w'.mem 2) ∧
    exec (prepareExperts true smallPlan smallExperts) w' = (.ok (), w') := by
  obtain ⟨hiff, hall⟩ := @tile_major_exact Nat smallPlan smallExperts smallWorld rfl
  obtain ⟨w', hprep⟩ := hiff.mpr smallExperts_accepted
  obtain ⟨geo, stock, tm, w₀, hgeo, hstock, htm, hboxes, hin1, hin2, hagain, -⟩ := hall w' hprep
  exact ⟨w', geo, stock, tm, w₀, hprep, (geometry_ok hgeo).1, hstock, htm, hboxes, hin1, hin2,
    hagain w' .refl⟩

end Prep

end Ringside.TileMajor

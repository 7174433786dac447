import Ringside.Shards
import Ringside.Spmd

/-!
# The mHC layer stack on four ranks

`Glm5NextModel.forward` over its decoder layers, as each of the four ranks runs it. Without an
ownership every rank holds all rows and each partial result of attention and FFN is all-reduced.
With a `PrefillOwnership` the row-wise mHC maps run on the rank's own rows: a partial is
reduce-scattered to the owners, and the owners' rows are gathered in front of attention, of the FFN,
of an auxiliary state and at the end.

* A tensor is the list of its rows. The mHC maps, attention and FFN are parameters (`Stack`): maps
  of a row, and functions of all rows for each rank and layer.
* `Rank` is a program of a rank: it may enter a collective, raise, or return. `PrefillOwnership` is
  the object of the source with its checks (`create`, `check`) and the count of the collectives it
  has entered.
* `serve` is what a collective leaves on a rank. A sum is row by row in that row's order of
  additions, whatever it is; reduce-scatter and all-reduce are asked for the same order.
* `Deferred` is a row's state that a layer hands to the next mHC map; the last layer materialises it
  and contracts.
* A forward also returns what it gave to attention and the FFN, so that the theorems can speak of it
  (`Out`).

Results are in `Exact`.

Out of scope: the FP8 hand-off of the KDA input (off by default; `DenseFp8.Handoff`), the checks of
device and dtype, and which forwards are sharded.
-/

namespace Ringside.MhcPrefill

open Spmd Shards

/-! ## The collectives of the group -/

/-- A rank's part in a collective: the tensor it brings. -/
inductive Collective (H : Type) where
  | reduceScatter (source : List H)
  | allGather (owned : List H)
  | allReduce (partial_ : List H)

inductive Kind where
  | reduceScatter | allGather | allReduce
  deriving DecidableEq, Repr

namespace Collective

variable {H : Type}

def kind : Collective H → Kind
  | .reduceScatter _ => .reduceScatter
  | .allGather _ => .allGather
  | .allReduce _ => .allReduce

def rows : Collective H → List H
  | .reduceScatter t | .allGather t | .allReduce t => t

end Collective

section Serve

variable {H : Type} [Zero H] (add : Nat → (Fin 4 → H) → H)

/-- Row `i` of the sum over the ranks, in that row's order of additions. -/
def sumRow (t : Fin 4 → List H) (i : Nat) : H := add i fun r => (t r).getD i 0

/-- The sum over the ranks. -/
def sumRows (rows : Nat) (t : Fin 4 → List H) : List H := (List.range rows).map (sumRow add t)

/-- The four tensors by rank number. -/
def byRank (t : Fin 4 → List H) (r : Nat) : List H := if h : r < 4 then t ⟨r, h⟩ else []

/-- What the group's collectives leave on rank `r`. -/
def serve (q : Fin 4 → Collective H) (r : Fin 4) : List H :=
  match q r with
  | .reduceScatter source =>
    let extent := source.length / 4
    (List.range extent).map fun j => sumRow add (fun r => (q r).rows) (r * extent + j)
  | .allGather _ => gather 4 (byRank fun r => (q r).rows)
  | .allReduce t => sumRows add t.length fun r => (q r).rows

end Serve

/-- What a rank does: collectives, and errors it raises. -/
abbrev Rank (H : Type) := ExceptT String (Prog (Collective H) (List H))

def collective {H : Type} (q : Collective H) : Rank H (List H) :=
  liftM (Prog.ask q : Prog (Collective H) (List H) (List H))

/-! ## Ownership -/

def maxRows : Nat := 14336

/-- The rows a rank owns in one forward, and how many collectives it has entered. -/
structure PrefillOwnership where
  rank : Nat
  rows : Nat
  rsCount : Nat
  agCount : Nat
  supported : 1 ≤ rows ∧ rows ≤ maxRows ∧ rank < 4

namespace PrefillOwnership

/-- `__post_init__`. -/
def create (rank rows : Nat) : Except String PrefillOwnership :=
  if h : 1 ≤ rows ∧ rows ≤ maxRows ∧ rank < 4 then .ok ⟨rank, rows, 0, 0, h⟩
  else throw "unsupported TP4 owner geometry"

variable (o : PrefillOwnership)

/-- A quarter of the rows, rounded up. -/
def ownerRows : Nat := (o.rows + 3) / 4

def paddedRows : Nat := 4 * o.ownerRows

/-- Real rows held by this rank. -/
def validRows : Nat := min o.ownerRows (o.rows - o.rank * o.ownerRows)

/-- Row `i` is a real row of this rank. -/
def Owns (i : Nat) : Prop := o.rank * o.ownerRows ≤ i ∧ i < o.rank * o.ownerRows + o.validRows

/-- This rank's rows of a full tensor. -/
def localView {β : Type} [Zero β] (tensor : List β) : Except String (List β) :=
  if tensor.length ≠ o.rows then throw "mHC full-to-owner row mismatch"
  else
    let lo := o.rank * o.ownerRows
    if lo + o.ownerRows ≤ o.rows then pure ((tensor.drop lo).take o.ownerRows)
    else pure ((tensor.drop lo).take o.validRows ++ List.replicate (o.ownerRows - o.validRows) 0)

variable {H : Type} [Zero H]

/-- `_check`, as far as it looks at the shape. -/
def check (tensor : List H) (expected : Nat) : Except String Unit :=
  if tensor.length ≠ expected then
    throw "mHC collectives require contiguous BF16 owner/full CUDA rows"
  else pure ()

def reduceScatter (partial_ : List H) : Rank H (List H × PrefillOwnership) := do
  check partial_ o.rows
  let source := if o.paddedRows ≠ o.rows then partial_ ++ List.replicate (o.paddedRows - o.rows) 0
    else partial_
  let output ← collective (.reduceScatter source)
  pure (output, { o with rsCount := o.rsCount + 1 })

def allGather (owned : List H) : Rank H (List H × PrefillOwnership) := do
  check owned o.ownerRows
  let output ← collective (.allGather owned)
  pure (if o.paddedRows = o.rows then output else output.take o.rows,
    { o with agCount := o.agCount + 1 })

def finish (layers auxiliaryGathers : Nat) : Except String Unit :=
  if o.rsCount ≠ 2 * layers ∨ o.agCount ≠ 2 * layers + auxiliaryGathers then
    throw s!"mHC collective accounting mismatch: RS={o.rsCount} AG={o.agCount}"
  else pure ()

end PrefillOwnership

/-! ## The layers -/

/-- A row's state that a layer defers to the next mHC map. -/
structure Deferred (S P Q : Type) where
  residual : List S
  post : List P
  comb : List Q

/-- What a layer hands on: the hidden states, and the deferred state unless the layer contracted it.
-/
structure Carry (H S P Q : Type) where
  x : List H
  deferred : Option (Deferred S P Q)

/-- The stack: the row-wise mHC maps, and per layer attention and FFN as the partial result of each
rank. -/
structure Stack (H S P Q : Type) where
  numHiddenLayers : Nat
  hcExpand : H → S
  hcPre : S → P × Q × H
  hcAttn : Nat → H → S → P → Q → S × P × Q × H
  hcFfn : Nat → H → S → P → Q → S × P × Q × H
  hcPost : Nat → H → S → P → Q → S
  hcContract : S → H
  selfAttn : Nat → Fin 4 → List H → List H
  mlp : Nat → Fin 4 → List H → List H
  norm : H → H
  length_selfAttn : ∀ idx r x, (selfAttn idx r x).length = x.length
  length_mlp : ∀ idx r x, (mlp idx r x).length = x.length

section Layers

variable {H S P Q : Type} [Zero H] [Zero S] [Zero P] [Zero Q]

/-- A fused post-pre on the rows of four tensors. -/
def fusedPostPre (f : H → S → P → Q → S × P × Q × H) (x : List H) (d : Deferred S P Q) :
    Deferred S P Q × List H :=
  let rows := (x.zip (d.residual.zip (d.post.zip d.comb))).map fun (x, s, p, q) => f x s p q
  (⟨rows.map fun y => y.1, rows.map fun y => y.2.1, rows.map fun y => y.2.2.1⟩,
    rows.map fun y => y.2.2.2)

/-- A full-sequence consumer's input: gathered from the owners. -/
def toFull (o : Option PrefillOwnership) (x : List H) : Rank H (List H × Option PrefillOwnership) :=
  match o with
  | some o => do
    let (x, o) ← o.allGather x
    pure (x, some o)
  | none => pure (x, none)

/-- The sum of the partial results: to the owners, or to every rank. -/
def reduce (o : Option PrefillOwnership) (partial_ : List H) :
    Rank H (List H × Option PrefillOwnership) :=
  match o with
  | some o => do
    let (x, o) ← o.reduceScatter partial_
    pure (x, some o)
  | none => do
    let x ← collective (.allReduce partial_)
    pure (x, none)

def localState (o : Option PrefillOwnership) (d : Deferred S P Q) :
    Except String (Deferred S P Q) :=
  match o with
  | some o => do pure ⟨← o.localView d.residual, ← o.localView d.post, ← o.localView d.comb⟩
  | none => pure d

variable (m : Stack H S P Q)

/-- The full rows in front of layer 0, which alone has no incoming state. -/
def Stack.firstPre (x : List H) : Deferred S P Q × List H :=
  let residual := x.map m.hcExpand
  let rows := residual.map m.hcPre
  (⟨residual, rows.map fun y => y.1, rows.map fun y => y.2.1⟩, rows.map fun y => y.2.2)

/-- `layer.hc_post`, then the mean of the streams. -/
def Stack.postContract (idx : Nat) (x : List H) (d : Deferred S P Q) : List H :=
  (x.zip (d.residual.zip (d.post.zip d.comb))).map fun (x, s, p, q) =>
    m.hcContract (m.hcPost idx x s p q)

/-- The layer up to its attention: the state of this rank and the full input. -/
def Stack.attnPre (idx : Nat) (c : Carry H S P Q) (o : Option PrefillOwnership) :
    Rank H (Deferred S P Q × List H × Option PrefillOwnership) :=
  match c.deferred with
  | none => do
    let (d, x) := m.firstPre c.x
    -- the first pre stays full-sized: no gather
    let d ← localState o d
    pure (d, x, o)
  | some d => do
    let (d, x) := fusedPostPre (m.hcAttn idx) c.x d
    let (x, o) ← toFull o x
    pure (d, x, o)

/-- The last layer materialises its post and contracts; every other one defers it. -/
def Stack.handOn (idx : Nat) (x : List H) (d : Deferred S P Q) : Carry H S P Q :=
  if idx + 1 = m.numHiddenLayers then ⟨m.postContract idx x d, none⟩ else ⟨x, some d⟩

/-- `Glm5NextDecoderLayer.forward`; beside it what attention and the FFN were given. -/
def Stack.layer (r : Fin 4) (idx : Nat) (c : Carry H S P Q) (o : Option PrefillOwnership) :
    Rank H (Carry H S P Q × Option PrefillOwnership × List (List H)) := do
  let (d, attnIn, o) ← m.attnPre idx c o
  let (x, o) ← reduce o (m.selfAttn idx r attnIn)
  let (d, x) := fusedPostPre (m.hcFfn idx) x d
  let (ffnIn, o) ← toFull o x
  let (x, o) ← reduce o (m.mlp idx r ffnIn)
  pure (m.handOn idx x d, o, [attnIn, ffnIn])

/-- The loop over the layers: what is handed on, the auxiliary states so far, and what the
full-sequence consumers have been given. -/
structure Pass (H S P Q : Type) where
  carry : Carry H S P Q
  owner : Option PrefillOwnership
  auxGathers : Nat
  aux : List (List H)
  seen : List (List H)

/-- An auxiliary state before it is gathered. -/
def Stack.auxState (idx : Nat) (c : Carry H S P Q) : List H :=
  match c.deferred with
  | none => c.x
  | some d => m.postContract idx c.x d

/-- The auxiliary state after layer `idx`, where it is asked for. -/
def Stack.capture (auxLayerIds : List Nat) (idx : Nat) (a : Pass H S P Q) : Rank H (Pass H S P Q) :=
  if idx + 1 ∈ auxLayerIds then do
    let (h, o) ← toFull a.owner (m.auxState idx a.carry)
    pure ⟨a.carry, o, if o.isSome then a.auxGathers + 1 else a.auxGathers, a.aux ++ [h], a.seen⟩
  else pure a

/-- One layer of the loop. -/
def Stack.pass (auxLayerIds : List Nat) (r : Fin 4) (a : Pass H S P Q) (idx : Nat) :
    Rank H (Pass H S P Q) := do
  let (c, o, seen) ← m.layer r idx a.carry a.owner
  m.capture auxLayerIds idx ⟨c, o, a.auxGathers, a.aux, a.seen ++ seen⟩

/-- What a forward returns, and what it gave to attention and the FFN. -/
structure Out (H : Type) where
  hidden : List H
  aux : List (List H)
  seen : List (List H)

/-- `Glm5NextModel.forward`. -/
def Stack.forward (auxLayerIds : List Nat) (x : List H) (o : Option PrefillOwnership) (r : Fin 4) :
    Rank H (Out H) := do
  let a ← (List.range m.numHiddenLayers).foldlM (m.pass auxLayerIds r) ⟨⟨x, none⟩, o, 0, [], []⟩
  let (h, o) ← toFull a.owner a.carry.x
  (o.elim (pure ()) fun o => o.finish m.numHiddenLayers a.auxGathers : Except String Unit)
  pure ⟨h.map m.norm, a.aux, a.seen⟩

/-- The forward of a rank that owns a share of the rows. -/
def Stack.shardedForward (auxLayerIds : List Nat) (x : List H) (r : Fin 4) : Rank H (Out H) := do
  let o ← PrefillOwnership.create r x.length
  m.forward auxLayerIds x (some o) r

end Layers

end Ringside.MhcPrefill

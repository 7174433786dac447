import Ringside.Run
import Ringside.Dict

/-!
# The registry of replay boundaries (`Registry`, `glm53_replay_boundary.py`)

Model of `_valid`, `_drop`, `_dead`, `_enforce_cap`, `record`, `moved`, `admit` and `clear`. The
registry tags the blocks that hold the state at a replay boundary, bounds how many boundaries it
keeps, and checks a boundary before the scheduler uses it.

* The block pool is code the registry only calls: `BlockPool` lists the calls and the contract of
  the pool's hash map, and between two calls of the registry the pool may become anything.
* A block is an object; `blockId` is its id, and identity (`is`) is equality. Keys and group keys
  are any types with equality.
* Dictionaries keep the order of insertion (`Dict`), which is what the least recently used entry is
  found by.
* `Fault` are the exceptions the operations can raise; no run raises one.
* `evictOldest` has fuel, one for each entry; the source's loop has none.
* Counters, time stamps, request ids and paths only feed the log and are left out.
* `Event` is a call or a change of the pool, `step` a run's step: a raised fault ends the run.

Invariants and results are in `Integrity` and `Ownership`.
-/

namespace Ringside.ReplayBoundary

open Ringside.Run

/-- What the registry uses of the block pool and of its blocks, with the contract of the hash map:
a removal unmaps what it is asked to, and nothing of another block. -/
structure BlockPool (Pool Blk GKey : Type) where
  blockId : Blk → Nat
  isNull : Blk → Bool
  blockHash : Pool → Blk → Option GKey
  /-- `cached_block_hash_to_block.contain`. -/
  contain : Pool → GKey → Nat → Bool
  /-- `cached_block_hash_to_block.pop`. -/
  pop : Pool → GKey → Nat → Pool
  removeCachedBlockHashes : Pool → Blk → Pool
  /-- `cached_block_hashes_by_block.get`. -/
  hashesByBlock : Pool → Nat → Option (List GKey)
  /-- What is left of `cached_block_hashes_by_block[id]`; `none` removes the item. -/
  setHashesByBlock : Pool → Nat → Option (List GKey) → Pool
  pop_self : ∀ p k b, contain (pop p k b) k b = false
  pop_other : ∀ p k b k' b', (k', b') ≠ (k, b) → contain (pop p k b) k' b' = contain p k' b'
  remove_primary : ∀ p blk k, blockHash p blk = some k →
    contain (removeCachedBlockHashes p blk) k (blockId blk) = false
  remove_other : ∀ p blk k b, b ≠ blockId blk →
    contain (removeCachedBlockHashes p blk) k b = contain p k b
  remove_le : ∀ p blk k b, contain (removeCachedBlockHashes p blk) k b = true →
    contain p k b = true
  contain_setHashes : ∀ p b hs k b', contain (setHashesByBlock p b hs) k b' = contain p k b'

/-- The constructor's arguments other than the pool. -/
structure Config (Key GKey : Type) where
  cap : Int
  groupIds : List Nat
  makeKey : Key → Nat → GKey

/-- An item of `Entry.blocks`. -/
structure Recorded (Blk : Type) where
  groupId : Nat
  block : Blk
  epoch : Nat

/-- An item of `tags`. -/
structure Tag (Key : Type) where
  epoch : Nat
  key : Key
  tokens : Nat
  deriving DecidableEq

/-- `Entry`. -/
structure Entry (Key Blk : Type) where
  key : Key
  tokens : Nat
  blocks : Dict Nat (Recorded Blk)

/-- `Registry`, with the pool it works on. -/
structure Registry (Pool Blk Key : Type) where
  entries : Dict Key (Entry Key Blk)
  tags : Dict Nat (Tag Key)
  epoch : Nat
  pool : Pool

/-- `RuntimeError("replay-boundary: cannot drop entry … of block …")`, and what `next` raises on an
empty dictionary. -/
inductive Fault (GKey : Type) where
  | cannotDropEntry (key : GKey) (blockId : Nat)
  | stopIteration

variable {Pool Blk Key GKey : Type} [DecidableEq Key] [DecidableEq Blk] [DecidableEq GKey]

section Operations

variable (api : BlockPool Pool Blk GKey) (cfg : Config Key GKey)

/-- `_valid`. -/
def valid (s : Registry Pool Blk Key) (e : Entry Key Blk) (groupId : Nat) (block : Blk) : Bool :=
  match e.blocks.get? (api.blockId block) with
  | some rec =>
    rec.groupId = groupId && rec.block = block && !api.isNull block &&
      s.tags.get? (api.blockId block) = some ⟨rec.epoch, e.key, e.tokens⟩ &&
      api.contain s.pool (cfg.makeKey e.key groupId) (api.blockId block)
  | none => false

/-- What `_drop` does to the pool for a block it still maps under the key. -/
def unmap (p : Pool) (key : GKey) (block : Blk) : Pool :=
  if api.blockHash p block = some key then api.removeCachedBlockHashes p block
  else
    let p := api.pop p key (api.blockId block)
    match api.hashesByBlock p (api.blockId block) with
    | some extra =>
      let extra := extra.filter (· ≠ key)
      api.setHashesByBlock p (api.blockId block) (if extra = [] then none else some extra)
    | none => p

/-- One iteration of `_drop`. -/
def dropBlock (e : Entry Key Blk) (s : Registry Pool Blk Key) (r : Recorded Blk) :
    Except (Fault GKey) (Registry Pool Blk Key) :=
  let key := cfg.makeKey e.key r.groupId
  let id := api.blockId r.block
  let pool := if api.contain s.pool key id then unmap api s.pool key r.block else s.pool
  if api.contain s.pool key id && api.contain pool key id then .error (.cannotDropEntry key id)
  else
    .ok { s with
      pool := pool
      tags :=
        if s.tags.get? id = some ⟨r.epoch, e.key, e.tokens⟩ then s.tags.erase id else s.tags }

/-- `_drop`. -/
def drop (s : Registry Pool Blk Key) (e : Entry Key Blk) :
    Except (Fault GKey) (Registry Pool Blk Key) := do
  let s ← e.blocks.values.foldlM (dropBlock api cfg e) s
  return { s with entries := s.entries.erase e.key }

/-- `_dead`. -/
def dead (s : Registry Pool Blk Key) (e : Entry Key Blk) : Bool :=
  let live := (e.blocks.values.filter fun r => valid api cfg s e r.groupId r.block).map (·.groupId)
  live.toFinset.card < cfg.groupIds.length

/-- The first loop of `_enforce_cap`: dead entries, oldest first. -/
def dropDead (keep : Key) :
    List (Entry Key Blk) → Registry Pool Blk Key → Except (Fault GKey) (Registry Pool Blk Key)
  | [], s => .ok s
  | e :: es, s => do
    if (s.entries.size : Int) ≤ cfg.cap then return s
    if e.key ≠ keep ∧ dead api cfg s e = true then
      dropDead keep es (← drop api cfg s e)
    else dropDead keep es s

/-- The second loop of `_enforce_cap`: least recently used. `fuel` is the number of entries. -/
def evictOldest (keep : Key) :
    Nat → Registry Pool Blk Key → Except (Fault GKey) (Registry Pool Blk Key)
  | 0, s => .ok s
  | fuel + 1, s => do
    if (s.entries.size : Int) ≤ cfg.cap then return s
    let some e := s.entries.first? | throw .stopIteration
    if e.key = keep then
      let s := { s with entries := s.entries.moveToEnd keep }
      let some e := s.entries.first? | throw .stopIteration
      if e.key = keep then return s
      evictOldest keep fuel (← drop api cfg s e)
    else evictOldest keep fuel (← drop api cfg s e)

/-- `_enforce_cap`. -/
def enforceCap (s : Registry Pool Blk Key) (keep : Key) :
    Except (Fault GKey) (Registry Pool Blk Key) := do
  if (s.entries.size : Int) ≤ cfg.cap then return s
  let s ← dropDead api cfg keep s.entries.values s
  evictOldest api cfg keep s.entries.size s

/-- The beginning of `record`: an entry of the key with other tokens is dropped. -/
def dropMismatch (s : Registry Pool Blk Key) (key : Key) (tokens : Nat) :
    Except (Fault GKey) (Registry Pool Blk Key) :=
  match s.entries.get? key with
  | some e => if e.tokens ≠ tokens then drop api cfg s e else .ok s
  | none => .ok s

/-- The middle of `record`: the entry takes the block, and the block its tag. -/
def enter (s : Registry Pool Blk Key) (key : Key) (tokens groupId : Nat) (block : Blk) :
    Registry Pool Blk Key :=
  let e := (s.entries.get? key).getD ⟨key, tokens, Dict.empty⟩
  let epoch := s.epoch + 1
  let e := { e with blocks := e.blocks.set (api.blockId block) ⟨groupId, block, epoch⟩ }
  { s with
    entries := (s.entries.set key e).moveToEnd key
    tags := s.tags.set (api.blockId block) ⟨epoch, key, tokens⟩
    epoch := epoch }

/-- `record`. -/
def record (s : Registry Pool Blk Key) (key : Key) (tokens groupId : Nat) (block : Blk) :
    Except (Fault GKey) (Registry Pool Blk Key) := do
  let s ← dropMismatch api cfg s key tokens
  enforceCap api cfg (enter api s key tokens groupId block) key

/-- `moved`. -/
def moved (s : Registry Pool Blk Key) (src dst : Blk) (groupId : Nat) : Registry Pool Blk Key :=
  match s.tags.get? (api.blockId src) with
  | none => s
  | some tag =>
    match s.entries.get? tag.key with
    | none => s
    | some e =>
      match e.blocks.get? (api.blockId src) with
      | none => s
      | some r =>
        if r.groupId ≠ groupId ∨ r.block ≠ src ∨ r.epoch ≠ tag.epoch then s
        else
          let blocks := (e.blocks.erase (api.blockId src)).set (api.blockId dst)
            ⟨groupId, dst, tag.epoch⟩
          { s with
            entries := s.entries.set tag.key { e with blocks := blocks }
            tags := (s.tags.set (api.blockId dst) tag).erase (api.blockId src) }

/-- `admit`. -/
def admitEntry (s : Registry Pool Blk Key) (key : Key) (blocks : List Blk) (groupIds : List Nat) :
    Except (Fault GKey) (Bool × Registry Pool Blk Key) := do
  match s.entries.get? key with
  | none => return (true, s)
  | some e =>
    let judged := (groupIds.zip blocks).filter fun gb => api.blockId gb.2 ∈ e.blocks.keys
    if ¬ judged.all (fun gb => valid api cfg s e gb.1 gb.2) then
      return (false, ← drop api cfg s e)
    if judged.length < groupIds.length ∧ judged = [] then return (true, s)
    return (true, { s with entries := s.entries.moveToEnd key })

/-- `clear`. -/
def clear (s : Registry Pool Blk Key) : Except (Fault GKey) (Registry Pool Blk Key) :=
  s.entries.values.foldlM (drop api cfg) s

/-! ## Runs -/

/-- A call of the registry, or anything the pool does between two calls. -/
inductive Event (Pool Blk Key : Type) where
  | record (key : Key) (tokens groupId : Nat) (block : Blk)
  | moved (src dst : Blk) (groupId : Nat)
  | admitEntry (key : Key) (blocks : List Blk) (groupIds : List Nat)
  | clear
  | poolChange (pool : Pool)

/-- What an event leads to. -/
def stepOk (s : Registry Pool Blk Key) :
    Event Pool Blk Key → Except (Fault GKey) (Registry Pool Blk Key)
  | .record key tokens groupId block => record api cfg s key tokens groupId block
  | .moved src dst groupId => .ok (moved api s src dst groupId)
  | .admitEntry key blocks groupIds => (admitEntry api cfg s key blocks groupIds).map Prod.snd
  | .clear => clear api cfg s
  | .poolChange pool => .ok { s with pool := pool }

/-- A raised fault ends the run. -/
def step (x : Except (Fault GKey) (Registry Pool Blk Key)) (ev : Event Pool Blk Key) :
    Except (Fault GKey) (Registry Pool Blk Key) :=
  x.bind fun s => stepOk api cfg s ev

/-- The registry after a history, started on the pool `p₀`. -/
def after (p₀ : Pool) (h : List (Event Pool Blk Key)) :
    Except (Fault GKey) (Registry Pool Blk Key) :=
  run (step api cfg) (.ok ⟨Dict.empty, Dict.empty, 0, p₀⟩) h

end Operations

end Ringside.ReplayBoundary

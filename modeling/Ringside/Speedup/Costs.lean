import Ringside.Speedup.Policy

/-!
# Cost documents (`load_cost_table`, `CostTable.from_document`)

A cost table comes from a file: bounded bytes, a digest, a JSON object, and then every field of it
and of its rows is checked before the policy sees a cost. This file models the path from the file to
the table, with what may be raised on it.

* An exception is one of the five kinds that the live refresh catches, or a missing key. That a
  lookup without default may raise is why the checks are modelled one by one.
* What the operating system answers (`Opened`, `Info`), the digest, the JSON text and arithmetic on
  numbers are parameters (`PyOps`). They raise what Python documents of them, which is among the
  five kinds.
* An object is its list of fields in the order of the text; one with a field twice is refused
  (`uniqueObject`). `get` and `item` are the lookups with and without default.
* `executionKindOf`, `rejectTestCosts`, `checkRelation` and the checks of a row (`nativeRow`,
  `sampledRow`, `drafterRow`) are the functions of the source under their names or their parts.
* Errors have the texts of the source; what the platform raises has none.

Results:
* `caught_costRow`: the checks of a row never look up a key that is not there.
* `fromDocument_caught`: nor do those of a document.
* `loadCostTable_caught`: loading raises only what is caught.
-/

namespace Ringside.Speedup

/-- `OSError`, `ValueError`, `TypeError`, `OverflowError` and `RuntimeError`, with their subclasses.
-/
inductive Fault where
  | os | value | type | overflow | runtime
  deriving DecidableEq, Repr

inductive PyError where
  | fault (kind : Fault) (text : String)
  | key (name : String)
  deriving DecidableEq, Repr

/-- `raise ValueError`. -/
def raise {α : Type} (text : String) : Except PyError α := .error (.fault .value text)

/-- What the platform answers. -/
def lift {α : Type} : Except Fault α → Except PyError α
  | .ok a => .ok a
  | .error f => .error (.fault f "")

/-- A decoded JSON value. -/
inductive Json (F : Type) where
  | null
  | bool (b : Bool)
  | int (i : Int)
  | float (x : F)
  | str (s : String)
  | arr (items : List (Json F))
  | obj (fields : List (String × Json F))

abbrev Fields (F : Type) := List (String × Json F)

/-- A number that is not a `bool`. -/
inductive Num (F : Type) where
  | int (i : Int)
  | float (x : F)

variable {F : Type}

def Json.number : Json F → Option (Num F)
  | .int i => some (.int i)
  | .float x => some (.float x)
  | _ => none

def Json.isNull : Json F → Bool
  | .null => true
  | _ => false

def Json.isStr : Json F → Bool
  | .str _ => true
  | _ => false

/-- The text of a string. -/
def Json.string : Json F → Option String
  | .str s => some s
  | _ => none

/-- `value == text`. -/
def Json.isText (j : Json F) (text : String) : Bool :=
  match j with
  | .str s => s == text
  | _ => false

/-- `fields.get(name)`. -/
def get (d : Fields F) (name : String) : Json F := (d.lookup name).getD .null

/-- `fields.get(name, default)`. -/
def getOr (d : Fields F) (name : String) (default : Json F) : Json F := (d.lookup name).getD default

/-- `fields[name]`. -/
def item (d : Fields F) (name : String) : Except PyError (Json F) :=
  match d.lookup name with
  | some v => .ok v
  | none => .error (.key name)

/-- The standard library on bytes, texts and numbers. -/
structure PyOps (F : Type) where
  loads : List UInt8 → Except Fault (Json F)
  sha256 : List UInt8 → String
  /-- `str.lower`. -/
  lower : String → String
  /-- `==`. -/
  same : Json F → Json F → Bool
  isZero : F → Bool
  isfinite : Num F → Except Fault Bool
  /-- `<= 0`. -/
  nonpos : Num F → Bool
  toFloat : Num F → Except Fault F
  median : List (Num F) → Except Fault (Num F)
  isclose : Num F → Num F → Except Fault Bool

variable (py : PyOps F)

/-- The truth of a value. -/
def Json.truthy : Json F → Bool
  | .null => false
  | .bool b => b
  | .int i => i != 0
  | .float x => !py.isZero x
  | .str s => s != ""
  | .arr items => !items.isEmpty
  | .obj fields => !fields.isEmpty

/-- `re.fullmatch(r"[0-9a-f]{64}", value)` of a string. -/
def isHex64 : Json F → Bool
  | .str s => s.length == 64 && s.toList.all fun c => ('0' ≤ c && c ≤ '9') || ('a' ≤ c && c ≤ 'f')
  | _ => false

/-! ## Bytes and objects

The platform and the standard library are parameters, which answer or raise. What they may raise is
part of their type; nothing else is assumed of them.
-/

/-- What `fstat` and `stat` say of a file. -/
structure Info where
  isReg : Bool
  dev : Nat
  ino : Nat
  mtimeNs : Nat
  ctimeNs : Nat
  size : Nat

abbrev Stamp := Nat × Nat × Nat × Nat × Nat

/-- `_file_stamp`. -/
def fileStamp (i : Info) : Stamp := (i.dev, i.ino, i.mtimeNs, i.ctimeNs, i.size)

/-- What `_read_bounded` sees of an open file. -/
structure Opened where
  before : Except Fault Info
  /-- `stream.read(limit + 1)`. -/
  raw : Except Fault (List UInt8)
  after : Except Fault Info
  /-- `path.stat()`. -/
  path : Except Fault Info

/-- `_read_bounded`. -/
def readBounded (opened : Except Fault Opened) (limit : Nat) :
    Except PyError (List UInt8 × Stamp) := do
  let stream ← lift opened
  let before ← lift stream.before
  if !before.isReg ∨ before.size > limit then raise "runtime input is not a bounded regular file"
  let raw ← lift stream.raw
  let after ← lift stream.after
  if raw.length > limit ∨ raw.length ≠ before.size ∨ fileStamp before ≠ fileStamp after then
    raise "runtime input changed while reading"
  let path ← lift stream.path
  if fileStamp before ≠ fileStamp path then raise "runtime input changed while reading"
  return (raw, fileStamp before)

mutual

/-- `_unique_object`, at every object of a value. -/
def uniqueObject : Json F → Except PyError Unit
  | .obj fields => uniqueFields [] fields
  | .arr items => uniqueItems items
  | _ => pure ()

def uniqueFields (seen : List String) : List (String × Json F) → Except PyError Unit
  | [] => pure ()
  | (name, v) :: rest => do
    uniqueObject v
    if name ∈ seen then raise "duplicate JSON field"
    uniqueFields (name :: seen) rest

def uniqueItems : List (Json F) → Except PyError Unit
  | [] => pure ()
  | v :: rest => do
    uniqueObject v
    uniqueItems rest

end

/-- `json.loads(raw, object_pairs_hook=_unique_object)`. -/
def loadsUnique (raw : List UInt8) : Except PyError (Json F) := do
  let v ← lift (py.loads raw)
  uniqueObject v
  return v

/-! ## A cost document

The checks are in the source's order, with its texts. A lookup that could miss is written as one
that raises a key error, which is not among what `refresh` catches.
-/

/-- `value.lower().replace("-", "_")`. -/
def marker (s : String) : String := (py.lower s).map fun c => if c = '-' then '_' else c

/-- `part in text`. -/
def within (part text : String) : Bool := decide (part.toList <:+: text.toList)

mutual

/-- `reject_test_costs`. -/
def rejectTestCosts : Json F → Except PyError Unit
  | .obj fields => rejectFields fields
  | .arr items => rejectItems items
  | _ => pure ()

def rejectFields : List (String × Json F) → Except PyError Unit
  | [] => pure ()
  | (key, v) :: rest => do
    let name := marker py key
    if name ∈ ["synthetic", "fixture", "test_only", "capture_only", "cpu_only"] ∧ v.truthy py then
      raise "synthetic or test-only cost tables cannot serve"
    if name ∈ ["measurement_origin", "capture", "status", "origin"] then
      match v with
      | .str s =>
        let m := marker py s
        if m.startsWith "cpu_" ∨ m.startsWith "synthetic" ∨ m.startsWith "fixture" ∨
          within "test_only" m ∨ within "capture_only" m then
          raise "synthetic or test-only cost tables cannot serve"
      | _ => pure ()
    rejectTestCosts v
    rejectFields rest

def rejectItems : List (Json F) → Except PyError Unit
  | [] => pure ()
  | v :: rest => do
    rejectTestCosts v
    rejectItems rest

end

/-- `execution_kind`. -/
def executionKindOf : Json F → Except PyError ExecutionKind
  | .str "unspecified_legacy" => .ok .unspecifiedLegacy
  | .str "k4_drafter_trimmed" => .ok .k4DrafterTrimmed
  | .str "native_k" => .ok .nativeK
  | _ => raise "unknown cost execution kind"

def ExecutionKind.text : ExecutionKind → String
  | .unspecifiedLegacy => "unspecified_legacy"
  | .k4DrafterTrimmed => "k4_drafter_trimmed"
  | .nativeK => "native_k"

/-- An independent binding: a string of 64 hexadecimal digits. -/
def isBound (d : Fields F) : Except PyError Bool :=
  match get d "compatibility_identity" with
  | .str _ => isHex64 <$> item d "compatibility_identity"
  | _ => pure false

/-- The checks of `require_k4_drafter`. -/
def requireDrafter (d : Fields F) (kind : ExecutionKind) : Except PyError Unit := do
  if kind ≠ .k4DrafterTrimmed then raise "cost activation requires K4 drafter-trimmed rows"
  let bound ← isBound d
  if !(get d "measurement_origin").isText "gpu_runtime" ∨
      !(get d "compatibility_contract").isText "glm53.cost.compatibility.v1" ∨ !bound then
    raise "cost activation needs measured GPU rows and independent binding"
  let receipts ← item d "source_receipts"
  let hashed := match receipts with
    | .obj entries => entries.all fun e => e.1 != "" && isHex64 e.2
    | _ => false
  if !hashed then raise "cost activation needs source receipt SHA256 hashes"

/-- `type(value) is int`, among some. -/
def intAmong (j : Json F) (among : List Nat) : Option Nat :=
  match j with
  | .int i => if 0 ≤ i ∧ i.toNat ∈ among then some i.toNat else none
  | _ => none

/-- The samples of a row against its summary. -/
def checkTimings (timings : Json F) (samples : Nat) (ms : Num F) : Except PyError Unit := do
  match timings with
  | .arr items =>
    if items.length ≠ samples then raise "cost row whole-step samples differ from its summary"
    let numbers ← items.mapM fun x =>
      match x.number with
      | none => raise "cost row whole-step samples differ from its summary"
      | some n => do
        if !(← lift (py.isfinite n)) ∨ py.nonpos n then
          raise "cost row whole-step samples differ from its summary"
        return n
    let median ← lift (py.median numbers)
    if !(← lift (py.isclose median ms)) then
      raise "cost row whole-step samples differ from its summary"
  | _ => raise "cost row whole-step samples differ from its summary"

/-- A native row names the length it runs at. -/
def nativeRow (kind : ExecutionKind) (row : Fields F) (k : Nat) : Except PyError Unit :=
  if kind = .nativeK ∧ !(get row "native_k").isNull then do
    let native ← item row "native_k"
    if !py.same native (.int k) then raise "native-K row does not match its K" else pure ()
  else pure ()

/-- The samples of a row, if it has them. -/
def sampledRow (row : Fields F) (samples : Nat) (ms : Num F) : Except PyError Unit :=
  if (row.lookup "whole_step_ms").isSome then do
    let timings ← item row "whole_step_ms"
    checkTimings py timings samples ms
  else pure ()

/-- The checks of `require_k4_drafter` on a row. -/
def drafterRow (kind : ExecutionKind) (row : Fields F) (k samples : Nat) (ms : Num F) :
    Except PyError Unit :=
  let proposal := getOr row "proposal_k" (.int 4)
  let trim := getOr row "target_trim_k" (.int k)
  if !(getOr row "execution_kind" (.str kind.text)).isText kind.text ∨
    (row.lookup "native_k").isSome ∨ intAmong proposal [4] = none ∨ intAmong trim [k] = none then
    raise "cost row is not a K4 drafter-trimmed measurement"
  else sampledRow py row samples ms

/-- One row of the table. -/
def costRow (kind : ExecutionKind) (requireK4Drafter : Bool) (costs : List ((Nat × Nat × Nat) × F))
    (row : Json F) :
    Except PyError (List ((Nat × Nat × Nat) × F)) :=
  match row with
  | .obj row =>
    match intAmong (get row "concurrency") (List.range' 1 6), intAmong (get row "k") KS,
      intAmong (get row "context_tokens") CONTEXTS, (get row "median_ms").number,
      get row "samples" with
    | some c, some k, some context, some ms, .int samples => do
      if !(← lift (py.isfinite ms)) ∨ py.nonpos ms ∨ samples < 5 ∨
        !(get row "graph").isText "FULL" then
        raise "invalid or unqualified cost row"
      if (costs.lookup (c, context, k)).isSome then raise "duplicate cost row"
      nativeRow py kind row k
      if requireK4Drafter then drafterRow py kind row k samples.toNat ms
      let x ← lift (py.toFloat ms)
      return costs ++ [((c, context, k), x)]
    | _, _, _, _, _ => raise "invalid or unqualified cost row"
  | _ => raise "invalid or unqualified cost row"

/-- Two identities of a document say how they are related. -/
def checkRelation (d : Fields F) : Except PyError Unit :=
  if !(get d "compatibility_identity").isNull ∧ (get d "runtime_identity").truthy py then do
    let compatibility ← item d "compatibility_identity"
    let runtime ← item d "runtime_identity"
    if !py.same compatibility runtime ∧ (get d "historical_runtime_identity").isNull then
      raise "independent and historical cost identities need an explicit relation"
    else pure ()
  else pure ()

/-- The rows of a document. -/
def rowsOf (d : Fields F) : Except PyError (List (Json F)) :=
  match get d "rows" with
  | .arr _ => do
    match ← item d "rows" with
    | .arr rows => if rows.isEmpty then raise "cost table has no rows" else return rows
    | _ => raise "cost table has no rows"
  | _ => raise "cost table has no rows"

/-- `CostTable.from_document`. -/
def fromDocument (d : Fields F) (requireK4Drafter : Bool) : Except PyError (CostTable F) := do
  rejectTestCosts py (.obj d)
  if !(get d "schema").isText "glm53.speedup.costs.v1" then raise "unsupported cost table schema"
  if !(get d "measurement").isText "whole_step_ms" then
    raise "costs must include drafting, verification and overhead"
  let identity := getOr d "compatibility_identity" (get d "runtime_identity")
  if !identity.truthy py ∨ !(get d "source_receipts").truthy py then
    raise "cost table needs runtime identity and source receipts"
  if !identity.isStr then raise "cost table runtime identity must be a string"
  checkRelation py d
  let kind ← executionKindOf (getOr d "execution_kind" (.str "unspecified_legacy"))
  if requireK4Drafter then requireDrafter d kind
  match getOr d "output_headroom_tokens" (.int 256) with
  | .int headroom =>
    if headroom < 0 ∨ headroom > 2048 then raise "invalid cost output headroom"
    let rows ← rowsOf d
    let costs ← rows.foldlM (costRow py kind requireK4Drafter) []
    return ⟨costs, kind, headroom.toNat, identity.string⟩
  | _ => raise "invalid cost output headroom"

/-- `MAX_COST_BYTES`. -/
def maxCostBytes : Nat := 1024 * 1024

/-- `load_cost_table`. -/
def loadCostTable (opened : Except Fault Opened) (identity expectedSha256 : Json F)
    (requireK4Drafter : Bool) :
    Except PyError (CostTable F) := do
  if requireK4Drafter ∧ (!isHex64 identity ∨ !isHex64 expectedSha256) then
    raise "cost activation requires independent identity and table SHA256"
  let (raw, _) ← readBounded opened maxCostBytes
  if !expectedSha256.isNull ∧ !expectedSha256.isText (py.sha256 raw) then
    raise "cost table SHA256 differs from runtime override"
  match ← loadsUnique py raw with
  | .obj document =>
    let tableIdentity := if requireK4Drafter then get document "compatibility_identity"
      else getOr document "compatibility_identity" (get document "runtime_identity")
    if !identity.truthy py ∨ !py.same tableIdentity identity then
      raise "cost table runtime identity does not match runtime override"
    fromDocument py document requireK4Drafter
  | _ => raise "cost table must be an object"

/-! ## Only what is caught

The lemmas follow the shape of the code: a sequence, a check, a loop, and one for each function. The
lookups are the only place with an argument, as each needs the check that stands before it.
-/

/-- Nothing is raised but what `refresh` catches. -/
def Caught {α : Type} (x : Except PyError α) : Prop := ∀ e, x = .error e → ∃ kind text,
    e = .fault kind text

section Caught

variable {α β : Type}

theorem caught_pure (a : α) : Caught (pure a) := nofun

theorem caught_raise (text : String) : Caught (raise text : Except PyError α) := by
  rintro e ⟨⟩
  exact ⟨_, _, rfl⟩

theorem caught_lift (x : Except Fault α) : Caught (lift x) := by
  cases x with
  | ok a => exact nofun
  | error f =>
    rintro e ⟨⟩
    exact ⟨_, _, rfl⟩

theorem caught_bind {x : Except PyError α} {f : α → Except PyError β} (hx : Caught x)
    (hf : ∀ a, x = .ok a → Caught (f a)) : Caught (x >>= f) := by
  cases x with
  | error e =>
    rintro e' ⟨⟩
    exact hx e rfl
  | ok a => exact hf a rfl

/-- `if c: raise`, then the rest. -/
theorem caught_guard {c : Prop} [Decidable c] {text : String} {f : PUnit → Except PyError α}
    {y : Except PyError α}
    (hy : ¬ c → Caught y) : Caught (if c then raise text >>= f else y) := by
  split_ifs with h
  · exact caught_bind (caught_raise _) nofun
  · exact hy h

/-- `if c: raise`, at the end. -/
theorem caught_check {c : Prop} [Decidable c] {text : String} {y : Except PyError α}
    (hy : ¬ c → Caught y) :
    Caught (if c then raise text else y) := by
  split_ifs with h
  · exact caught_raise _
  · exact hy h

theorem caught_ite {c : Prop} [Decidable c] {x y : Except PyError α} (hx : c → Caught x)
    (hy : ¬ c → Caught y) :
    Caught (if c then x else y) := by
  split_ifs with h
  · exact hx h
  · exact hy h

/-- A check that is passed. -/
theorem guard_ok {c : Prop} [Decidable c] {text : String} {f : PUnit → Except PyError α}
    {y : Except PyError α} {b : α} :
    (if c then raise text >>= f else y) = .ok b ↔ ¬ c ∧ y = .ok b :=
  Checks.guarded_ok

/-- A key that is there. -/
theorem caught_item {d : Fields F} {name : String} (h : (d.lookup name).isSome) :
    Caught (item d name) := by
  obtain ⟨v, hv⟩ := Option.isSome_iff_exists.mp h
  rw [item, hv]
  exact nofun

theorem caught_readBounded (opened : Except Fault Opened) (limit : Nat) :
    Caught (readBounded opened limit) := by
  unfold readBounded
  refine caught_bind (caught_lift _) fun stream _ => caught_bind (caught_lift _) fun before _ => ?_
  refine caught_guard fun _ => caught_bind (caught_lift _) fun raw _ =>
    caught_bind (caught_lift _) fun after _ => ?_
  exact caught_guard fun _ => caught_bind (caught_lift _) fun path _ =>
    caught_guard fun _ => caught_pure _

mutual

theorem caught_uniqueObject (v : Json F) : Caught (uniqueObject v) := by
  cases v with
  | obj fields => exact caught_uniqueFields [] fields
  | arr items => exact caught_uniqueItems items
  | null | bool | int | float | str => exact caught_pure _

theorem caught_uniqueFields (seen : List String) (fields : List (String × Json F)) :
    Caught (uniqueFields seen fields) := by
  match fields with
  | [] => exact caught_pure _
  | (name, v) :: rest =>
    exact caught_bind (caught_uniqueObject v) fun _ _ => caught_guard fun _ =>
      caught_uniqueFields _ rest

theorem caught_uniqueItems (items : List (Json F)) : Caught (uniqueItems items) := by
  match items with
  | [] => exact caught_pure _
  | v :: rest => exact caught_bind (caught_uniqueObject v) fun _ _ => caught_uniqueItems rest

end

theorem caught_loadsUnique (raw : List UInt8) : Caught (loadsUnique py raw) :=
  caught_bind (caught_lift _) fun v _ => caught_bind (caught_uniqueObject v)
    fun _ _ => caught_pure _

mutual

theorem caught_rejectTestCosts (v : Json F) : Caught (rejectTestCosts py v) := by
  cases v with
  | obj fields => exact caught_rejectFields fields
  | arr items => exact caught_rejectItems items
  | null | bool | int | float | str => exact caught_pure _

theorem caught_rejectFields (fields : List (String × Json F)) :
    Caught (rejectFields py fields) := by
  match fields with
  | [] => exact caught_pure _
  | (key, v) :: rest =>
    have hrest : Caught (do rejectTestCosts py v; rejectFields py rest) :=
      caught_bind (caught_rejectTestCosts v) fun _ _ => caught_rejectFields rest
    unfold rejectFields
    refine caught_guard fun _ => ?_
    split_ifs
    · cases v with
      | str s => exact caught_guard fun _ => hrest
      | null | bool | int | float | arr | obj => exact hrest
    · exact hrest

theorem caught_rejectItems (items : List (Json F)) : Caught (rejectItems py items) := by
  match items with
  | [] => exact caught_pure _
  | v :: rest => exact caught_bind (caught_rejectTestCosts v) fun _ _ => caught_rejectItems rest

end

/-- A field that is not `None` is there. -/
theorem lookup_of_get {d : Fields F} {name : String} (h : (get d name).isNull = false) :
    (d.lookup name).isSome := by
  unfold get at h
  cases hl : d.lookup name with
  | none => simp [hl, Json.isNull] at h
  | some v => rfl

theorem isNull_of_truthy {v : Json F} (h : v.truthy py = true) : v.isNull = false := by
  cases v <;> first | rfl | cases h

theorem caught_executionKindOf (v : Json F) : Caught (executionKindOf v) := by
  unfold executionKindOf
  split
  iterate 3 exact nofun
  exact caught_raise _

theorem caught_isBound (d : Fields F) : Caught (isBound d) := by
  unfold isBound
  split
  · next hs =>
    rw [map_eq_pure_bind]
    exact caught_bind (caught_item (lookup_of_get (by rw [hs]; rfl))) fun _ _ => caught_pure _
  · exact caught_pure _

theorem caught_requireDrafter {d : Fields F} (kind : ExecutionKind)
    (h : (d.lookup "source_receipts").isSome) :
    Caught (requireDrafter d kind) := by
  unfold requireDrafter
  refine caught_guard fun _ => caught_bind (caught_isBound d) fun bound _ => caught_guard fun _ =>
    caught_bind (caught_item h) fun receipts _ => caught_check fun _ => caught_pure _

/-- A loop whose turns are caught. -/
theorem caught_mapM {f : α → Except PyError β} (h : ∀ x, Caught (f x)) : ∀ l :
    List α, Caught (l.mapM f)
  | [] => caught_pure _
  | x :: l => by
    rw [List.mapM_cons]
    exact caught_bind (h x) fun _ _ => caught_bind (caught_mapM h l) fun _ _ => caught_pure _

theorem caught_foldlM {f : β → α → Except PyError β} (h : ∀ b x, Caught (f b x)) :
    ∀ (l : List α) (b : β), Caught (l.foldlM f b)
  | [], _ => caught_pure _
  | x :: l, b => by
    rw [List.foldlM_cons]
    exact caught_bind (h b x) fun b' _ => caught_foldlM h l b'

theorem caught_checkTimings (timings : Json F) (samples : Nat) (ms : Num F) :
    Caught (checkTimings py timings samples ms) := by
  unfold checkTimings
  cases timings with
  | null | bool | int | float | str | obj => exact caught_raise _
  | arr items =>
    refine caught_guard fun _ => caught_bind (caught_mapM (fun x => ?_) _) fun numbers _ =>
      caught_bind (caught_lift _) fun median _ => caught_bind (caught_lift _) fun close _ =>
      caught_check fun _ => caught_pure _
    split
    · exact caught_raise _
    · exact caught_bind (caught_lift _) fun finite _ => caught_guard fun _ => caught_pure _

theorem caught_nativeRow (kind : ExecutionKind) (row : Fields F) (k : Nat) :
    Caught (nativeRow py kind row k) := by
  unfold nativeRow
  split_ifs with h
  · exact caught_bind (caught_item (lookup_of_get (by simpa using h.2))) fun _ _ =>
      caught_check fun _ => caught_pure _
  · exact caught_pure _

theorem caught_drafterRow (kind : ExecutionKind) (row : Fields F) (k samples : Nat) (ms : Num F) :
    Caught (drafterRow py kind row k samples ms) := by
  refine caught_check fun _ => ?_
  unfold sampledRow
  split_ifs with h
  · exact caught_bind (caught_item h) fun _ _ => caught_checkTimings py _ _ _
  · exact caught_pure _

/-- **The checks of a row look up no key that is not there.** -/
theorem caught_costRow (kind : ExecutionKind) (requireK4Drafter : Bool)
    (costs : List ((Nat × Nat × Nat) × F))
    (row : Json F) : Caught (costRow py kind requireK4Drafter costs row) := by
  unfold costRow
  split
  · split
    · refine caught_bind (caught_lift _) fun finite _ => caught_guard fun _ => caught_guard fun _ =>
        caught_bind (caught_nativeRow py _ _ _) fun _ _ => ?_
      have hend : ∀ ms : Num F, ∀ key, Caught (do let x ← lift (py.toFloat ms); return costs ++
        [(key, x)]) :=
        fun ms key => caught_bind (caught_lift _) fun _ _ => caught_pure _
      split_ifs
      · exact caught_bind (caught_drafterRow py _ _ _ _ _) fun _ _ => hend _ _
      · exact hend _ _
    · exact caught_raise _
  · exact caught_raise _

theorem caught_checkRelation (d : Fields F) : Caught (checkRelation py d) := by
  unfold checkRelation
  split_ifs with h
  · exact caught_bind (caught_item (lookup_of_get (by simpa using h.1))) fun _ _ =>
      caught_bind (caught_item (lookup_of_get (isNull_of_truthy py h.2))) fun _ _ =>
      caught_check fun _ => caught_pure _
  · exact caught_pure _

theorem caught_rowsOf (d : Fields F) : Caught (rowsOf d) := by
  unfold rowsOf
  split
  · next hrows =>
    refine caught_bind (caught_item (lookup_of_get (by rw [hrows]; rfl))) fun v _ => ?_
    cases v with
    | arr rows => exact caught_check fun _ => caught_pure _
    | null | bool | int | float | str | obj => exact caught_raise _
  · exact caught_raise _

/-- **The checks of a document look up no key that is not there.** -/
theorem fromDocument_caught (d : Fields F) (requireK4Drafter : Bool) :
    Caught (fromDocument py d requireK4Drafter) := by
  unfold fromDocument
  refine caught_bind (caught_rejectTestCosts py _) fun _ _ => caught_guard fun _ =>
    caught_guard fun _ =>
    caught_guard fun hreceipts => caught_guard fun _ =>
      caught_bind (caught_checkRelation py d) fun _ _ =>
    caught_bind (caught_executionKindOf _) fun kind _ => ?_
  have htable : Caught (match getOr d "output_headroom_tokens" (.int 256) with
      | .int headroom => do
        if headroom < 0 ∨ headroom > 2048 then raise "invalid cost output headroom"
        let rows ← rowsOf d
        let costs ← rows.foldlM (costRow py kind requireK4Drafter) []
        return (⟨costs, kind, headroom.toNat,
          (getOr d "compatibility_identity" (get d "runtime_identity")).string⟩ : CostTable F)
      | _ => raise "invalid cost output headroom") := by
    split
    · exact caught_guard fun _ => caught_bind (caught_rowsOf d) fun rows _ =>
        caught_bind (caught_foldlM (caught_costRow py kind requireK4Drafter) _ _)
          fun _ _ => caught_pure _
    · exact caught_raise _
  split_ifs
  · simp only [not_or, Bool.not_eq_true', Bool.not_eq_false] at hreceipts
    exact caught_bind (caught_requireDrafter kind (lookup_of_get (isNull_of_truthy py hreceipts.2)))
      fun _ _ => htable
  · exact htable

/-- **Loading a cost table raises only what is caught.** -/
theorem loadCostTable_caught (opened : Except Fault Opened) (identity expectedSha256 : Json F)
    (requireK4Drafter : Bool) :
      Caught (loadCostTable py opened identity expectedSha256 requireK4Drafter) := by
  unfold loadCostTable
  refine caught_guard fun _ => caught_bind (caught_readBounded _ _) fun raw _ =>
    caught_guard fun _ =>
    caught_bind (caught_loadsUnique py _) fun v _ => ?_
  cases v with
  | obj document => exact caught_guard fun _ => fromDocument_caught py _ _
  | null | bool | int | float | str | arr => exact caught_raise _

end Caught

end Ringside.Speedup

import Ringside.FileTree

/-!
# Committing an import (`sources/import_plan.py`)

`commit` swaps the staged directories and files into the repository, one after the other; on an
error it goes through what it noted and moves the old copies back. This file has the model, and
where the places of an item are; what the rollback makes good is in `Rollback`.

* The tree below the repository is the library's (`FileTree`), with `mkdirs`, `replace`, `write` and
  `rmtree`, which fail where the file system refuses them.
* The staging directory lies in the repository, and `.previous` in it is not there before. Owned
  directories and shared files are apart, as those of `build` are: these are fields of `Request`.
* Any operation may raise, whatever the tree (`raises`); besides, one raises where the file system
  refuses it. An operation that raises has no effect, but that a copy may leave an empty file.
* `attempt` keeps the state where an operation raises: the loops of the source stop there, and the
  rollback starts from that tree.
* An error of the rollback itself ends it.
* `buildOwned` and `buildShared` are the lists that `build` returns.

Results:
* `path_apart`: places are apart, of one item or of two.
* `Only`: the places of other items stay, and above all of them directories are only added.
-/

namespace Ringside.ImportPlan

open Ringside.FileTree

variable {β : Type}

/-! ## The swap -/

/-- The two kinds of notes. -/
inductive Kind where
  | dir
  | file
  deriving DecidableEq

/-- The operations on one item. -/
inductive Op where
  | lookTarget
  | mkBackup
  | moveAway
  | openCopy
  | writeCopy
  | note
  | lookStaged
  | mkTarget
  | moveIn
  deriving DecidableEq

/-- The tree below the repository, and what was noted. -/
structure State (β : Type) where
  tree : Files β
  done : List (Kind × Path)

section Swap

variable (out : String) (fault : Path → Op → Bool)

/-- `out / rel`. -/
def staged (rel : Path) : Path := out :: rel

/-- `backup / rel`. -/
def backup (rel : Path) : Path := out :: ".previous" :: rel

/-- An operation on the tree; the state is kept where it raises. -/
def attempt (rel : Path) (op : Op) (f : Files β → Option (Files β)) (s : State β) :
    Except (State β) (State β) :=
  if fault rel op then .error s
  else
    match f s.tree with
    | none => .error s
    | some tree => .ok { s with tree := tree }

/-- `done.append((kind, rel))`. -/
def note (kind : Kind) (rel : Path) (s : State β) : Except (State β) (State β) :=
  if fault rel .note then .error s else .ok { s with done := s.done ++ [(kind, rel)] }

/-- `os.replace(staged, target)`, once its parents are there. -/
def moveIn (rel : Path) (s : State β) : Except (State β) (State β) := do
  let s ← attempt fault rel .mkTarget (mkdirs · rel.dropLast) s
  attempt fault rel .moveIn (replace · (staged out rel) rel) s

/-- An owned directory that is there is moved away. -/
def moveAway (d : Path) (s : State β) : Except (State β) (State β) :=
  if present s.tree d then do
    let s ← attempt fault d .mkBackup (mkdirs · (backup out d).dropLast) s
    attempt fault d .moveAway (replace · d (backup out d)) s
  else .ok s

/-- The loop's body for an owned directory. -/
def commitDir (d : Path) (s : State β) : Except (State β) (State β) := do
  let s ← attempt fault d .lookTarget some s
  let s ← moveAway out fault d s
  let s ← note fault .dir d s
  let s ← attempt fault d .lookStaged some s
  if present s.tree (staged out d) then moveIn out fault d s else .ok s

/-- `shutil.copy2` makes the file, then fills it. -/
def copyTo (t : Files β) (src dst : Path) : Option (Files β) :=
  match t src with
  | some (.file bytes) => write t dst bytes
  | _ => none

/-- A shared file that is there is copied. -/
def copyAway (f : Path) (s : State β) : Except (State β) (State β) :=
  if present s.tree f then do
    let s ← attempt fault f .mkBackup (mkdirs · (backup out f).dropLast) s
    let s ← attempt fault f .openCopy (write · (backup out f) []) s
    attempt fault f .writeCopy (fun t => copyTo t f (backup out f)) s
  else .ok s

/-- The loop's body for a shared file. -/
def commitFile (f : Path) (s : State β) : Except (State β) (State β) := do
  let s ← attempt fault f .lookTarget some s
  let s ← copyAway out fault f s
  let s ← note fault .file f s
  moveIn out fault f s

/-- One entry of either list. -/
def commitItem (it : Kind × Path) : State β → Except (State β) (State β) :=
  match it.1 with
  | .dir => commitDir out fault it.2
  | .file => commitFile out fault it.2

/-- Both loops. -/
def swap : List (Kind × Path) → State β → Except (State β) (State β)
  | [], s => .ok s
  | it :: its, s => do
    let s ← commitItem out fault it s
    swap its s

/-! ## The rollback -/

/-- What stands at the target is removed. -/
def clear (t : Files β) (d : Path) : Option (Files β) := if present t d then rmtree t d else some t

/-- The backup moves back, if there is one. -/
def moveBack (t : Files β) (rel : Path) : Option (Files β) :=
  if present t (backup out rel) then replace t (backup out rel) rel else some t

/-- One round of the rollback. -/
def undo (t : Files β) (it : Kind × Path) : Option (Files β) :=
  match it.1 with
  | .dir => do
    let t ← clear t it.2
    moveBack out t it.2
  | .file => moveBack out t it.2

/-- What it leaves of the tree. -/
def rollback : List (Kind × Path) → Files β → Files β
  | [], t => t
  | it :: its, t =>
    match undo out t it with
    | none => t
    | some t => rollback its t

/-- How `commit` ends, with the tree it leaves. -/
inductive Outcome (β : Type) where
  | returned (tree : Files β)
  | raised (tree : Files β)

/-- The lists of `commit` in the order of its loops. -/
def items (owned shared : List Path) : List (Kind × Path) :=
    owned.map (.dir, ·) ++ shared.map (.file, ·)

/-- `commit`. -/
def commit (owned shared : List Path) (t : Files β) : Outcome β :=
  match swap out fault (items owned shared) ⟨t, []⟩ with
  | .ok s => .returned s.tree
  | .error s => .raised (rollback out s.done.reverse s.tree)

end Swap

/-! ## Requests -/

/-- What `commit` is called with: the repository with its staging directory, and the two lists. -/
structure Request (β : Type) where
  tree : Files β
  out : String
  owned : List Path
  shared : List Path
  closed : Closed tree
  apart : (owned ++ shared).Pairwise Apart
  heads : ∀ d ∈ owned ++ shared, d ≠ [] ∧ d.head? ≠ some out ∧ d.head? ≠ some ".previous"
  out_dir : tree [out] = some .dir
  fresh : tree [out, ".previous"] = none
  owned_dir : ∀ d ∈ owned, isFile tree d = false ∧ isFile tree (staged out d) = false
  shared_file : ∀ f ∈ shared, isDir tree f = false ∧ isDir tree (staged out f) = false

/-- `COMPONENT_DIRS`. -/
def componentDirs : List String := ["vllm", "b12x", "sparse-mla"]

/-- The owned directories that `build` returns. -/
def buildOwned (topo : String) : List Path :=
  [["launch", "profiles", topo], ["src", topo]] ++ componentDirs.map fun c => ["patches", c, topo]

/-- The shared files that `build` returns, the last where the repository has it. -/
def buildShared (provenance : Bool) : List Path :=
  [["sources", "installed-files.json"], ["sources.lock.json"]] ++
    (componentDirs.flatMap fun c => ["series", "README.md", "provenance.json"].map fun n =>
    ["patches", c, n]) ++
    if provenance then [["release", "provenance.json"]] else []

set_option maxRecDepth 4000 in
/-- They are apart. -/
theorem build_apart : ∀ topo ∈ ["tp4", "tp2"], ∀ provenance,
    (buildOwned topo ++ buildShared provenance).Pairwise Apart := by
  decide

/-- The three places of an item. -/
inductive Place where
  | target
  | staged
  | backup
  deriving DecidableEq

namespace Request

variable (r : Request β)

/-- The paths of either list. -/
def rels : List Path := r.owned ++ r.shared

/-- Where an item's place is. -/
def path : Place → Path → Path
  | .target, rel => rel
  | .staged, rel => staged r.out rel
  | .backup, rel => backup r.out rel

/-- What is at a place of an item. -/
def slot (t : Files β) (pl : Place) (rel : Path) : Files β := below t (r.path pl rel)

/-- The items in the order of the loops. -/
def items : List (Kind × Path) := ImportPlan.items r.owned r.shared

variable {r}

theorem mem_rels {it : Kind × Path} (h : it ∈ r.items) : it.2 ∈ r.rels := by
  unfold items ImportPlan.items at h
  unfold rels
  rcases List.mem_append.mp h with h | h
  · obtain ⟨d, hd, rfl⟩ := List.mem_map.mp h
    exact List.mem_append_left _ hd
  · obtain ⟨f, hf, rfl⟩ := List.mem_map.mp h
    exact List.mem_append_right _ hf

theorem items_rels : r.items.map (·.2) = r.rels := by
  unfold items ImportPlan.items rels
  rw [List.map_append, List.map_map, List.map_map]
  simp

theorem rels_apart {rel rel' : Path} (h : rel ∈ r.rels) (h' : rel' ∈ r.rels) (hne : rel ≠ rel') :
    Apart rel rel' :=
  r.apart.forall h h' hne

theorem rels_nodup : r.rels.Nodup := r.apart.imp fun h => h.ne

theorem items_nodup : (r.items.map (·.2)).Nodup := by
  rw [items_rels]
  exact rels_nodup

/-- A relative path starts with neither name of the staging directory. -/
theorem rel_cases {rel : Path} (h : rel ∈ r.rels) : ∃ a q, rel = a :: q ∧ a ≠ r.out ∧
    a ≠ ".previous" := by
  obtain ⟨hne, hout, hprev⟩ := r.heads rel h
  cases rel with
  | nil => exact absurd rfl hne
  | cons a q => exact ⟨a, q, rfl, fun h => hout (congrArg some h), fun h => hprev (congrArg some h)⟩

/-- **Places are apart**, of one item or of two. -/
theorem path_apart {rel rel' : Path} (h : rel ∈ r.rels) (h' : rel' ∈ r.rels) {pl pl' : Place}
    (hne : (pl, rel) ≠ (pl', rel')) :
    Apart (r.path pl rel) (r.path pl' rel') := by
  obtain ⟨a, q, hrel, hout, hprev⟩ := rel_cases h
  obtain ⟨a', q', hrel', hout', hprev'⟩ := rel_cases h'
  have hsame : pl = pl' → Apart rel rel' := fun hpl => rels_apart h h' fun heq =>
    hne (Prod.ext hpl heq)
  cases pl <;> cases pl' <;> simp only [path, staged, backup, apart_cons]
  · exact hsame rfl
  · rw [hrel]
    exact apart_cons.mpr (Or.inl hout)
  · rw [hrel]
    exact apart_cons.mpr (Or.inl hout)
  · rw [hrel']
    exact apart_cons.mpr (Or.inl hout'.symm)
  · exact Or.inr (hsame rfl)
  · rw [hrel]
    exact Or.inr (apart_cons.mpr (Or.inl hprev))
  · rw [hrel']
    exact apart_cons.mpr (Or.inl hout'.symm)
  · rw [hrel']
    exact Or.inr (apart_cons.mpr (Or.inl hprev'.symm))
  · exact Or.inr (Or.inr (hsame rfl))

theorem path_ne_nil {rel : Path} (h : rel ∈ r.rels) (pl : Place) : r.path pl rel ≠ [] := by
  obtain ⟨a, q, hrel, -, -⟩ := rel_cases h
  cases pl <;> simp [path, staged, backup, hrel]

/-- A path above some place. -/
def Parent (r : Request β) (x : Path) : Prop := ∃ rel ∈ r.rels, ∃ pl, x <+: (r.path pl rel).dropLast

/-- No place lies above a parent. -/
theorem Parent.not_below {x : Path} (hx : Parent r x) {rel : Path} (h : rel ∈ r.rels) (pl : Place) :
    ¬ r.path pl rel <+: x := by
  obtain ⟨rel', h', pl', hle⟩ := hx
  intro hpre
  have hup := hpre.trans hle
  by_cases hsame : (pl, rel) = (pl', rel')
  · cases hsame
    have hlen := hup.length_le
    have hpos := List.length_pos_of_ne_nil (path_ne_nil h pl)
    rw [List.length_dropLast] at hlen
    omega
  · exact (path_apart h h' hsame).1 (hup.trans (List.dropLast_prefix _))

/-! ## What an operation on one item leaves -/

/-- The places of other items stay, and above all of them directories are only added. -/
structure Only (r : Request β) (rel : Path) (t t' : Files β) : Prop where
  others : ∀ rel' ∈ r.rels, rel' ≠ rel → ∀ pl, r.slot t' pl rel' = r.slot t pl rel'
  grown : ∀ x, Parent r x → t' x = t x ∨ t x = none ∧ t' x = some .dir

variable {t t' t'' : Files β} {rel : Path}

theorem Only.refl (r : Request β) (rel : Path) (t : Files β) : Only r rel t t :=
    ⟨fun _ _ _ _ => rfl, fun _ _ => Or.inl rfl⟩

theorem Only.trans (h : Only r rel t t') (h' : Only r rel t' t'') : Only r rel t t'' where
  others := fun rel' hmem hne pl => (h'.others rel' hmem hne pl).trans (h.others rel' hmem hne pl)
  grown := by
    intro x hx
    rcases h.grown x hx with heq | ⟨hnone, hdir⟩
    · rw [← heq]
      exact h'.grown x hx
    · rcases h'.grown x hx with heq' | ⟨hnone', -⟩
      · exact Or.inr ⟨hnone, heq'.trans hdir⟩
      · rw [hdir] at hnone'
        cases hnone'

/-- What changes only below the item's places. -/
theorem only_of (hrel : rel ∈ r.rels) (h : ∀ x, (∀ pl, ¬ r.path pl rel <+: x) → t' x = t x) :
    Only r rel t t' where
  others := fun _ hmem hne _ => below_eq_of fun x hx => h x fun _ =>
    (path_apart hmem hrel fun heq => hne (congrArg Prod.snd heq)).not_below hx
  grown := fun x hx => Or.inl (h x fun pl => hx.not_below hrel pl)

/-- Parents are made beside all places. -/
theorem slot_mkdirs {p : Path} (hp : Parent r p) (h : mkdirs t p = some t') {rel' : Path}
    (h' : rel' ∈ r.rels) (pl : Place) :
    r.slot t' pl rel' = r.slot t pl rel' :=
  below_eq_of fun _ hx => mkdirs_apart h fun hle => hp.not_below h' pl (hx.trans hle)

theorem only_mkdirs {p : Path} (hp : Parent r p) (h : mkdirs t p = some t') : Only r rel t t' :=
  ⟨fun _ hmem _ pl => slot_mkdirs hp h hmem pl, fun x _ => mkdirs_grows h x⟩

theorem parent_path (h : rel ∈ r.rels) (pl : Place) : Parent r (r.path pl rel).dropLast :=
    ⟨rel, h, pl, List.prefix_refl _⟩

theorem only_replace (hrel : rel ∈ r.rels) (src dst : Place)
    (h : replace t (r.path src rel) (r.path dst rel) = some t') :
    Only r rel t t' :=
  only_of hrel fun _ hx => replace_apart h (hx src) (hx dst)

theorem slot_replace_other (hrel : rel ∈ r.rels) {src dst pl : Place}
    (h : replace t (r.path src rel) (r.path dst rel) = some t')
    (hsrc : pl ≠ src) (hdst : pl ≠ dst) : r.slot t' pl rel = r.slot t pl rel :=
  below_eq_of fun _ hx => replace_apart h ((path_apart hrel hrel fun heq =>
    hsrc (congrArg Prod.fst heq)).not_below hx)
    ((path_apart hrel hrel fun heq => hdst (congrArg Prod.fst heq)).not_below hx)

end Request

end Ringside.ImportPlan

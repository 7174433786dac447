import Mathlib.Data.List.Infix
import Mathlib.Tactic

/-!
# File trees

A tree says what each path names: nothing, a directory, or a file with its bytes. The operations are
those of one file system, `none` where they raise; what they do to a subtree is all that is said
about them.

* A path is its components, a tree a function of paths. `below t p` is the subtree at `p`, and an
  operation is specified by the subtrees that it moves and the ones that it leaves.
* `Apart`: neither path lies below the other. Subtrees that are apart are independent.
* Metadata and links are not modelled, and a directory is never moved onto another one: the system
  allows it where that one is empty.
* Trees need not be well formed, only those that are `Closed`: the operations are stated without it.

Results:
* `below_replace`, `below_replace_src`: the subtrees that a rename moves.
* `below_write`: a written file.
* `replace_apart`, `rmtree_apart`, `write_apart`: an operation leaves every subtree apart from its
  paths.
* `mkdirs_grows`: parents are only added.
* `Closed.below_absent`, `Closed.below_file`: nothing lies below what is absent, nor below a file.
-/

namespace Ringside.FileTree

/-- A path, by its components. -/
abbrev Path := List String

/-- What a path names. -/
inductive Node (β : Type) where
  | dir
  | file (bytes : List β)
  deriving DecidableEq

/-- A tree, from a root that is not named. -/
abbrev Files (β : Type) := Path → Option (Node β)

variable {β : Type}

/-- What lies at `p` and below. -/
def below (t : Files β) (p : Path) : Files β := fun q => t (p ++ q)

/-- Nothing. -/
def absent : Files β := fun _ => none

/-- One node with nothing below. -/
def leaf (n : Node β) : Files β := fun q => if q = [] then some n else none

/-- Neither path lies below the other. -/
def Apart (p q : Path) : Prop := ¬ p <+: q ∧ ¬ q <+: p

instance (p q : Path) : Decidable (Apart p q) := inferInstanceAs (Decidable (_ ∧ _))

/-- Whatever has something below is a directory. -/
def Closed (t : Files β) : Prop := ∀ p q, q ≠ [] → t (p ++ q) ≠ none → t p = some .dir

/-! ## Operations -/

/-- Does the path name something? -/
def present (t : Files β) (p : Path) : Bool := (t p).isSome

/-- Does it name a file? -/
def isFile (t : Files β) (p : Path) : Bool :=
  match t p with
  | some (.file _) => true
  | _ => false

/-- Does it name a directory? -/
def isDir (t : Files β) (p : Path) : Bool :=
  match t p with
  | some .dir => true
  | _ => false

/-- Make a directory and those above it, where they are missing. -/
def mkdirs (t : Files β) (p : Path) : Option (Files β) :=
  if p.inits.any (isFile t) then none
  else some fun x => if x <+: p ∧ present t x = false then some .dir else t x

/-- Rename, over a file if need be. -/
def replace (t : Files β) (src dst : Path) : Option (Files β) :=
  if present t src = false ∨ isDir t dst.dropLast = false ∨ isDir t dst = true ∨
    isDir t src = true ∧ isFile t dst = true then none
  else some fun x => if dst <+: x then t (src ++ x.drop dst.length)
    else if src <+: x then none else t x

/-- Write a file. -/
def write (t : Files β) (p : Path) (bytes : List β) : Option (Files β) :=
  if isDir t p.dropLast = false ∨ isDir t p = true then none
  else some fun x => if x = p then some (.file bytes) else t x

/-- Remove a directory and all below it. -/
def rmtree (t : Files β) (p : Path) : Option (Files β) :=
  if isDir t p = false then none else some fun x => if p <+: x then none else t x

/-! ## Subtrees -/

section Subtrees

variable {t t' : Files β} {p q src dst : Path}

theorem present_iff : present t p = true ↔ t p ≠ none := Option.isSome_iff_ne_none

theorem present_eq_false : present t p = false ↔ t p = none :=
    Option.isSome_eq_false_iff.trans Option.isNone_iff_eq_none

theorem isDir_iff : isDir t p = true ↔ t p = some .dir := by
  unfold isDir
  cases h : t p with
  | none => simp
  | some n => cases n <;> simp

theorem isFile_iff : isFile t p = true ↔ ∃ bytes, t p = some (.file bytes) := by
  unfold isFile
  cases h : t p with
  | none => simp
  | some n => cases n <;> simp

theorem below_nil (t : Files β) (p : Path) : below t p [] = t p := congrArg t (List.append_nil p)

/-- Apart paths have no path below both. -/
theorem Apart.not_below (h : Apart p q) {x : Path} (hp : p <+: x) : ¬ q <+: x := fun hq =>
  (List.prefix_or_prefix_of_prefix hp hq).elim h.1 h.2

theorem Apart.not_prefix (h : Apart p q) (x : Path) : ¬ p <+: q ++ x :=
    fun hp => h.not_below hp (List.prefix_append q x)

theorem Apart.symm (h : Apart p q) : Apart q p := ⟨h.2, h.1⟩

instance : Std.Symm Apart := ⟨fun _ _ h => h.symm⟩

theorem Apart.ne (h : Apart p q) : p ≠ q := by
  rintro rfl
  exact h.1 (List.prefix_refl p)

theorem apart_cons {a b : String} : Apart (a :: p) (b :: q) ↔ a ≠ b ∨ Apart p q := by
  unfold Apart
  rw [List.cons_prefix_cons, List.cons_prefix_cons]
  by_cases h : a = b
  · simp [h]
  · simp [h, Ne.symm h]

theorem below_eq_of {p : Path} (h : ∀ x, p <+: x → t' x = t x) : below t' p = below t p :=
  funext fun q => h _ (List.prefix_append p q)

/-- **Nothing lies below what is absent.** -/
theorem Closed.below_absent (h : Closed t) (hp : t p = none) : below t p = absent := by
  funext q
  rcases eq_or_ne q [] with rfl | hq
  · rw [below_nil, hp]
    rfl
  · by_contra hne
    have hdir := h p q hq hne
    rw [hp] at hdir
    cases hdir

/-- **Nor below a file.** -/
theorem Closed.below_file (h : Closed t) {bytes : List β} (hp : t p = some (.file bytes)) :
    below t p = leaf (.file bytes) := by
  funext q
  unfold leaf
  split_ifs with hq
  · rw [hq, below_nil, hp]
  · by_contra hne
    have hdir := h p q hq hne
    rw [hp] at hdir
    cases hdir

/-- Parents are directories. -/
theorem Closed.dropLast (h : Closed t) (hp : t p ≠ none) (hne : p ≠ []) :
    t p.dropLast = some .dir := by
  refine h p.dropLast [p.getLast hne] (List.cons_ne_nil _ _) ?_
  rw [List.dropLast_append_getLast hne]
  exact hp

/-- The tree of a list of entries. -/
def ofEntries (entries : List (Path × Node β)) : Files β := fun p => entries.lookup p

theorem closed_ofEntries {entries : List (Path × Node β)}
    (h : ∀ e ∈ entries, ∀ x ∈ e.1.inits, x = e.1 ∨ ofEntries entries x = some .dir) :
      Closed (ofEntries entries) := by
  intro p q hq hne
  obtain ⟨n, hn⟩ := Option.ne_none_iff_exists'.mp hne
  obtain ⟨l₁, l₂, heq, -⟩ := List.lookup_eq_some_iff.mp hn
  have hmem : (p ++ q, n) ∈ entries := heq ▸ List.mem_append_right _ List.mem_cons_self
  refine (h _ hmem p ((List.mem_inits _ _).mpr (List.prefix_append p q))).resolve_left
    fun hsame => hq ?_
  exact List.append_cancel_left (hsame.symm.trans (List.append_nil p).symm)

/-! ## What the operations do -/

theorem mkdirs_eq (h : mkdirs t p = some t') : (∀ x, x <+: p → isFile t x = false) ∧
    t' = fun x => if x <+: p ∧ present t x = false then some .dir else t x := by
  unfold mkdirs at h
  split_ifs at h with hany
  refine ⟨fun x hx => ?_, (Option.some.inj h).symm⟩
  simpa using fun hf => hany (List.any_eq_true.mpr ⟨x, (List.mem_inits x p).mpr hx, hf⟩)

theorem mkdirs_isSome (h : ∀ x, x <+: p → isFile t x = false) : ∃ t', mkdirs t p = some t' := by
  unfold mkdirs
  rw [if_neg]
  · exact ⟨_, rfl⟩
  · intro hany
    obtain ⟨x, hx, hf⟩ := List.any_eq_true.mp hany
    rw [h x ((List.mem_inits x p).mp hx)] at hf
    cases hf

/-- **Parents are only added.** -/
theorem mkdirs_grows (h : mkdirs t p = some t') (x : Path) : t' x = t x ∨ t x = none ∧
    t' x = some .dir := by
  obtain ⟨-, rfl⟩ := mkdirs_eq h
  by_cases hx : x <+: p ∧ present t x = false
  · exact Or.inr ⟨present_eq_false.mp hx.2, if_pos hx⟩
  · exact Or.inl (if_neg hx)

/-- The path is a directory now. -/
theorem mkdirs_self (h : mkdirs t p = some t') : t' p = some .dir := by
  obtain ⟨hfile, rfl⟩ := mkdirs_eq h
  have hp := hfile p (List.prefix_refl p)
  dsimp only
  split_ifs with hx
  · rfl
  · cases ht : t p with
    | none => exact absurd ⟨List.prefix_refl p, present_eq_false.mpr ht⟩ hx
    | some n =>
      cases n with
      | dir => rfl
      | file bytes => simp [isFile, ht] at hp

/-- What is not above the new directory stays. -/
theorem mkdirs_apart (h : mkdirs t p = some t') {x : Path} (hx : ¬ x <+: p) : t' x = t x := by
  obtain ⟨-, rfl⟩ := mkdirs_eq h
  exact if_neg fun h => hx h.1

theorem replace_eq_none (hdir : isDir t dst.dropLast = true) (hdst : isDir t dst = false)
    (hkind : isDir t src = false ∨ isFile t dst = false) : replace t src dst = none ↔
      present t src = false := by
  unfold replace
  rw [hdir, hdst]
  rcases hkind with h | h <;> rw [h] <;> simp

theorem replace_eq (h : replace t src dst = some t') :
    t' = fun x => if dst <+: x then t (src ++ x.drop dst.length) else if src <+: x then none
    else t x := by
  unfold replace at h
  split_ifs at h
  exact (Option.some.inj h).symm

/-- **The subtree arrives.** -/
theorem below_replace (h : replace t src dst = some t') : below t' dst = below t src := by
  rw [replace_eq h]
  funext q
  unfold below
  dsimp only
  rw [if_pos (List.prefix_append dst q), List.drop_left]

/-- **Nothing is left where it was.** -/
theorem below_replace_src (h : replace t src dst = some t') (hapart : Apart src dst) :
    below t' src = absent := by
  rw [replace_eq h]
  funext q
  unfold below
  dsimp only
  rw [if_neg (hapart.symm.not_prefix q), if_pos (List.prefix_append src q)]
  rfl

theorem replace_apart (h : replace t src dst = some t') {x : Path} (hsrc : ¬ src <+: x)
    (hdst : ¬ dst <+: x) : t' x = t x := by
  rw [replace_eq h]
  exact (if_neg hdst).trans (if_neg hsrc)

theorem rmtree_eq (h : rmtree t p = some t') : t' = fun x => if p <+: x then none else t x := by
  unfold rmtree at h
  split_ifs at h
  exact (Option.some.inj h).symm

theorem below_rmtree (h : rmtree t p = some t') : below t' p = absent := by
  rw [rmtree_eq h]
  exact funext fun q => if_pos (List.prefix_append p q)

theorem rmtree_apart (h : rmtree t p = some t') {x : Path} (hx : ¬ p <+: x) : t' x = t x := by
  rw [rmtree_eq h]
  exact if_neg hx

theorem write_isSome (bytes : List β) (hdir : isDir t p.dropLast = true) (hp : isDir t p = false) :
    ∃ t', write t p bytes = some t' := by
  unfold write
  rw [hdir, hp]
  exact ⟨_, rfl⟩

theorem write_eq {bytes : List β} (h : write t p bytes = some t') : t' = fun x => if x = p then
    some (.file bytes) else t x := by
  unfold write at h
  split_ifs at h
  exact (Option.some.inj h).symm

/-- **A written file** has nothing below, if there was nothing. -/
theorem below_write {bytes : List β} (h : write t p bytes = some t')
    (hp : ∀ q, q ≠ [] → t (p ++ q) = none) :
    below t' p = leaf (.file bytes) := by
  rw [write_eq h]
  funext q
  unfold below leaf
  dsimp only
  by_cases hq : q = []
  · rw [if_pos hq, hq, List.append_nil, if_pos rfl]
  · rw [if_neg hq, if_neg (by simpa using hq), hp q hq]

theorem write_apart {bytes : List β} (h : write t p bytes = some t') {x : Path} (hx : ¬ p <+: x) :
    t' x = t x := by
  rw [write_eq h]
  refine if_neg ?_
  rintro rfl
  exact hx (List.prefix_refl x)

end Subtrees

end Ringside.FileTree

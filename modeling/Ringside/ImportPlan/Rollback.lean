import Ringside.ImportPlan.Commit

/-!
# When a failed import leaves the repository as it was (`sources/import_plan.py`)

The rollback knows the items that were noted. An error between the move of an owned directory and
its note leaves that directory in the backup; a shared file that was not there before, once moved
in, has no backup that would replace it. After every other error the repository is what it was.

* The operation that raises first is read off the repository before the call, the staged files and
  what raises (`firstRaise`); no part of it runs `commit`. `Restorable` is the condition on that
  operation.
* `Runs` is a small logic of computations that go through their operations up to the first that
  raises: a rule for a sequence, a rule for an operation, and one spec for each function of
  `Commit`.
* `Swapped`, `Undoable` and `undone` are what an item looks like before and after its round of the
  rollback.
* `Atomic` is the promise of the source's docstring: on any failure the repository is left as it
  was. The staging directory is no part of it.

Results:
* `commitDir_spec`, `commitFile_spec`, `commitItem_spec`: one round of a loop, with the operation
  that raises in it.
* `swap_spec`: both loops.
* `undo_spec`, `rollback_spec`: what the rollback leaves of each item that was noted.
* `rollback_restores`: what it makes good.
* `commit_restores_iff`: the errors after which the repository is as it was.
-/

namespace Ringside.ImportPlan

open Ringside.FileTree

variable {β : Type}

/-! ## The operation that raises -/

/-- The items swapped before, the item, and the operation on it. -/
structure Halt where
  before : List (Kind × Path)
  item : Kind × Path
  op : Op

namespace Request

section Halts

variable (r : Request β) (fault : Path → Op → Bool)

/-- Does a file stand where the target's parents should be? -/
def blocked (rel : Path) : Bool := rel.dropLast.inits.any (isFile r.tree)

/-- Does an operation raise, where it is reached? -/
def raises (it : Kind × Path) (op : Op) : Bool :=
  fault it.2 op ||
    match op with
    | .mkTarget => r.blocked it.2
    | .moveIn => !present r.tree (staged r.out it.2)
    | _ => false

/-- The operations on an item, in order. -/
def operations (it : Kind × Path) : List Op :=
  match it.1 with
  | .dir =>
    [.lookTarget] ++ ((if present r.tree it.2 then [.mkBackup, .moveAway] else []) ++
      ([.note] ++ ([.lookStaged] ++
      if present r.tree (staged r.out it.2) then [.mkTarget, .moveIn] else [])))
  | .file =>
    [.lookTarget] ++ ((if present r.tree it.2 then [.mkBackup, .openCopy, .writeCopy]
      else []) ++ ([.note] ++
      [.mkTarget, .moveIn]))

/-- The first operation that raises, from an item on. -/
def firstRaise : List (Kind × Path) → List (Kind × Path) → Option Halt
  | _, [] => none
  | pre, it :: post =>
    match (r.operations it).find? (r.raises fault it) with
    | some op => some ⟨pre, it, op⟩
    | none => firstRaise (pre ++ [it]) post

/-- A directory was moved away and not noted, or a new shared file was moved in. -/
def Halt.Lossy (h : Halt) : Prop :=
  h.item.1 = .dir ∧ h.op = .note ∧ present r.tree h.item.2 = true ∨ ∃ f, (Kind.file, f) ∈ h.before ∧
    present r.tree f = false

/-- No error is raised, or one that the rollback makes good. -/
def Restorable : Prop := ∀ h, r.firstRaise fault [] r.items = some h → ¬ Halt.Lossy r h

/-- What `commit` promises. -/
def Atomic : Prop :=
  match commit r.out fault r.owned r.shared r.tree with
  | .returned t => ∀ rel ∈ r.owned ++ r.shared, below t rel = below r.tree (staged r.out rel)
  | .raised t => ∀ rel ∈ r.owned ++ r.shared, below t rel = below r.tree rel

end Halts

end Request

/-! ## Rules for the operations

A computation in the model is a state with the error that stopped it. `Runs` says that it goes
through the operations of a list: where none of them raises, its end satisfies one assertion, and
where one does, the state it stopped in satisfies another one, for that operation. The rules are
those of a sequence and of an operation on the tree.
-/

section Rules

variable {σ : Type} {R : Op → Bool} {a b : List Op} {m : Except σ σ} {k : σ → Except σ σ}
    {Ok Ok' : σ → Prop} {Bad : Op → σ → Prop}

/-- A computation goes through its operations up to the first that raises. -/
def Runs (ops : List Op) (R : Op → Bool) (m : Except σ σ) (Ok : σ → Prop)
    (Bad : Op → σ → Prop) : Prop :=
  match ops.find? R with
  | none => ∃ s, m = .ok s ∧ Ok s
  | some op => ∃ s, m = .error s ∧ Bad op s

theorem Runs.pure {s : σ} (h : Ok s) : Runs [] R (.ok s) Ok Bad := ⟨s, rfl, h⟩

/-- **The sequence rule.** -/
theorem Runs.seq (h : Runs a R m Ok Bad) (h' : ∀ s, Ok s → Runs b R (k s) Ok' Bad) :
    Runs (a ++ b) R (m >>= k) Ok' Bad := by
  unfold Runs at *
  rw [List.find?_append]
  cases hfind : a.find? R with
  | none =>
    rw [hfind] at h
    obtain ⟨s, rfl, hs⟩ := h
    exact h' s hs
  | some op =>
    rw [hfind] at h
    obtain ⟨s, rfl, hs⟩ := h
    exact ⟨s, rfl, hs⟩

theorem Runs.one {op : Op} {s : σ} (hok : R op = false → ∃ s', m = .ok s' ∧ Ok s')
    (hbad : R op = true → m = .error s ∧ Bad op s) :
    Runs [op] R m Ok Bad := by
  unfold Runs
  rw [List.find?_cons, List.find?_nil]
  cases hR : R op with
  | true => exact ⟨s, hbad hR⟩
  | false => exact hok hR

/-- **The rule of an operation on the tree.** -/
theorem Runs.attempt {R : Op → Bool} {Ok : State β → Prop} {Bad : Op → State β → Prop}
    {fault : Path → Op → Bool} {rel : Path} {op : Op} {f : Files β → Option (Files β)} {s : State β}
    (hR : R op = true ↔ fault rel op = true ∨ f s.tree = none)
    (hok : ∀ t, f s.tree = some t → Ok { s with tree := t }) (hbad : Bad op s) :
    Runs [op] R (ImportPlan.attempt fault rel op f s) Ok Bad := by
  unfold ImportPlan.attempt
  refine Runs.one (s := s) (fun h => ?_) fun h => ⟨?_, hbad⟩
  · have hnot := mt hR.mpr (by rw [h]; exact Bool.false_ne_true)
    obtain ⟨t, ht⟩ := Option.ne_none_iff_exists'.mp fun hnone => hnot (Or.inr hnone)
    rw [if_neg fun hf => hnot (Or.inl hf), ht]
    exact ⟨_, rfl, hok t ht⟩
  · rcases hR.mp h with hf | hf
    · rw [if_pos hf]
    · rw [hf]
      split_ifs <;> rfl

end Rules

/-! ## The state at an item

The items lie apart, so an operation on one of them changes the slots of no other. `At` says what is
in the three places of the current item, that the items before it are swapped, and that those behind
it are as they were.
-/

namespace Request

variable {r : Request β}

section Slots

variable {t t' : Files β} {rel rel' : Path} {pl pl' : Place}

theorem slot_nil (t : Files β) (pl : Place) (rel : Path) :
    r.slot t pl rel [] = t (r.path pl rel) := below_nil _ _

variable (pl pl') in
/-- Equal slots have equal roots. -/
theorem root_eq (h : r.slot t pl rel = r.slot t' pl' rel') :
    t (r.path pl rel) = t' (r.path pl' rel') := by
  have hroot := congrFun h []
  rwa [slot_nil, slot_nil] at hroot

theorem root_absent (h : r.slot t pl rel = absent) : t (r.path pl rel) = none := by
  have hroot := congrFun h []
  rwa [slot_nil] at hroot

theorem slot_absent (h : r.tree (r.path pl rel) = none) : r.slot r.tree pl rel = absent :=
    r.closed.below_absent h

/-- **No item has a backup before.** -/
theorem slot_backup (h : rel ∈ r.rels) : r.slot r.tree .backup rel = absent := by
  refine slot_absent ?_
  by_contra hne
  obtain ⟨a, q, rfl, -, -⟩ := rel_cases h
  have hdir := r.closed [r.out, ".previous"] (a :: q) (List.cons_ne_nil _ _) hne
  rw [r.fresh] at hdir
  cases hdir

/-- No file stands above a backup. -/
theorem not_file_above {x : Path} (hx : x <+: r.path .backup rel) : isFile r.tree x = false := by
  unfold isFile
  rcases x with - | ⟨a, - | ⟨b, x⟩⟩
  · rw [r.closed [] [r.out] (List.cons_ne_nil _ _) (by simp [r.out_dir])]
  · obtain ⟨rfl, -⟩ := List.cons_prefix_cons.mp hx
    rw [r.out_dir]
  · obtain rfl := (List.cons_prefix_cons.mp hx).1
    obtain ⟨rfl, -⟩ := List.cons_prefix_cons.mp (List.cons_prefix_cons.mp hx).2
    have hnone := congrFun (r.closed.below_absent r.fresh) x
    change r.tree (r.out :: ".previous" :: x) = none at hnone
    rw [hnone]

end Slots

/-- An item was swapped: the staged tree is there, and the former one in the backup. -/
structure Swapped (r : Request β) (t : Files β) (rel : Path) : Prop where
  target : r.slot t .target rel = r.slot r.tree .staged rel
  staged : r.slot t .staged rel = absent
  backup : r.slot t .backup rel = r.slot r.tree .target rel

/-- The state while the loops are at `it`, with what is at the item's places. -/
structure At (r : Request β) (pre : List (Kind × Path)) (it : Kind × Path)
    (post : List (Kind × Path)) (noted : Bool)
    (T S B : Files β) (s : State β) : Prop where
  done : s.done = if noted then pre ++ [it] else pre
  target : r.slot s.tree .target it.2 = T
  staged : r.slot s.tree .staged it.2 = S
  backup : r.slot s.tree .backup it.2 = B
  swapped : ∀ it' ∈ pre, r.Swapped s.tree it'.2
  rest : ∀ it' ∈ post, ∀ pl, r.slot s.tree pl it'.2 = r.slot r.tree pl it'.2
  grown : ∀ x, Parent r x → s.tree x = r.tree x ∨ r.tree x = none ∧ s.tree x = some .dir

section AtItem

variable {pre post : List (Kind × Path)} {it : Kind × Path} {rel : Path} {noted : Bool}
    {T S B T' S' B' : Files β} {s : State β} {t : Files β}

theorem mem_of_items (h : r.items = pre ++ it :: post) : it.2 ∈ r.rels :=
  mem_rels (h ▸ List.mem_append_right _ List.mem_cons_self)

/-- The other items have other paths. -/
theorem other_rels (h : r.items = pre ++ it :: post) {it' : Kind × Path}
    (h' : it' ∈ pre ∨ it' ∈ post) :
    it'.2 ∈ r.rels ∧ it'.2 ≠ it.2 := by
  have hnodup := items_nodup (r := r)
  rw [h, List.map_append, List.map_cons, List.nodup_append] at hnodup
  obtain ⟨-, hpost, hapart⟩ := hnodup
  rcases h' with h' | h'
  · exact ⟨mem_rels (h ▸ List.mem_append_left _ h'),
      hapart _ (List.mem_map_of_mem h') _ List.mem_cons_self⟩
  · refine ⟨mem_rels (h ▸ List.mem_append_right _ (List.mem_cons_of_mem _ h')), fun heq => ?_⟩
    exact (List.nodup_cons.mp hpost).1 (heq ▸ List.mem_map_of_mem h')

/-- **An operation on the item** changes its places only. -/
theorem At.only (hitems : r.items = pre ++ it :: post) (h : r.At pre it post noted T S B s)
    (honly : Only r it.2 s.tree t) (hT : r.slot t .target it.2 = T')
    (hS : r.slot t .staged it.2 = S') (hB : r.slot t .backup it.2 = B') :
    r.At pre it post noted T' S' B' { s with tree := t } where
  done := h.done
  target := hT
  staged := hS
  backup := hB
  swapped := fun it' hmem => by
    obtain ⟨hrel, hne⟩ := other_rels hitems (Or.inl hmem)
    obtain ⟨htarget, hstaged, hbackup⟩ := h.swapped it' hmem
    exact ⟨(honly.others _ hrel hne _).trans htarget, (honly.others _ hrel hne _).trans hstaged,
      (honly.others _ hrel hne _).trans hbackup⟩
  rest := fun it' hmem pl => by
    obtain ⟨hrel, hne⟩ := other_rels hitems (Or.inr hmem)
    exact (honly.others _ hrel hne pl).trans (h.rest it' hmem pl)
  grown := by
    intro x hx
    rcases honly.grown x hx with heq | ⟨hnone, hdir⟩
    · dsimp only
      rw [heq]
      exact h.grown x hx
    · rcases h.grown x hx with heq' | ⟨-, hdir'⟩
      · exact Or.inr ⟨heq' ▸ hnone, hdir⟩
      · rw [hnone] at hdir'
        cases hdir'

/-- **Parents of a place** are made, unless a file stands in their place. -/
theorem At.mkdirs (hitems : r.items = pre ++ it :: post)
    (h : r.At pre it post noted T S B s) (pl : Place)
    (hmk : mkdirs s.tree (r.path pl it.2).dropLast = some t) :
    r.At pre it post noted T S B { s with tree := t } ∧
      isDir t (r.path pl it.2).dropLast = true := by
  have hrel := mem_of_items hitems
  have hparent : Parent r (r.path pl it.2).dropLast := parent_path hrel pl
  refine ⟨h.only hitems (only_mkdirs hparent hmk) ?_ ?_ ?_, isDir_iff.mpr (mkdirs_self hmk)⟩
  · rw [slot_mkdirs hparent hmk hrel, h.target]
  · rw [slot_mkdirs hparent hmk hrel, h.staged]
  · rw [slot_mkdirs hparent hmk hrel, h.backup]

/-- Nothing is in the way of a backup. -/
theorem At.mkdirs_backup (hitems : r.items = pre ++ it :: post)
    (h : r.At pre it post noted T S B s) :
    ∃ t, FileTree.mkdirs s.tree (r.path .backup it.2).dropLast = some t := by
  have hrel := mem_of_items hitems
  refine mkdirs_isSome fun x hx => ?_
  have hinit := not_file_above (r := r) (hx.trans (List.dropLast_prefix _))
  unfold isFile
  rcases h.grown x ⟨it.2, hrel, .backup, hx⟩ with heq | ⟨-, hdir⟩
  · rw [heq]
    exact hinit
  · rw [hdir]

/-- What is in the way of a target was there before. -/
theorem At.mkdirs_target (hitems : r.items = pre ++ it :: post)
    (h : r.At pre it post noted T S B s) :
    FileTree.mkdirs s.tree it.2.dropLast = none ↔ r.blocked it.2 = true := by
  have hfile : ∀ x, x <+: it.2.dropLast → isFile s.tree x = isFile r.tree x := by
    intro x hx
    unfold isFile
    rcases h.grown x ⟨it.2, mem_of_items hitems, .target, hx⟩ with heq | ⟨hnone, hdir⟩
    · rw [heq]
    · rw [hnone, hdir]
  unfold FileTree.mkdirs blocked
  have hany : it.2.dropLast.inits.any (isFile s.tree) =
    it.2.dropLast.inits.any (isFile r.tree) := by
    rw [Bool.eq_iff_iff, List.any_eq_true, List.any_eq_true]
    exact exists_congr fun x => and_congr_right fun hx => by
      rw [hfile x ((List.mem_inits x _).mp hx)]
  rw [hany]
  simp

/-- **A move between two places**, where the parents are there. -/
theorem only_move (hitems : r.items = pre ++ it :: post) (src dst : Place) (hne : src ≠ dst)
    {t₀ : Files β}
    (hmove : FileTree.replace t₀ (r.path src it.2) (r.path dst it.2) = some t) (pl : Place) :
    Only r it.2 t₀ t ∧ r.slot t pl it.2 =
      if pl = dst then r.slot t₀ src it.2 else if pl = src then absent else r.slot t₀ pl it.2 := by
  have hrel := mem_of_items hitems
  refine ⟨only_replace hrel src dst hmove, ?_⟩
  split_ifs with hdst hsrc
  · subst hdst
    exact below_replace hmove
  · subst hsrc
    exact below_replace_src hmove (path_apart hrel hrel fun heq => hne (congrArg Prod.fst heq))
  · exact slot_replace_other hrel hmove hsrc hdst

theorem At.noteItem (h : r.At pre it post false T S B s) :
    r.At pre it post true T S B { s with done := s.done ++ [it] } where
  done := congrArg (· ++ [it]) h.done
  target := h.target
  staged := h.staged
  backup := h.backup
  swapped := h.swapped
  rest := h.rest
  grown := h.grown

/-- How a round ends that an error cut short. -/
inductive Stuck (r : Request β) (pre : List (Kind × Path)) (it : Kind × Path)
    (post : List (Kind × Path)) :
    Op → State β → Prop
  | before {S B : Files β} {s : State β} {op : Op} (hop : it.1 = .file ∨ op ≠ .note)
      (at_ : r.At pre it post false (r.slot r.tree .target it.2) S B s) :
    Stuck r pre it post op s
  | between {S B : Files β} {s : State β} (hdir : it.1 = .dir)
      (at_ : r.At pre it post false absent S B s) : Stuck r pre it post .note s
  | after {S : Files β} {s : State β} {op : Op} (hop : it.1 = .file ∨ op ≠ .note)
    (at_ : r.At pre it post true (if it.1 = .dir then absent else r.slot r.tree .target it.2) S
      (r.slot r.tree .target it.2) s) :
    Stuck r pre it post op s

/-- The rules of an operation that raises when told to, and of one that only looks. -/
theorem raises_of {fault : Path → Op → Bool} {op : Op} (h : op ≠ .mkTarget ∧ op ≠ .moveIn) :
    r.raises fault it op = fault it.2 op := by
  unfold raises
  cases op <;> simp_all

theorem runs_look {fault : Path → Op → Bool} {op : Op} {Ok : State β → Prop}
    {Bad : Op → State β → Prop}
    (hop : op ≠ .mkTarget ∧ op ≠ .moveIn) (hok : Ok s) (hbad : Bad op s) :
    Runs [op] (r.raises fault it) (attempt fault it.2 op some s) Ok Bad :=
  .attempt (by rw [raises_of hop]; simp) (fun _ ht => by cases ht; exact hok) hbad

/-- A directory of the owned list and the names of its places. -/
theorem mem_owned (h : (Kind.dir, rel) ∈ r.items) : rel ∈ r.owned := by
  unfold items ImportPlan.items at h
  rcases List.mem_append.mp h with h | h
  · obtain ⟨d, hd, heq⟩ := List.mem_map.mp h
    cases heq
    exact hd
  · obtain ⟨f, -, heq⟩ := List.mem_map.mp h
    cases heq

theorem mem_shared (h : (Kind.file, rel) ∈ r.items) : rel ∈ r.shared := by
  unfold items ImportPlan.items at h
  rcases List.mem_append.mp h with h | h
  · obtain ⟨d, -, heq⟩ := List.mem_map.mp h
    cases heq
  · obtain ⟨f, hf, heq⟩ := List.mem_map.mp h
    cases heq
    exact hf

/-- **Moving the staged tree in**, where nothing but a file stands at the target. -/
theorem moveIn_spec (hitems : r.items = pre ++ it :: post) (fault : Path → Op → Bool)
    {T B : Files β}
    (h : r.At pre it post true T (r.slot r.tree .staged it.2) B s) (hT : isDir s.tree it.2 = false)
    (hkind : isDir r.tree (staged r.out it.2) = false ∨ isFile s.tree it.2 = false)
      {Bad : Op → State β → Prop}
    (hbad : ∀ op s', op ≠ .note → r.At pre it post true T (r.slot r.tree .staged it.2) B
      s' → Bad op s') :
    Runs [.mkTarget, .moveIn] (r.raises fault it) (moveIn r.out fault it.2 s)
      (r.At pre it post true (r.slot r.tree .staged it.2) absent B) Bad := by
  have hmk : Runs [.mkTarget] (r.raises fault it)
    (attempt fault it.2 .mkTarget (FileTree.mkdirs · it.2.dropLast) s)
      (fun s' => r.At pre it post true T (r.slot r.tree .staged it.2) B s' ∧
        isDir s'.tree it.2.dropLast = true ∧
        s'.tree it.2 = s.tree it.2) Bad := by
    refine .attempt ?_ (fun t ht => ?_) (hbad _ _ (by decide) h)
    · rw [h.mkdirs_target hitems]
      simp [raises]
    · obtain ⟨hat, hdir⟩ := h.mkdirs hitems .target ht
      exact ⟨hat, hdir, root_eq .target .target (hat.target.trans h.target.symm)⟩
  refine hmk.seq fun s' hs' => ?_
  obtain ⟨hat, hdir, hroot⟩ := hs'
  have hT' : isDir s'.tree it.2 = false := by
    unfold isDir
    rw [hroot]
    exact hT
  have hstaged : s'.tree (staged r.out it.2) = r.tree (staged r.out it.2) :=
    root_eq .staged .staged hat.staged
  refine .attempt ?_ (fun t ht => ?_) (hbad _ _ (by decide) hat)
  · rw [replace_eq_none hdir hT']
    · unfold raises present
      simp [hstaged]
    · refine hkind.imp (fun hk => ?_) fun hk => ?_
      · unfold isDir
        rw [hstaged]
        exact hk
      · unfold isFile
        rw [hroot]
        exact hk
  · have hmove := only_move hitems .staged .target (by decide) ht
    refine hat.only hitems (hmove .target).1 ?_ ?_ ?_
    · rw [(hmove .target).2, if_pos rfl, hat.staged]
    · rw [(hmove .staged).2, if_neg (by decide), if_pos rfl]
    · rw [(hmove .backup).2, if_neg (by decide), if_neg (by decide), hat.backup]

end AtItem

/-! ## One round of a loop

`commit` swaps the owned directories first and the shared files after them. A directory is moved
away, noted, and its successor moved in. A file is copied away, noted, and replaced, so its target
changes only behind the note. The order of the note and the first change is the difference that the
result is about.
-/

section Rounds

variable {pre post : List (Kind × Path)} {fault : Path → Op → Bool} {rel : Path} {s : State β}

/-- What the loops find at an item. -/
abbrev Start (r : Request β) (pre : List (Kind × Path)) (it : Kind × Path)
    (post : List (Kind × Path)) : State β → Prop :=
  r.At pre it post false (r.slot r.tree .target it.2) (r.slot r.tree .staged it.2) absent

/-- And what they leave. -/
abbrev Finish (r : Request β) (pre : List (Kind × Path)) (it : Kind × Path)
    (post : List (Kind × Path)) : State β → Prop :=
  r.At pre it post true (r.slot r.tree .staged it.2) absent (r.slot r.tree .target it.2)

/-- Parents of a backup are made unless told to raise. -/
theorem mkBackup_spec {it : Kind × Path} (hitems : r.items = pre ++ it :: post)
    (h : r.Start pre it post s) :
    Runs [.mkBackup] (r.raises fault it) (attempt fault it.2 .mkBackup
      (FileTree.mkdirs · (backup r.out it.2).dropLast) s)
      (fun s' => r.Start pre it post s' ∧ isDir s'.tree (backup r.out it.2).dropLast = true)
        (r.Stuck pre it post) := by
  refine .attempt ?_ (fun t ht => h.mkdirs hitems .backup ht) (.before (Or.inr (by decide)) h)
  obtain ⟨t, ht⟩ := h.mkdirs_backup hitems
  rw [raises_of (by decide)]
  change _ ↔ _ ∨ FileTree.mkdirs s.tree (r.path .backup it.2).dropLast = none
  rw [ht]
  simp

/-- **The former directory is in the backup**, and nothing at the target. -/
theorem moveAway_spec (hitems : r.items = pre ++ (.dir, rel) :: post)
    (h : r.Start pre (.dir, rel) post s) :
    Runs (if present r.tree rel then [.mkBackup, .moveAway] else []) (r.raises fault (.dir, rel))
      (moveAway r.out fault rel s)
      (r.At pre (.dir, rel) post false absent (r.slot r.tree .staged rel)
        (r.slot r.tree .target rel))
      (r.Stuck pre (.dir, rel) post) := by
  have hroot : s.tree rel = r.tree rel := root_eq .target .target h.target
  have hpres : present s.tree rel = present r.tree rel := congrArg Option.isSome hroot
  unfold moveAway
  rw [hpres]
  by_cases hp : present r.tree rel = true
  · rw [if_pos hp, if_pos hp]
    refine (mkBackup_spec hitems h).seq (b := [.moveAway]) fun s h => ?_
    obtain ⟨h, hdir⟩ := h
    have hroot : s.tree rel = r.tree rel := root_eq .target .target h.target
    have hbackup : s.tree (backup r.out rel) = none := root_absent h.backup
    refine .attempt ?_ (fun t ht => ?_) (.before (Or.inr (by decide)) h)
    · rw [raises_of (by decide), replace_eq_none hdir (by unfold isDir; rw [hbackup])
        (Or.inr (by unfold isFile; rw [hbackup]))]
      unfold present at hp ⊢
      rw [hroot, hp]
      simp
    · have hmove := only_move hitems .target .backup (by decide) ht
      refine h.only hitems (hmove .target).1 ?_ ?_ ?_
      · rw [(hmove .target).2, if_neg (by decide), if_pos rfl]
      · rw [(hmove .staged).2, if_neg (by decide), if_neg (by decide), h.staged]
      · rw [(hmove .backup).2, if_pos rfl, h.target]
  · have hnone : r.slot r.tree .target rel = absent :=
      slot_absent (present_eq_false.mp (Bool.eq_false_of_not_eq_true hp))
    rw [if_neg hp, if_neg hp]
    unfold Start at h
    rw [hnone] at h ⊢
    exact .pure h

/-- The note of an item. -/
theorem note_spec {it : Kind × Path} {T S B : Files β} {Bad : Op → State β → Prop}
    (h : r.At pre it post false T S B s)
    (hbad : Bad .note s) : Runs [.note] (r.raises fault it) (note fault it.1 it.2 s)
      (r.At pre it post true T S B) Bad := by
  unfold note
  refine .one (s := s) (fun hR => ?_) fun hR => ?_
  · rw [raises_of (by decide)] at hR
    exact ⟨_, if_neg (by simp [hR]), h.noteItem⟩
  · rw [raises_of (by decide)] at hR
    exact ⟨if_pos hR, hbad⟩

/-- **The round of an owned directory.** -/
theorem commitDir_spec (hitems : r.items = pre ++ (.dir, rel) :: post)
    (h : r.Start pre (.dir, rel) post s) :
    Runs (r.operations (.dir, rel)) (r.raises fault (.dir, rel)) (commitDir r.out fault rel s)
      (r.Finish pre (.dir, rel) post)
      (r.Stuck pre (.dir, rel) post) := by
  refine (runs_look (by decide) h (.before (Or.inr (by decide)) h)).seq fun s h => ?_
  refine (moveAway_spec hitems h).seq fun s h => ?_
  refine (note_spec h (.between rfl h)).seq fun s h => ?_
  have hafter : ∀ op s', op ≠ .note → r.At pre (.dir, rel) post true absent
    (r.slot r.tree .staged rel)
      (r.slot r.tree .target rel) s' → r.Stuck pre (.dir, rel) post op s' := fun op s' hop hat =>
        .after (Or.inr hop) hat
  refine (runs_look (by decide) h (hafter _ _ (by decide) h)).seq fun s h => ?_
  have hpres : present s.tree (staged r.out rel) = present r.tree (staged r.out rel) :=
    congrArg Option.isSome (root_eq .staged .staged h.staged)
  have htarget : s.tree rel = none := root_absent h.target
  rw [hpres]
  by_cases hp : present r.tree (staged r.out rel) = true
  · rw [if_pos hp, if_pos hp]
    exact moveIn_spec hitems fault h (by unfold isDir; rw [htarget])
      (Or.inr (by unfold isFile; rw [htarget])) hafter
  · have hnone : r.slot r.tree .staged rel = absent :=
      slot_absent (present_eq_false.mp (Bool.eq_false_of_not_eq_true hp))
    rw [if_neg hp, if_neg hp]
    unfold Finish
    rw [hnone] at h ⊢
    exact .pure h

/-- A write to the backup changes nothing else. -/
theorem At.writeBackup {it : Kind × Path} {noted : Bool} {T S B : Files β} {t : Files β}
    {bytes : List β} (hitems : r.items = pre ++ it :: post) (h : r.At pre it post noted T S B s)
    (hB : ∀ q, q ≠ [] → B q = none) (hw : write s.tree (r.path .backup it.2) bytes = some t) :
    r.At pre it post noted T S (leaf (.file bytes)) { s with tree := t } ∧
      t (r.path .backup it.2).dropLast = s.tree (r.path .backup it.2).dropLast := by
  have hrel := mem_of_items hitems
  have hparent : Parent r (r.path .backup it.2).dropLast := parent_path hrel .backup
  have hother : ∀ pl, pl ≠ .backup → r.slot t pl it.2 = r.slot s.tree pl it.2 := fun pl hne =>
    below_eq_of fun _ hx =>
    write_apart hw ((path_apart hrel hrel fun heq => hne (congrArg Prod.fst heq)).not_below hx)
  refine ⟨h.only hitems (only_of hrel fun x hx => write_apart hw (hx .backup)) ?_ ?_ ?_,
    write_apart hw ?_⟩
  · rw [hother _ (by decide), h.target]
  · rw [hother _ (by decide), h.staged]
  · refine below_write hw fun q hq => ?_
    have hnone := congrFun h.backup q
    rw [hB q hq] at hnone
    exact hnone
  · exact hparent.not_below hrel .backup

/-- **The former file is also in the backup.** -/
theorem copyAway_spec (hitems : r.items = pre ++ (.file, rel) :: post)
    (h : r.Start pre (.file, rel) post s) :
    Runs (if present r.tree rel then [.mkBackup, .openCopy, .writeCopy] else [])
      (r.raises fault (.file, rel))
      (copyAway r.out fault rel s)
      (r.At pre (.file, rel) post false (r.slot r.tree .target rel) (r.slot r.tree .staged rel)
        (r.slot r.tree .target rel))
      (r.Stuck pre (.file, rel) post) := by
  have hmem : (Kind.file, rel) ∈ r.items := hitems ▸ List.mem_append_right _ List.mem_cons_self
  have hfile := (r.shared_file rel (mem_shared hmem)).1
  have hroot : s.tree rel = r.tree rel := root_eq .target .target h.target
  have hpres : present s.tree rel = present r.tree rel := congrArg Option.isSome hroot
  unfold copyAway
  rw [hpres]
  by_cases hp : present r.tree rel = true
  · rw [if_pos hp, if_pos hp]
    obtain ⟨bytes, hbytes⟩ : ∃ bytes, r.tree rel = some (.file bytes) := by
      obtain ⟨n, hn⟩ := Option.isSome_iff_exists.mp hp
      cases n with
      | dir =>
        rw [isDir_iff.mpr hn] at hfile
        cases hfile
      | file bytes => exact ⟨bytes, hn⟩
    refine (mkBackup_spec hitems h).seq (b := [.openCopy, .writeCopy]) fun s h => ?_
    obtain ⟨h, hdir⟩ := h
    have hopen : Runs [.openCopy] (r.raises fault (.file, rel))
      (attempt fault rel .openCopy (write · (backup r.out rel) []) s)
        (fun s' => r.At pre (.file, rel) post false (r.slot r.tree .target rel)
          (r.slot r.tree .staged rel) (leaf (.file [])) s' ∧
          isDir s'.tree (backup r.out rel).dropLast = true) (r.Stuck pre (.file, rel) post) := by
      refine .attempt ?_ (fun t ht => ?_) (.before (Or.inl rfl) h)
      · have hbackup : s.tree (backup r.out rel) = none := root_absent h.backup
        obtain ⟨t, ht⟩ := write_isSome [] hdir (by unfold isDir; rw [hbackup])
        rw [raises_of (by decide), ht]
        simp
      · obtain ⟨hat, hparent⟩ := h.writeBackup hitems (fun _ _ => rfl) ht
        exact ⟨hat, isDir_iff.mpr (hparent.trans (isDir_iff.mp hdir))⟩
    refine hopen.seq (b := [.writeCopy]) fun s h => ?_
    obtain ⟨h, hdir⟩ := h
    have hleaf : ∀ q : Path, q ≠ [] → leaf (.file ([] : List β)) q = none := fun q hq => if_neg hq
    have hbackup : s.tree (backup r.out rel) = some (.file []) := by
      have hb := congrFun h.backup []
      rwa [slot_nil] at hb
    have hcopy : copyTo s.tree rel (backup r.out rel) = write s.tree (backup r.out rel) bytes := by
      unfold copyTo
      rw [show s.tree rel = some (.file bytes) from (root_eq .target .target h.target).trans hbytes]
    refine .attempt ?_ (fun t ht => ?_) (.before (Or.inl rfl) h)
    · obtain ⟨t, ht⟩ := write_isSome bytes hdir (by unfold isDir; rw [hbackup])
      rw [raises_of (by decide), hcopy, ht]
      simp
    · rw [hcopy] at ht
      have hslot : r.slot r.tree .target rel = leaf (.file bytes) := r.closed.below_file hbytes
      have hat := (h.writeBackup hitems hleaf ht).1
      rw [hslot] at hat ⊢
      exact hat
  · have hnone : r.slot r.tree .target rel = absent :=
      slot_absent (present_eq_false.mp (Bool.eq_false_of_not_eq_true hp))
    rw [if_neg hp, if_neg hp]
    unfold Start at h
    rw [hnone] at h ⊢
    exact .pure h

/-- **The round of a shared file.** -/
theorem commitFile_spec (hitems : r.items = pre ++ (.file, rel) :: post)
    (h : r.Start pre (.file, rel) post s) :
    Runs (r.operations (.file, rel)) (r.raises fault (.file, rel)) (commitFile r.out fault rel s)
      (r.Finish pre (.file, rel) post)
      (r.Stuck pre (.file, rel) post) := by
  have hmem : (Kind.file, rel) ∈ r.items := hitems ▸ List.mem_append_right _ List.mem_cons_self
  have hfile := r.shared_file rel (mem_shared hmem)
  refine (runs_look (by decide) h (.before (Or.inl rfl) h)).seq fun s h => ?_
  refine (copyAway_spec hitems h).seq fun s h => ?_
  refine (note_spec h (.before (Or.inl rfl) h)).seq fun s h => ?_
  have hroot : s.tree rel = r.tree rel := root_eq .target .target h.target
  exact moveIn_spec hitems fault h (by unfold isDir; rw [hroot]; exact hfile.1) (Or.inl hfile.2)
    fun op s' _ hat =>
    .after (Or.inl rfl) hat

/-- **One round of either loop.** -/
theorem commitItem_spec {it : Kind × Path} (hitems : r.items = pre ++ it :: post)
    (h : r.Start pre it post s) :
    Runs (r.operations it) (r.raises fault it) (commitItem r.out fault it s) (r.Finish pre it post)
      (r.Stuck pre it post) := by
  obtain ⟨kind, rel⟩ := it
  cases kind with
  | dir => exact commitDir_spec hitems h
  | file => exact commitFile_spec hitems h

end Rounds

/-! ## Both loops -/

section Loops

variable {pre post : List (Kind × Path)} {fault : Path → Op → Bool} {s : State β}

/-- The items of `pre` were swapped, and those of `post` are as they were. -/
structure Inv (r : Request β) (pre post : List (Kind × Path)) (s : State β) : Prop where
  done : s.done = pre
  swapped : ∀ it ∈ pre, r.Swapped s.tree it.2
  rest : ∀ it ∈ post, ∀ pl, r.slot s.tree pl it.2 = r.slot r.tree pl it.2
  grown : ∀ x, Parent r x → s.tree x = r.tree x ∨ r.tree x = none ∧ s.tree x = some .dir

theorem Inv.start {it : Kind × Path} (hitems : r.items = pre ++ it :: post)
    (h : r.Inv pre (it :: post) s) : r.Start pre it post s where
  done := h.done
  target := h.rest it List.mem_cons_self .target
  staged := h.rest it List.mem_cons_self .staged
  backup := (h.rest it List.mem_cons_self .backup).trans (slot_backup (mem_of_items hitems))
  swapped := h.swapped
  rest := fun it' hmem => h.rest it' (List.mem_cons_of_mem _ hmem)
  grown := h.grown

theorem At.inv {it : Kind × Path} (h : r.Finish pre it post s) : r.Inv (pre ++ [it]) post s where
  done := h.done
  swapped := fun it' hmem => by
    rcases List.mem_append.mp hmem with hmem | hmem
    · exact h.swapped it' hmem
    · rw [List.mem_singleton.mp hmem]
      exact ⟨h.target, h.staged, h.backup⟩
  rest := h.rest
  grown := h.grown

/-- No operation on the item raises. -/
def Passes (r : Request β) (fault : Path → Op → Bool) (it : Kind × Path) : Prop :=
  (r.operations it).find? (r.raises fault it) = none

variable (fault) in
/-- **Both loops**: they go on up to the first operation that raises. -/
theorem swap_spec : ∀ (post pre : List (Kind × Path)) {s : State β}, r.items = pre ++ post →
    r.Inv pre post s →
    (∀ it ∈ pre, r.Passes fault it) →
    match r.firstRaise fault pre post with
    | none => ∃ s', swap r.out fault post s = .ok s' ∧ r.Inv r.items [] s'
    | some h =>
      ∃ s' post', swap r.out fault post s = .error s' ∧ r.items = h.before ++ h.item :: post' ∧
        (∀ it ∈ h.before, r.Passes fault it) ∧ r.Stuck h.before h.item post' h.op s'
  | [], pre, s, hitems, hinv, _ => ⟨s, rfl, by rw [hitems, List.append_nil]; exact hinv⟩
  | it :: post, pre, s, hitems, hinv, hpass => by
    have hround : Runs _ (r.raises fault it) _ _ _ := commitItem_spec hitems (hinv.start hitems)
    unfold Runs at hround
    unfold firstRaise swap
    cases hfind : (r.operations it).find? (r.raises fault it) with
    | some op =>
      rw [hfind] at hround
      obtain ⟨s', hs', hstuck⟩ := hround
      exact ⟨s', post, by rw [hs']; rfl, hitems, hpass, hstuck⟩
    | none =>
      rw [hfind] at hround
      obtain ⟨s', hs', hfinish⟩ := hround
      rw [hs']
      refine swap_spec post (pre ++ [it]) (by rw [hitems, List.append_assoc]; rfl) (At.inv hfinish)
        fun it' hmem => ?_
      rcases List.mem_append.mp hmem with hmem | hmem
      · exact hpass it' hmem
      · rw [List.mem_singleton.mp hmem]
        exact hfind

/-- A file was staged where its round was gone through. -/
theorem staged_of_passes {f : Path} (h : r.Passes fault (.file, f)) :
    present r.tree (staged r.out f) = true := by
  have hmem : Op.moveIn ∈ r.operations (.file, f) := by
    unfold operations
    simp
  have hraises := List.find?_eq_none.mp h _ hmem
  unfold raises at hraises
  simp only [Bool.or_eq_true, not_or, Bool.not_eq_true, Bool.not_eq_false'] at hraises
  exact hraises.2

end Loops

/-! ## The rollback

The items that were noted are undone from the last to the first. A round removes what is at the
target of a directory and moves its backup back; of a file it moves the backup back, where there is
one. `undone` is what the target holds afterwards.
-/

section Undo

variable {it : Kind × Path} {t : Files β}

/-- What an item must look like for its round of the rollback. -/
structure Undoable (r : Request β) (t : Files β) (it : Kind × Path) : Prop where
  backup : r.slot t .backup it.2 = r.slot r.tree .target it.2
  dir : it.1 = .dir → r.slot t .target it.2 = absent ∨ isDir t it.2 = true
  file : it.1 = .file → isDir t it.2 = false

/-- What is at the target afterwards. -/
def undone (r : Request β) (t : Files β) (it : Kind × Path) : Files β :=
  if it.1 = .file ∧ present r.tree it.2 = false then r.slot t .target it.2
    else r.slot r.tree .target it.2

/-- The former parents are there. -/
def Grown (r : Request β) (t : Files β) : Prop := ∀ x, Parent r x → t x = r.tree x ∨
    r.tree x = none ∧ t x = some .dir

theorem Grown.parent (hgrown : Grown r t) (hrel : it.2 ∈ r.rels) (hp : present r.tree it.2 = true) :
    isDir t it.2.dropLast = true := by
  have hdir := r.closed.dropLast (present_iff.mp hp) (path_ne_nil hrel .target)
  rcases hgrown it.2.dropLast (parent_path hrel .target) with heq | ⟨hnone, -⟩
  · exact isDir_iff.mpr (heq.trans hdir)
  · rw [hdir] at hnone
    cases hnone

theorem Grown.only {rel : Path} {t' : Files β} (hgrown : Grown r t) (honly : Only r rel t t') :
    Grown r t' := by
  intro x hx
  rcases honly.grown x hx with heq | ⟨hnone, hdir⟩
  · rw [heq]
    exact hgrown x hx
  · rcases hgrown x hx with heq' | ⟨-, hdir'⟩
    · exact Or.inr ⟨heq' ▸ hnone, hdir⟩
    · rw [hnone] at hdir'
      cases hdir'

/-- **The backup moves back**, where there is one. -/
theorem restore_spec (hrel : it.2 ∈ r.rels) (hgrown : Grown r t)
    (hbackup : r.slot t .backup it.2 = r.slot r.tree .target it.2)
    (hdir : isDir t it.2 = false) (hkind : isDir r.tree it.2 = false ∨ isFile t it.2 = false) :
    ∃ t', moveBack r.out t it.2 = some t' ∧ Only r it.2 t t' ∧
      r.slot t' .target it.2 = if present r.tree it.2 then r.slot r.tree .target it.2
      else r.slot t .target it.2 := by
  have hroot : t (backup r.out it.2) = r.tree it.2 := root_eq .backup .target hbackup
  have hpres : present t (backup r.out it.2) = present r.tree it.2 := congrArg Option.isSome hroot
  unfold moveBack
  rw [hpres]
  by_cases hp : present r.tree it.2 = true
  · rw [if_pos hp, if_pos hp]
    have hsrc : isDir t (backup r.out it.2) = false ∨ isFile t it.2 = false :=
      hkind.imp_left fun hk => by
      unfold isDir
      rw [hroot]
      exact hk
    have hnone := replace_eq_none (hgrown.parent hrel hp) hdir hsrc
    obtain ⟨t', ht'⟩ := Option.ne_none_iff_exists'.mp
      (mt hnone.mp (by rw [hpres, hp]; exact Bool.noConfusion))
    exact ⟨t', ht', only_replace hrel .backup .target ht', (below_replace ht').trans hbackup⟩
  · rw [if_neg hp, if_neg hp]
    exact ⟨t, rfl, Only.refl r it.2 t, rfl⟩

/-- **One round of the rollback.** -/
theorem undo_spec (hit : it ∈ r.items) (hgrown : Grown r t) (h : Undoable r t it) :
    ∃ t', undo r.out t it = some t' ∧ Only r it.2 t t' ∧
    r.slot t' .target it.2 = undone r t it := by
  have hrel := mem_rels hit
  obtain ⟨kind, rel⟩ := it
  cases kind with
  | dir =>
    -- the staged directory is removed
    obtain ⟨t₁, ht₁, honly, habsent, hbackup⟩ : ∃ t₁, clear t rel = some t₁ ∧ Only r rel t t₁ ∧
        r.slot t₁ .target rel = absent ∧ r.slot t₁ .backup rel = r.slot r.tree .target rel := by
      rcases h.dir rfl with habsent | hdir
      · have hnone : present t rel = false := present_eq_false.mpr (root_absent habsent)
        exact ⟨t, by unfold clear; rw [hnone]; rfl, Only.refl r rel t, habsent, h.backup⟩
      · have hpres : present t rel = true := present_iff.mpr
          (by rw [isDir_iff.mp hdir]; exact Option.some_ne_none _)
        obtain ⟨t₁, ht₁⟩ : ∃ t₁, rmtree t rel = some t₁ := by
          unfold rmtree
          rw [hdir]
          exact ⟨_, rfl⟩
        refine ⟨t₁, (if_pos hpres).trans ht₁, only_of hrel fun x hx =>
          rmtree_apart ht₁ (hx .target), below_rmtree ht₁, ?_⟩
        have hapart : Apart (r.path .backup rel) (r.path .target rel) :=
          path_apart hrel hrel (by simp)
        rw [← h.backup]
        exact below_eq_of fun x hx => rmtree_apart ht₁ (hapart.not_below hx)
    have hnone : t₁ rel = none := root_absent habsent
    obtain ⟨t', ht', honly', htarget⟩ := restore_spec hrel (hgrown.only honly) hbackup
      (by unfold isDir; rw [hnone])
      (Or.inr (by unfold isFile; rw [hnone]))
    refine ⟨t', ?_, honly.trans honly', ?_⟩
    · unfold undo
      dsimp only
      rw [ht₁]
      exact ht'
    · rw [htarget]
      unfold undone
      have hnot : ¬ ((Kind.dir, rel).1 = .file ∧ present r.tree (Kind.dir, rel).2 = false) :=
        fun h => nomatch h.1
      rw [if_neg hnot]
      split_ifs with hp
      · rfl
      · rw [habsent]
        exact (slot_absent (present_eq_false.mp (Bool.eq_false_of_not_eq_true hp))).symm
  | file =>
    have hshared := r.shared_file rel (mem_shared hit)
    obtain ⟨t', ht', honly', htarget⟩ := restore_spec hrel hgrown h.backup (h.file rfl)
      (Or.inl hshared.1)
    refine ⟨t', ht', honly', ?_⟩
    rw [htarget]
    unfold undone
    by_cases hp : present r.tree rel = true
    · rw [if_pos hp, if_neg (by simp [hp])]
    · rw [if_neg hp, if_pos ⟨rfl, Bool.eq_false_of_not_eq_true hp⟩]

/-- **The rollback**: the items that were noted are undone, and nothing else is touched. -/
theorem rollback_spec : ∀ (its : List (Kind × Path)) {t : Files β}, (∀ it ∈ its, it ∈ r.items) →
    (its.map (·.2)).Nodup → Grown r t →
    (∀ it ∈ its, Undoable r t it) →
    (∀ it ∈ its, r.slot (rollback r.out its t) .target it.2 = undone r t it) ∧
      ∀ rel ∈ r.rels, rel ∉ its.map (·.2) → r.slot (rollback r.out its t) .target rel =
      r.slot t .target rel
  | [], _, _, _, _, _ => ⟨fun _ h => absurd h List.not_mem_nil, fun _ _ _ => rfl⟩
  | it :: its, t, hmem, hnodup, hgrown, hundo => by
    obtain ⟨hnot, hnodup⟩ := List.nodup_cons.mp hnodup
    obtain ⟨t', ht', honly, htarget⟩ := undo_spec (hmem it List.mem_cons_self) hgrown
      (hundo it List.mem_cons_self)
    have hmem' : ∀ it' ∈ its, it' ∈ r.items := fun it' h => hmem it' (List.mem_cons_of_mem _ h)
    have hne : ∀ it' ∈ its, it'.2 ≠ it.2 := fun it' h heq => hnot (List.mem_map.mpr ⟨it', h, heq⟩)
    have hslot : ∀ it' ∈ its, ∀ pl, r.slot t' pl it'.2 = r.slot t pl it'.2 := fun it' h pl =>
      honly.others _ (mem_rels (hmem' it' h)) (hne it' h) pl
    have hroot : ∀ it' ∈ its, t' it'.2 = t it'.2 :=
      fun it' h => root_eq .target .target (hslot it' h .target)
    obtain ⟨hitems, hothers⟩ := rollback_spec its hmem' hnodup (hgrown.only honly) fun it' h => by
      obtain ⟨hbackup, hdir, hfile⟩ := hundo it' (List.mem_cons_of_mem _ h)
      unfold isDir at hdir hfile
      rw [← hroot it' h] at hdir hfile
      exact ⟨(hslot it' h .backup).trans hbackup, fun hk =>
        (hdir hk).imp_left (hslot it' h .target).trans, hfile⟩
    have hrun : rollback r.out (it :: its) t = rollback r.out its t' := by
      rw [rollback, ht']
    rw [hrun]
    constructor
    · intro it' h
      rcases List.mem_cons.mp h with rfl | h
      · rw [hothers _ (mem_rels (hmem _ List.mem_cons_self)) hnot, htarget]
      · rw [hitems it' h]
        unfold undone
        rw [hslot it' h]
    · intro rel hrel hnotin
      rw [List.map_cons, List.mem_cons, not_or] at hnotin
      rw [hothers rel hrel hnotin.2, honly.others rel hrel hnotin.1]

end Undo

/-! ## What a failed import leaves

Up to the operation that raises everything is known from the two loops. The cases are whether the
item it belongs to was noted by then, and for each of them whether all that was noted can be made
good.
-/

section Failed

variable {pre post : List (Kind × Path)} {it : Kind × Path} {fault : Path → Op → Bool} {t : Files β}

/-- A swapped item can be undone. -/
theorem undoable_of_swapped (hit : it ∈ r.items) (h : r.Swapped t it.2) : Undoable r t it where
  backup := h.backup
  dir := fun hkind => by
    obtain ⟨kind, rel⟩ := it
    cases hkind
    have hfile := (r.owned_dir rel (mem_owned hit)).2
    have hroot : t rel = r.tree (staged r.out rel) := root_eq .target .staged h.target
    cases hstaged : r.tree (staged r.out rel) with
    | none => exact Or.inl (h.target.trans (slot_absent hstaged))
    | some n =>
      cases n with
      | dir => exact Or.inr (isDir_iff.mpr (hroot.trans hstaged))
      | file bytes =>
        rw [isFile_iff.mpr ⟨bytes, hstaged⟩] at hfile
        cases hfile
  file := fun hkind => by
    obtain ⟨kind, rel⟩ := it
    cases hkind
    have hdir := (r.shared_file rel (mem_shared hit)).2
    have hroot : t rel = r.tree (staged r.out rel) := root_eq .target .staged h.target
    unfold isDir at hdir ⊢
    rw [hroot]
    exact hdir

/-- A new shared file that was swapped stays. -/
theorem undone_ne {f : Path} (h : r.Swapped t f) (hpass : r.Passes fault (.file, f))
    (hp : present r.tree f = false) :
    undone r t (.file, f) ≠ r.slot r.tree .target f := by
  intro heq
  unfold undone at heq
  rw [if_pos ⟨rfl, hp⟩, h.target] at heq
  have hroot := root_eq .staged .target heq
  exact present_iff.mp (staged_of_passes hpass) (hroot.trans (present_eq_false.mp hp))

theorem undone_eq (h : ¬ (it.1 = .file ∧ present r.tree it.2 = false)) :
    undone r t it = r.slot r.tree .target it.2 := if_neg h

/-- **What the rollback makes good**: everything, where the items that were noted hold no new file,
and the item at which the error was raised is as it was or was noted. -/
theorem rollback_restores {L : List (Kind × Path)} (hL : ∀ it ∈ L, it ∈ r.items)
    (hnodup : (L.map (·.2)).Nodup) (hgrown : Grown r t) (hundo : ∀ it ∈ L, Undoable r t it)
    (hrest : ∀ rel ∈ r.rels, rel ∉ L.map (·.2) → r.slot t .target rel = r.slot r.tree .target rel) :
    (∀ rel ∈ r.rels, below (rollback r.out L t) rel = below r.tree rel) ↔ ∀ it ∈ L,
      undone r t it = r.slot r.tree .target it.2 := by
  obtain ⟨hin, hout⟩ := rollback_spec L hL hnodup hgrown hundo
  constructor
  · intro h it hmem
    exact (hin it hmem).symm.trans (h it.2 (mem_rels (hL it hmem)))
  · intro h rel hrel
    by_cases hmem : rel ∈ L.map (·.2)
    · obtain ⟨it, hit, rfl⟩ := List.mem_map.mp hmem
      exact (hin it hit).trans (h it hit)
    · exact (hout rel hrel hmem).trans (hrest rel hrel hmem)

/-- The swapped items are all made good if none is a new file. -/
theorem swapped_restored (hswap : ∀ it ∈ pre, r.Swapped t it.2)
    (hpass : ∀ it ∈ pre, r.Passes fault it) :
    (∀ it ∈ pre, undone r t it = r.slot r.tree .target it.2) ↔ ¬ ∃ f, (Kind.file, f) ∈ pre ∧
    present r.tree f = false := by
  constructor
  · rintro h ⟨f, hmem, hp⟩
    exact undone_ne (hswap _ hmem) (hpass _ hmem) hp (h _ hmem)
  · intro h it hmem
    refine undone_eq fun hnew => h ⟨it.2, ?_, hnew.2⟩
    rw [← hnew.1]
    exact hmem

/-- What was not reached is as it was. -/
theorem rest_of (hitems : r.items = pre ++ it :: post) {s : State β} {noted : Bool}
    {T S B : Files β} (h : r.At pre it post noted T S B s)
    {rel : Path} (hrel : rel ∈ r.rels) (hnot : rel ∉ pre.map (·.2)) (hne : rel ≠ it.2) :
    r.slot s.tree .target rel = r.slot r.tree .target rel := by
  rw [← items_rels, hitems, List.map_append, List.map_cons, List.mem_append, List.mem_cons] at hrel
  obtain hin | heq | hin := hrel
  · exact absurd hin hnot
  · exact absurd heq hne
  · obtain ⟨it', hmem, rfl⟩ := List.mem_map.mp hin
    exact h.rest it' hmem .target

/-- The items before the one at which the error was raised. -/
theorem before_nodup (hitems : r.items = pre ++ it :: post) : ((pre ++ [it]).map (·.2)).Nodup := by
  have hnodup := items_nodup (r := r)
  rw [hitems, List.append_cons, List.map_append] at hnodup
  exact hnodup.of_append_left

/-- **An error before an item was noted**: what was swapped so far decides, if the item is as it
was. -/
theorem restored_before (hitems : r.items = pre ++ it :: post) {s : State β} {T S B : Files β}
    (h : r.At pre it post false T S B s)
    (hpass : ∀ it ∈ pre, r.Passes fault it) (hT : T = r.slot r.tree .target it.2) :
    (∀ rel ∈ r.rels, below (rollback r.out s.done.reverse s.tree) rel = below r.tree rel) ↔
      ¬ ∃ f, (Kind.file, f) ∈ pre ∧ present r.tree f = false := by
  have hdone : s.done = pre := h.done
  have hin : ∀ it' ∈ pre, it' ∈ r.items := fun it' hmem => hitems ▸ List.mem_append_left _ hmem
  have hnodup := before_nodup hitems
  rw [List.map_append] at hnodup
  rw [hdone, rollback_restores (fun it' hmem => hin it' (List.mem_reverse.mp hmem)) ?_ h.grown
    (fun it' hmem => undoable_of_swapped (hin it' (List.mem_reverse.mp hmem))
      (h.swapped it' (List.mem_reverse.mp hmem))) ?_,
    ← swapped_restored h.swapped hpass]
  · simp only [List.mem_reverse]
  · rw [List.map_reverse, List.nodup_reverse]
    exact hnodup.of_append_left
  · intro rel hrel hnot
    by_cases heq : rel = it.2
    · rw [heq, h.target, hT]
    · exact rest_of hitems h hrel (by simpa using hnot) heq

/-- An item that was not noted stays as the error left it. -/
theorem kept_before (hitems : r.items = pre ++ it :: post) {s : State β} {T S B : Files β}
    (h : r.At pre it post false T S B s) :
    r.slot (rollback r.out s.done.reverse s.tree) .target it.2 = T := by
  have hdone : s.done = pre := h.done
  have hin : ∀ it' ∈ pre, it' ∈ r.items := fun it' hmem => hitems ▸ List.mem_append_left _ hmem
  have hnodup := before_nodup hitems
  rw [List.map_append, List.nodup_append] at hnodup
  rw [hdone, ← h.target]
  refine (rollback_spec pre.reverse (fun it' hmem => hin it' (List.mem_reverse.mp hmem)) ?_ h.grown
    fun it' hmem =>
    undoable_of_swapped (hin it' (List.mem_reverse.mp hmem))
      (h.swapped it' (List.mem_reverse.mp hmem))).2 it.2 (mem_of_items hitems) ?_
  · rw [List.map_reverse, List.nodup_reverse]
    exact hnodup.1
  · rw [List.map_reverse, List.mem_reverse]
    exact fun hmem => hnodup.2.2 _ hmem it.2 List.mem_cons_self rfl

/-- **An error after the item was noted**: the item is made good with those before. -/
theorem restored_after (hitems : r.items = pre ++ it :: post) {s : State β} {S : Files β}
    (h : r.At pre it post true (if it.1 = .dir then absent else r.slot r.tree .target it.2) S
      (r.slot r.tree .target it.2) s)
    (hpass : ∀ it ∈ pre, r.Passes fault it) :
    (∀ rel ∈ r.rels, below (rollback r.out s.done.reverse s.tree) rel = below r.tree rel) ↔
      ¬ ∃ f, (Kind.file, f) ∈ pre ∧ present r.tree f = false := by
  have hdone : s.done = pre ++ [it] := h.done
  have hit : it ∈ r.items := hitems ▸ List.mem_append_right _ List.mem_cons_self
  have hin : ∀ it' ∈ pre ++ [it], it' ∈ r.items := fun it' hmem => by
    rcases List.mem_append.mp hmem with hmem | hmem
    · exact hitems ▸ List.mem_append_left _ hmem
    · rw [List.mem_singleton.mp hmem]
      exact hit
  have hundo : Undoable r s.tree it := by
    refine ⟨h.backup, fun hkind => Or.inl (by rw [h.target, if_pos hkind]), fun hkind => ?_⟩
    obtain ⟨kind, rel⟩ := it
    cases hkind
    have hroot : s.tree rel = r.tree rel := root_eq .target .target
      (h.target.trans (if_neg (by simp)))
    unfold isDir
    rw [hroot]
    exact (r.shared_file rel (mem_shared hit)).1
  have hthis : undone r s.tree it = r.slot r.tree .target it.2 := by
    unfold undone
    split_ifs with hnew
    · rw [h.target, if_neg (by rw [hnew.1]; exact Kind.noConfusion)]
    · rfl
  rw [hdone, rollback_restores (fun it' hmem => hin it' (List.mem_reverse.mp hmem)) ?_ h.grown ?_
    ?_, ← swapped_restored h.swapped hpass]
  · simp only [List.mem_reverse, List.mem_append, List.mem_singleton]
    constructor
    · exact fun hall it' hmem => hall it' (Or.inl hmem)
    · rintro hall it' (hmem | rfl)
      · exact hall it' hmem
      · exact hthis
  · rw [List.map_reverse, List.nodup_reverse]
    exact before_nodup hitems
  · intro it' hmem
    rcases List.mem_append.mp (List.mem_reverse.mp hmem) with hmem | hmem
    · exact undoable_of_swapped (hin it' (List.mem_append_left _ hmem)) (h.swapped it' hmem)
    · rw [List.mem_singleton.mp hmem]
      exact hundo
  · intro rel hrel hnot
    rw [List.map_reverse, List.mem_reverse, List.map_append, List.mem_append, List.map_singleton,
      List.mem_singleton, not_or] at hnot
    exact rest_of hitems h hrel hnot.1 hnot.2

end Failed

theorem atomic_of_ok {r : Request β} {fault : Path → Op → Bool} {s : State β}
    (h : swap r.out fault r.items ⟨r.tree, []⟩ = .ok s) :
    r.Atomic fault ↔ ∀ rel ∈ r.owned ++ r.shared,
    below s.tree rel = below r.tree (staged r.out rel) := by
  have hcommit : commit r.out fault r.owned r.shared r.tree = .returned s.tree := by
    unfold items at h
    unfold commit
    rw [h]
  unfold Atomic
  rw [hcommit]

theorem atomic_of_error {r : Request β} {fault : Path → Op → Bool} {s : State β}
    (h : swap r.out fault r.items ⟨r.tree, []⟩ = .error s) : r.Atomic fault ↔
      ∀ rel ∈ r.owned ++ r.shared, below (rollback r.out s.done.reverse s.tree) rel =
      below r.tree rel := by
  have hcommit : commit r.out fault r.owned r.shared r.tree =
    .raised (rollback r.out s.done.reverse s.tree) := by
    unfold items at h
    unfold commit
    rw [h]
  unfold Atomic
  rw [hcommit]

/-- **When an import is atomic**: unless the error is raised between the move of a directory and its
note, or after a shared file was moved in that was not there before. -/
theorem commit_restores_iff (r : Request β) (fault : Path → Op → Bool) : r.Atomic fault ↔
    r.Restorable fault := by
  have hinv : r.Inv [] r.items ⟨r.tree, []⟩ :=
    ⟨rfl, fun _ h => absurd h List.not_mem_nil, fun _ _ _ => rfl, fun _ _ => Or.inl rfl⟩
  have hswap := swap_spec fault r.items [] rfl hinv fun _ h => absurd h List.not_mem_nil
  unfold Restorable
  cases hraise : r.firstRaise fault [] r.items with
  | none =>
    rw [hraise] at hswap
    obtain ⟨s, hs, hdone⟩ := hswap
    rw [atomic_of_ok hs]
    refine iff_of_true (fun rel hrel => ?_) fun h heq => absurd heq (by simp)
    have hmem : rel ∈ r.items.map (·.2) := by
      rw [items_rels]
      exact hrel
    obtain ⟨it, hit, rfl⟩ := List.mem_map.mp hmem
    exact (hdone.swapped it hit).target
  | some h =>
    rw [hraise] at hswap
    obtain ⟨s, post, hs, hitems, hpass, hstuck⟩ := hswap
    rw [atomic_of_error hs]
    have hone : (∀ h', some h = some h' → ¬ Halt.Lossy r h') ↔ ¬ Halt.Lossy r h :=
      ⟨fun hall => hall h rfl, fun hnot h' heq => Option.some.inj heq ▸ hnot⟩
    rw [hone]
    unfold Halt.Lossy
    obtain ⟨pre, it, op⟩ := h
    dsimp only at *
    cases hstuck with
    | before hop at_ =>
      rw [or_iff_right fun hlost => hop.elim (fun hk => by rw [hk] at hlost; cases hlost.1)
        fun hne => hne hlost.2.1]
      exact restored_before hitems at_ hpass rfl
    | after hop at_ =>
      rw [or_iff_right fun hlost => hop.elim (fun hk => by rw [hk] at hlost; cases hlost.1)
        fun hne => hne hlost.2.1]
      exact restored_after hitems at_ hpass
    | between hdir at_ =>
      by_cases hp : present r.tree it.2 = true
      · refine iff_of_false (fun hall => ?_) fun hnot => hnot (Or.inl ⟨hdir, rfl, hp⟩)
        have hit : it.2 ∈ r.rels := mem_of_items hitems
        have hgone : r.slot r.tree .target it.2 = absent :=
          (hall it.2 hit).symm.trans (kept_before hitems at_)
        exact present_iff.mp hp (root_absent hgone)
      · rw [or_iff_right fun hlost => hp hlost.2.2]
        exact restored_before hitems at_ hpass
          (slot_absent (present_eq_false.mp (Bool.eq_false_of_not_eq_true hp))).symm

end Request

/-- A first import: the repository has its lock file and no list of installed files. -/
def firstImportTree : List (Path × Node Nat) :=
  [([], .dir), ([".import-1"], .dir), ([".import-1", "sources"], .dir),
    ([".import-1", "sources", "installed-files.json"], .file [2]),
    ([".import-1", "sources.lock.json"], .file [3]), (["sources.lock.json"], .file [1])]

theorem firstImport_closed : ∀ e ∈ firstImportTree, ∀ x ∈ e.1.inits, x = e.1 ∨
    ofEntries firstImportTree x = some .dir := by decide

set_option maxRecDepth 4000 in
theorem firstImport_lists : (buildOwned "tp4" ++ buildShared false).Pairwise Apart ∧
    (∀ d ∈ buildOwned "tp4" ++ buildShared false, d ≠ [] ∧ d.head? ≠ some ".import-1" ∧
    d.head? ≠ some ".previous") ∧
    (∀ d ∈ buildOwned "tp4", isFile (ofEntries firstImportTree) d = false ∧
      isFile (ofEntries firstImportTree) (staged ".import-1" d) = false) ∧
    ∀ f ∈ buildShared false, isDir (ofEntries firstImportTree) f = false ∧
      isDir (ofEntries firstImportTree) (staged ".import-1" f) = false := by
  decide

theorem firstImport_staging : ofEntries firstImportTree [".import-1"] = some .dir ∧
    ofEntries firstImportTree [".import-1", ".previous"] = none := by decide

def firstImport : Request Nat where
  tree := ofEntries firstImportTree
  out := ".import-1"
  owned := buildOwned "tp4"
  shared := buildShared false
  closed := closed_ofEntries firstImport_closed
  apart := firstImport_lists.1
  heads := firstImport_lists.2.1
  out_dir := firstImport_staging.1
  fresh := firstImport_staging.2
  owned_dir := firstImport_lists.2.2.1
  shared_file := firstImport_lists.2.2.2

/-- The disk is full when the lock file is copied. -/
def diskFull (rel : Path) (op : Op) : Bool := rel = ["sources.lock.json"] ∧ op = .writeCopy

/-- Does the failed import leave a list of installed files? -/
def leavesNew : Outcome Nat → Bool
  | .returned _ => false
  | .raised t => present t ["sources", "installed-files.json"]

set_option maxRecDepth 4000 in
/-- The new list of installed files stays, though the import failed. -/
theorem firstImport_not_atomic : ¬ firstImport.Atomic diskFull := by
  have hleft : leavesNew (commit ".import-1" diskFull (buildOwned "tp4") (buildShared false)
    (ofEntries firstImportTree)) = true := by
    decide
  have hbefore : firstImport.tree ["sources", "installed-files.json"] = none := by decide
  have hmem : ["sources", "installed-files.json"] ∈ firstImport.owned ++
    firstImport.shared := by decide
  intro h
  unfold Request.Atomic at h
  change leavesNew (commit firstImport.out diskFull firstImport.owned firstImport.shared
    firstImport.tree) = true at hleft
  cases hend : commit firstImport.out diskFull firstImport.owned firstImport.shared
    firstImport.tree with
  | returned t =>
    rw [hend] at hleft
    cases hleft
  | raised t =>
    rw [hend] at h hleft
    have hroot : t ["sources", "installed-files.json"] = none :=
      (congrFun (h _ hmem) []).trans hbefore
    exact present_iff.mp hleft hroot

end Ringside.ImportPlan

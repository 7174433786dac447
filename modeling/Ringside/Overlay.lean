import Ringside.Checks
import Ringside.Dict
import Ringside.Text
import Mathlib.Data.List.Sort

/-!
# Building an overlay (`sources/apply.py`)

Every item of a manifest serves one file, or the files and links of a directory. What becomes of
each is an `Outcome`, and the build is the outcomes in order: the files that were written, and the
receipt.

* Hashing, `git apply`, the decoding of a text and its lower case are functions (`Site`). `git
  apply` is run twice on the same input.
* Every field that the code looks up is there; an absent `per_rank_sha256` or `source` is empty. A
  third-party directory may lack its `source_dir`.
* The directories give the bytes under a path. Writing or linking a path may raise, then nothing is
  there. `attempt` is the handler: which exceptions become an error of the item.
* `findArtefact` tries the first wanted hash, then the file name, then the other hashes, as the loop
  of the source does; `artefactFile`, `patchFile` and `copiedFile` are the three kinds of file.
* `thirdPartyBase` reads the `METADATA` files of the installed distributions, with the names in
  their canonical form.

Results:
* `find_spec`: the artefact that is found is the first file that is there.
* `recorded_or_rebuilt`: what is written has a recorded hash, or is reported as rebuilt.
* `artefact_problem`: which artefacts have no problem, of those that were supplied.
* `receipt_files`: what the receipt says of a target that is served once.
* `build_checked`: all of it. `FirstValid` is the condition under which a supplied artefact is
  taken.

Out of scope: downloading, and mounting what was built.
-/

namespace Ringside.Overlay

open Checks Text

/-! ## The manifest -/

/-- One file of a directory. -/
structure FileEntry where
  sha256 : String
  perRankSha256 : List (String × String)
  source : String

structure Distribution where
  name : String
  version : String

inductive DirKind where
  | srcDir
  | configDir
  | binaryDir
  | thirdPartyDir (sourceDir : Option String) (distribution : Option Distribution)

/-- A served item; `copied` is of kind `src` or `template`. -/
inductive Item where
  | patch (target sha256 preimageSha256 path : String)
  | copied (target sha256 source : String)
  | binary (target sha256 : String)
  | dir (target : String) (kind : DirKind) (files : List (String × FileEntry))
      (symlinks : List (String × String))
  | unknown (target kind : String)

/-- Errors that are reported. -/
inductive Err where
  | lookup (text : String)
  | value (text : String)
  | os (text : String)

inductive Status where
  | patched
  | copied
  | measuredArtefact
  | rebuiltArtefact
  | symlink
  | missing
  | refused
  deriving DecidableEq

/-- What becomes of one target. -/
inductive Outcome (β : Type) where
  | wrote (target : String) (bytes : β) (status : Status) (sha256 : String)
  | linked (target dest : String)
  | failed (target : String) (err : Err)

/-- Where the build runs, and how. -/
structure Site (β : Type) where
  hash : β → String
  gitApply : β → β → Except String β
  decode : β → List Char
  lower : List Char → List Char
  installRoot : String
  root : String → Except String β
  imageRoot : List String → Option β
  artefacts : Option (String → Option β)
  thirdParty : Option (String → Option (String → Option β))
  refusesWrite : List String → Option String
  rank : Option Int
  allowRebuilt : Bool

section Build

variable {β : Type} (site : Site β)

/-! ## The functions -/

/-- `safe_join`, below its base. -/
def safeJoin (absolute : String) : Except Err (List String) :=
  if ".." ∈ pathParts absolute then throw (.value ("unsafe target " ++ absolute))
    else pure (pathParts absolute)

/-- `apply_patch`. -/
def applyPatch (preimage patchBytes : β) (rel : String) : Except Err β :=
  match site.gitApply preimage patchBytes with
  | .error text => throw (.value ("git apply failed for " ++ rel ++ ": " ++ text))
  | .ok post => pure post

/-- Runs of `-`, `_` and `.` become one `-`. -/
def joinRuns : Bool → List Char → List Char
  | _, [] => []
  | inRun, c :: s =>
    if c ∈ ['-', '_', '.'] then (if inRun then [] else ['-']) ++ joinRuns true s
      else c :: joinRuns false s

/-- `canonical_name`. -/
def canonicalName (name : List Char) : List Char := site.lower (joinRuns false name)

/-- The header fields of a `METADATA` file, the first of each key first. -/
def headers (bytes : β) : List (List Char × List Char) :=
  ((splitLines (site.decode bytes)).takeWhile fun line => strip line ≠ []).filterMap fun line =>
    (partition ':' line).map fun kv => (site.lower (strip kv.1), strip kv.2)

/-- A field, as an error shows it. -/
def shown : Option (List Char) → String
  | none => "None"
  | some value => String.ofList value

/-- `third_party_base`. -/
def thirdPartyBase (target : String) (sourceDir : Option String)
    (distribution : Option Distribution) :
    Except Err (String → Option β) := do
  let sourceDir := sourceDir.getD ""
  if sourceDir = "" ∨ '/' ∈ sourceDir.toList ∨ sourceDir = "." ∨ sourceDir = ".." then
    throw (.value ("manifest entry lacks a valid source_dir: " ++ target))
  match site.thirdParty with
  | none => throw (.lookup ("--third-party not given for " ++ target))
  | some thirdParty =>
    match thirdParty sourceDir with
    | none =>
      throw (.lookup (sourceDir ++ " not found under --third-party (needed for " ++ target ++ ")"))
    | some base =>
      match distribution with
      | none => pure base
      | some dist =>
        match base "METADATA" with
        | none => throw (.lookup (sourceDir ++ "/METADATA missing"))
        | some bytes =>
          let name := (headers site bytes).lookup "name".toList
          let version := (headers site bytes).lookup "version".toList
          if canonicalName site (name.getD []) ≠ canonicalName site dist.name.toList ∨
            version ≠ some dist.version.toList then
            throw (.value (sourceDir ++ " is " ++ shown name ++ " " ++ shown version ++
              ", expected " ++ dist.name ++ " " ++
              dist.version ++ " for " ++ target))
          else pure base

/-- `find_artefact`. -/
def findArtefact (directory : Option (String → Option β)) (sha name : String) : Option β :=
  match directory with
  | none => none
  | some files => [sha, name].findSome? files

/-- `write`. -/
def write (target : String) : Except Err Unit := do
  let path ← safeJoin target
  match site.refusesWrite path with
  | some text => throw (.os text)
  | none => pure ()

/-- A file of the repository. -/
def readRoot (path : String) : Except Err β :=
  match site.root path with
  | .error text => throw (.os text)
  | .ok bytes => pure bytes

/-- The hashes that an artefact may have. -/
def FileEntry.wanted (f : FileEntry) : Except Err (List String) :=
  if f.perRankSha256 = [] then pure [f.sha256]
  else
    match site.rank with
    | none => pure (f.perRankSha256.map Prod.snd).dedup
    | some rank =>
      match f.perRankSha256.lookup (toString rank) with
      | none => throw (.lookup ("'" ++ toString rank ++ "'"))
      | some sha => pure [sha]

/-- The artefact of the first hash that has one. -/
def findWanted (wanted : List String) (name : String) : Option β :=
  (wanted.insertionSort (· ≤ ·)).findSome? fun sha => findArtefact site.artefacts sha name

/-- `artefact_file`; `base` is that of a third-party directory. -/
def artefactFile (base : Option (String → Option β)) (name : String) (f : FileEntry)
    (sub : String) :
    Except Err (Outcome β) :=
  if f.source ≠ "" then do
    let data ← readRoot site f.source
    if site.hash data ≠ f.sha256 then throw (.value ("repository copy differs: " ++ f.source))
    write site sub
    return .wrote sub data .copied f.sha256
  else do
    let wanted ← f.wanted site
    let found := match base with
      | some files => files name
      | none => findWanted site wanted name
    match found with
    | none => throw (.lookup ("artefact not supplied: " ++ sub))
    | some data =>
      let status : Status := if site.hash data ∈ wanted then .measuredArtefact else .rebuiltArtefact
      if status = .rebuiltArtefact ∧ site.allowRebuilt = false then
        throw (.value (sub ++ " differs from the measured bytes; pass --allow-rebuilt"))
      write site sub
      return .wrote sub data status (site.hash data)

/-- A patched file. -/
def patchFile (target sha256 preimageSha256 path : String) : Except Err (Outcome β) := do
  let rel := String.ofList (target.toList.drop site.installRoot.length)
  let src ← safeJoin target
  match site.imageRoot src with
  | none => throw (.lookup ("image file missing under --image-root: " ++ target))
  | some pre =>
    if site.hash pre ≠ preimageSha256 then
      throw (.value ("image file " ++ target ++ " is not the recorded preimage (" ++
        site.hash pre ++ " != " ++
        preimageSha256 ++ "): wrong base image?"))
    let patchBytes ← readRoot site path
    let post ← applyPatch site pre patchBytes rel
    if site.hash post ≠ sha256 then
      throw (.value ("patched file differs from the served file: " ++ target))
    write site target
    return .wrote target post .patched sha256

/-- A file of the repository that is served. -/
def copiedFile (target sha256 source : String) : Except Err (Outcome β) := do
  let data ← readRoot site source
  if site.hash data ≠ sha256 then
    throw (.value ("repository copy differs from the served file: " ++ source))
  write site target
  return .wrote target data .copied sha256

/-- The exceptions that are caught. -/
def attempt (target : String) (served : Except Err (Outcome β)) : Outcome β :=
  match served with
  | .error err => .failed target err
  | .ok outcome => outcome

/-- The links of a directory; the first error is the directory's. -/
def links (target : String) : List (String × String) → List (Outcome β)
  | [] => []
  | (link, dest) :: rest =>
    match write site (target ++ "/" ++ link) with
    | .error err => [.failed target err]
    | .ok () => .linked (target ++ "/" ++ link) dest :: links target rest

/-- The base of a directory, of a third-party one only. -/
def DirKind.base (kind : DirKind) (target : String) : Except Err (Option (String → Option β)) :=
  match kind with
  | .thirdPartyDir sourceDir distribution =>
    some <$> thirdPartyBase site target sourceDir distribution
  | _ => pure none

/-- The outcomes of one item. -/
def Item.outcomes : Item → List (Outcome β)
  | .patch target sha256 preimageSha256 path =>
    [attempt target (patchFile site target sha256 preimageSha256 path)]
  | .copied target sha256 source => [attempt target (copiedFile site target sha256 source)]
  | .binary target sha256 =>
    [attempt target (artefactFile site none ((pathParts target).getLastD "")
      ⟨sha256, [], ""⟩ target)]
  | .dir target kind files symlinks =>
    match kind.base site target with
    | .error err => [.failed target err]
    | .ok base =>
      (files.map fun (name, f) => attempt (target ++ "/" ++ name)
        (artefactFile site base name f (target ++ "/" ++ name))) ++
        links site target symlinks
  | .unknown target kind => [.failed target (.value ("unknown kind " ++ kind))]

/-- `build`: what becomes of the targets of a profile. -/
def build (items : List Item) : List (Outcome β) := items.flatMap (Item.outcomes site)

/-! ## The receipt -/

namespace Outcome

def target : Outcome β → String
  | .wrote target _ _ _ => target
  | .linked target _ => target
  | .failed target _ => target

def status : Outcome β → Status
  | .wrote _ _ status _ => status
  | .linked _ _ => .symlink
  | .failed _ (.lookup _) => .missing
  | .failed _ _ => .refused

def sha256 : Outcome β → Option String
  | .wrote _ _ _ sha256 => some sha256
  | _ => none

def problem : Outcome β → Option String
  | .failed _ (.lookup text) => some text
  | .failed _ (.value text) => some text
  | .failed _ (.os text) => some text
  | _ => none

end Outcome

/-- `apply-receipt.json`. -/
structure Receipt where
  files : Dict String (Status × Option String)
  problems : List String

def record (files : Dict String (Status × Option String)) (o : Outcome β) :
    Dict String (Status × Option String) :=
  files.set o.target (o.status, o.sha256)

/-- The receipt of a build. -/
def receipt (outcomes : List (Outcome β)) : Receipt where
  files := outcomes.foldl record Dict.empty
  problems := outcomes.filterMap Outcome.problem

end Build

/-! ## What a manifest records

These definitions say what a build should do with a file, without running it: the hashes that its
manifest records, the names that are looked at in order, and what a valid artefact is.
-/

section Recorded

variable {β : Type} (site : Site β)

/-- The served hashes of a file; none where the rank has none. -/
def FileEntry.recorded (f : FileEntry) : List String :=
  if f.source ≠ "" then [f.sha256]
  else
    match f.wanted site with
    | .error _ => []
    | .ok wanted => wanted

/-- The targets of the files of an item, with their served hashes. -/
def Item.recorded : Item → List (String × List String)
  | .patch target sha256 _ _ => [(target, [sha256])]
  | .copied target sha256 _ => [(target, [sha256])]
  | .binary target sha256 => [(target, [sha256])]
  | .dir target _ files _ => files.map fun (name, f) => (target ++ "/" ++ name, f.recorded site)
  | .unknown _ _ => []

/-- An artefact file. -/
structure Artefact where
  sub : String
  name : String
  entry : FileEntry
  not_copied : entry.source = ""

/-- The files of an item that the artefact directory supplies. -/
def Item.artefacts : Item → List Artefact
  | .binary target sha256 => [⟨target, (pathParts target).getLastD "", ⟨sha256, [], ""⟩, rfl⟩]
  | .dir _ (.thirdPartyDir _ _) _ _ => []
  | .dir target _ files _ => files.filterMap fun (name, f) =>
    if h : f.source = "" then some ⟨target ++ "/" ++ name, name, f, h⟩ else none
  | _ => []

/-- The targets that an item may report. -/
def Item.names : Item → List String
  | .patch target _ _ _ => [target]
  | .copied target _ _ => [target]
  | .binary target _ => [target]
  | .dir target _ files symlinks =>
    (files.map fun (name, _) => target ++ "/" ++ name) ++
      ((symlinks.map fun (link, _) => target ++ "/" ++ link) ++ [target])
  | .unknown target _ => [target]

/-- What becomes of an artefact file. -/
def Artefact.outcome (a : Artefact) : Outcome β :=
    attempt a.sub (artefactFile site none a.name a.entry a.sub)

/-- The names that are looked at, in this order. -/
def lookOrder (wanted : List String) (name : String) : List String :=
  match wanted.insertionSort (· ≤ ·) with
  | [] => []
  | sha :: rest => sha :: name :: rest

/-- The first file that is there has a wanted hash. -/
def FirstValid (files : String → Option β) (wanted : List String) (name : String) : Prop :=
  ∃ before n after bytes, lookOrder wanted name = before ++ n :: after ∧
    (∀ m ∈ before, files m = none) ∧
    files n = some bytes ∧ site.hash bytes ∈ wanted

/-- Some file, under a wanted hash or the name, has a wanted hash. -/
def Supplied (files : String → Option β) (wanted : List String) (name : String) : Prop :=
  ∃ n bytes, (n ∈ wanted ∨ n = name) ∧ files n = some bytes ∧ site.hash bytes ∈ wanted

end Recorded

/-! ## Each function

One lemma for each function that can write: if it wrote, then bytes of a recorded hash, or it says
that they were rebuilt.
-/

section Functions

variable {β : Type} {site : Site β}

theorem write_ok {target : String} :
    write site target = .ok () ↔ ".." ∉ pathParts target ∧
    site.refusesWrite (pathParts target) = none := by
  unfold write safeJoin
  rw [bind_ok]
  constructor
  · rintro ⟨path, hpath, hwrite⟩
    obtain ⟨hsafe, hpath⟩ := checked_ok.mp hpath
    cases hpath
    cases hrefuses : site.refusesWrite (pathParts target) with
    | none => exact ⟨hsafe, rfl⟩
    | some text =>
      rw [hrefuses] at hwrite
      cases hwrite
  · rintro ⟨hsafe, hrefuses⟩
    exact ⟨_, checked_ok.mpr ⟨hsafe, rfl⟩, by rw [hrefuses]; rfl⟩

/-- Once a file was looked for under its name, only the hashes are left. -/
theorem find_rest {files : String → Option β} {name : String} (hname : files name = none) :
    ∀ shas : List String,
    shas.findSome? (fun sha => [sha, name].findSome? files) = shas.findSome? files
  | [] => rfl
  | sha :: shas => by
    rw [List.findSome?_cons, find_rest hname shas]
    simp only [List.findSome?_cons, List.findSome?_nil, hname]
    cases files sha <;> rfl

/-- **The artefact that is found** is the first file that is there. -/
theorem find_spec {files : String → Option β} (hfiles : site.artefacts = some files)
    (wanted : List String) (name : String) :
    findWanted site wanted name = (lookOrder wanted name).findSome? files := by
  unfold findWanted lookOrder findArtefact
  rw [hfiles]
  dsimp only
  cases wanted.insertionSort (· ≤ ·) with
  | nil => rfl
  | cons sha rest =>
    dsimp only
    rw [List.findSome?_cons, List.findSome?_cons, List.findSome?_cons, List.findSome?_cons]
    cases files sha with
    | some bytes => rfl
    | none =>
      cases hname : files name with
      | some bytes => simp [hname]
      | none => simpa [hname] using find_rest hname rest

/-- What an artefact file becomes. -/
theorem artefactFile_wrote {base : Option (String → Option β)} {name sub : String} {f : FileEntry}
    {o : Outcome β}
    (h : artefactFile site base name f sub = .ok o) : ∃ bytes status,
      o = .wrote sub bytes status (site.hash bytes) ∧
      (site.hash bytes ∈ f.recorded site ∨ status = .rebuiltArtefact) := by
  unfold artefactFile at h
  unfold FileEntry.recorded
  split_ifs at h ⊢ with hsource
  · obtain ⟨data, -, h⟩ := bind_ok.mp h
    obtain ⟨hhash, h⟩ := guarded_ok.mp h
    obtain ⟨-, -, h⟩ := bind_ok.mp h
    cases h
    rw [not_not] at hhash
    exact ⟨data, .copied, by rw [hhash], Or.inl (by rw [hhash]; exact List.mem_singleton_self _)⟩
  · obtain ⟨wanted, hwanted, h⟩ := bind_ok.mp h
    rw [hwanted]
    dsimp only at h ⊢
    split at h
    · cases h
    · rename_i data _
      obtain ⟨-, h⟩ := guarded_ok.mp h
      obtain ⟨-, -, h⟩ := bind_ok.mp h
      cases h
      refine ⟨data, _, rfl, ?_⟩
      split_ifs with hmem
      · exact Or.inl hmem
      · exact Or.inr rfl

theorem patchFile_wrote {target sha256 preimageSha256 path : String} {o : Outcome β}
    (h : patchFile site target sha256 preimageSha256 path = .ok o) :
    ∃ bytes, o = .wrote target bytes .patched sha256 ∧ site.hash bytes = sha256 := by
  unfold patchFile at h
  obtain ⟨src, -, h⟩ := bind_ok.mp h
  split at h
  · cases h
  · obtain ⟨-, h⟩ := guarded_ok.mp h
    obtain ⟨patchBytes, -, h⟩ := bind_ok.mp h
    obtain ⟨post, -, h⟩ := bind_ok.mp h
    obtain ⟨hhash, h⟩ := guarded_ok.mp h
    obtain ⟨-, -, h⟩ := bind_ok.mp h
    cases h
    exact ⟨post, rfl, not_not.mp hhash⟩

theorem copiedFile_wrote {target sha256 source : String} {o : Outcome β}
    (h : copiedFile site target sha256 source = .ok o) :
    ∃ bytes, o = .wrote target bytes .copied sha256 ∧ site.hash bytes = sha256 := by
  unfold copiedFile at h
  obtain ⟨data, -, h⟩ := bind_ok.mp h
  obtain ⟨hhash, h⟩ := guarded_ok.mp h
  obtain ⟨-, -, h⟩ := bind_ok.mp h
  cases h
  exact ⟨data, rfl, not_not.mp hhash⟩

end Functions

/-! ## Which artefacts have a problem

`FirstValid` is about the first name under which there is a file at all. That a later one is valid
does not help, as the build stops at the first file it finds.
-/

section Artefacts

variable {β : Type} {site : Site β} {files : String → Option β} {wanted : List String}
    {name : String}

theorem mem_lookOrder {n : String} : n ∈ lookOrder wanted name ↔ wanted ≠ [] ∧
    (n ∈ wanted ∨ n = name) := by
  have hmem : ∀ m, m ∈ wanted.insertionSort (· ≤ ·) ↔ m ∈ wanted :=
    fun m => List.mem_insertionSort _
  unfold lookOrder
  cases hsorted : wanted.insertionSort (· ≤ ·) with
  | nil =>
    have hnil : wanted = [] := List.eq_nil_iff_forall_not_mem.mpr fun m hm => by
      have := (hmem m).mpr hm
      rw [hsorted] at this
      cases this
    simp [hnil]
  | cons sha rest =>
    have hne : wanted ≠ [] := by
      rintro rfl
      cases hsorted
    rw [← hmem, hsorted]
    simp only [List.mem_cons, hne, ne_eq, not_false_eq_true, true_and]
    tauto

theorem firstValid_iff : FirstValid site files wanted name ↔
    ∃ bytes, (lookOrder wanted name).findSome? files = some bytes ∧ site.hash bytes ∈ wanted := by
  constructor
  · rintro ⟨before, n, after, bytes, horder, hbefore, hn, hhash⟩
    exact ⟨bytes, List.findSome?_eq_some_iff.mpr ⟨before, n, after, horder, hn, hbefore⟩, hhash⟩
  · rintro ⟨bytes, hfind, hhash⟩
    obtain ⟨before, n, after, horder, hn, hbefore⟩ := List.findSome?_eq_some_iff.mp hfind
    exact ⟨before, n, after, bytes, horder, hbefore, hn, hhash⟩

/-- Something is found where an artefact was supplied. -/
theorem exists_found (h : Supplied site files wanted name) :
    ∃ bytes, (lookOrder wanted name).findSome? files = some bytes := by
  obtain ⟨n, bytes, hn, hfile, hhash⟩ := h
  cases hfind : (lookOrder wanted name).findSome? files with
  | some found => exact ⟨found, rfl⟩
  | none =>
    have hnone := List.findSome?_eq_none_iff.mp hfind n
      (mem_lookOrder.mpr ⟨List.ne_nil_of_mem hhash, hn⟩)
    rw [hfile] at hnone
    cases hnone

theorem problem_none {a : Artefact} :
    (a.outcome site).problem = none ↔ ∃ o, artefactFile site none a.name a.entry a.sub = .ok o := by
  unfold Artefact.outcome attempt
  cases hfile : artefactFile site none a.name a.entry a.sub with
  | error err => cases err <;> simp [Outcome.problem]
  | ok o =>
    obtain ⟨bytes, status, rfl, -⟩ := artefactFile_wrote hfile
    simp [Outcome.problem]

/-- **Which artefacts have no problem**, of those that were supplied. -/
theorem artefact_problem {a : Artefact} (hfiles : site.artefacts = some files)
    (hwanted : a.entry.wanted site = .ok wanted)
    (hsupplied : Supplied site files wanted a.name) : (a.outcome site).problem = none ↔
      (site.allowRebuilt = true ∨ FirstValid site files wanted a.name) ∧ ".." ∉ pathParts a.sub ∧
        site.refusesWrite (pathParts a.sub) = none := by
  obtain ⟨found, hfound⟩ := exists_found hsupplied
  have hfind := find_spec hfiles wanted a.name
  rw [hfound] at hfind
  rw [problem_none, firstValid_iff, hfound, ← write_ok]
  unfold artefactFile
  rw [if_neg (not_not.mpr a.not_copied)]
  simp only [bind_ok, hwanted, hfind, Except.ok.injEq, exists_eq_left', guarded_ok,
    Option.some.injEq]
  have hunit : (∃ x, write site a.sub = .ok x) ↔ write site a.sub = .ok () :=
    ⟨fun ⟨(), h⟩ => h, fun h => ⟨(), h⟩⟩
  by_cases hhash : site.hash found ∈ wanted <;> simp [hhash, pure_ok, hunit]

end Artefacts

/-! ## The whole build -/

section Whole

variable {β : Type} {site : Site β} {items : List Item} {o : Outcome β}

variable (site) in
/-- A file that is attempted is written with a recorded hash, or rebuilt. -/
theorem attempt_wrote (hashes : List String) {target sub sha256 : String}
    {served : Except Err (Outcome β)} {bytes : β}
    {status : Status} (hserved : ∀ o, served = .ok o → ∃ bytes status,
      o = .wrote sub bytes status (site.hash bytes) ∧
      (site.hash bytes ∈ hashes ∨ status = .rebuiltArtefact))
    (h : .wrote target bytes status sha256 = attempt sub served) :
    target = sub ∧ sha256 = site.hash bytes ∧
      (site.hash bytes ∈ hashes ∨ status = .rebuiltArtefact) := by
  cases served with
  | error err => cases h
  | ok o =>
    obtain ⟨bytes', status', rfl, hspec⟩ := hserved o rfl
    cases h
    exact ⟨rfl, rfl, hspec⟩

theorem links_wrote {target : String} : ∀ {symlinks : List (String × String)},
    o ∈ links site target symlinks →
    ∀ sub bytes status sha256, o ≠ .wrote sub bytes status sha256
  | [], h => by cases h
  | (link, dest) :: rest, h => by
    intro sub bytes status sha256 ho
    unfold links at h
    split at h
    · rw [ho] at h
      cases List.mem_singleton.mp h
    · rcases List.mem_cons.mp h with hlink | hrest
      · rw [ho] at hlink
        cases hlink
      · exact links_wrote hrest sub bytes status sha256 ho

/-- What one item writes. -/
theorem item_wrote {item : Item} {target sha256 : String} {bytes : β} {status : Status}
    (h : .wrote target bytes status sha256 ∈ item.outcomes site) : sha256 = site.hash bytes ∧
      ((∃ hashes, (target, hashes) ∈ item.recorded site ∧ site.hash bytes ∈ hashes) ∨
      status = .rebuiltArtefact) := by
  cases item with
  | patch t s pre path =>
    obtain ⟨rfl, hsha, hspec⟩ := attempt_wrote site [s] (fun o ho => by
      obtain ⟨post, rfl, rfl⟩ := patchFile_wrote ho
      exact ⟨post, .patched, rfl, Or.inl (List.mem_singleton_self _)⟩) (List.mem_singleton.mp h)
    exact ⟨hsha, hspec.imp_left fun hmem => ⟨_, List.mem_singleton_self _, hmem⟩⟩
  | copied t s source =>
    obtain ⟨rfl, hsha, hspec⟩ := attempt_wrote site [s] (fun o ho => by
      obtain ⟨data, rfl, rfl⟩ := copiedFile_wrote ho
      exact ⟨data, .copied, rfl, Or.inl (List.mem_singleton_self _)⟩) (List.mem_singleton.mp h)
    exact ⟨hsha, hspec.imp_left fun hmem => ⟨_, List.mem_singleton_self _, hmem⟩⟩
  | binary t s =>
    obtain ⟨rfl, hsha, hspec⟩ := attempt_wrote site _ (fun o ho => artefactFile_wrote ho)
      (List.mem_singleton.mp h)
    exact ⟨hsha, hspec.imp_left fun hmem => ⟨_, List.mem_singleton_self _, hmem⟩⟩
  | dir t kind files symlinks =>
    simp only [Item.outcomes] at h
    cases hbase : kind.base site t with
    | error err =>
      rw [hbase] at h
      cases List.mem_singleton.mp h
    | ok base =>
      rw [hbase] at h
      rcases List.mem_append.mp h with hfile | hlink
      · obtain ⟨⟨name, f⟩, hf, heq⟩ := List.mem_map.mp hfile
        obtain ⟨rfl, hsha, hspec⟩ := attempt_wrote site
          _ (fun o ho => artefactFile_wrote ho) heq.symm
        exact ⟨hsha, hspec.imp_left fun hmem => ⟨_, List.mem_map.mpr ⟨(name, f), hf, rfl⟩, hmem⟩⟩
      · exact absurd rfl (links_wrote hlink target bytes status sha256)
  | unknown t kind => cases List.mem_singleton.mp h

/-- **What is written** has a recorded hash, or is reported as rebuilt. -/
theorem recorded_or_rebuilt {target sha256 : String} {bytes : β} {status : Status}
    (h : .wrote target bytes status sha256 ∈ build site items) : sha256 = site.hash bytes ∧
      ((∃ hashes, (target, hashes) ∈ items.flatMap (Item.recorded site) ∧
      site.hash bytes ∈ hashes) ∨ status = .rebuiltArtefact) := by
  obtain ⟨item, hitem, h⟩ := List.mem_flatMap.mp h
  obtain ⟨hsha, hspec⟩ := item_wrote h
  exact ⟨hsha, hspec.imp_left fun ⟨hashes, hmem, hhash⟩ =>
    ⟨hashes, List.mem_flatMap.mpr ⟨item, hitem, hmem⟩, hhash⟩⟩

/-- Every artefact file of the manifest has its outcome. -/
theorem outcome_mem {a : Artefact} (ha : a ∈ items.flatMap Item.artefacts) :
    a.outcome site ∈ build site items := by
  obtain ⟨item, hitem, ha⟩ := List.mem_flatMap.mp ha
  refine List.mem_flatMap.mpr ⟨item, hitem, ?_⟩
  cases item with
  | binary t s =>
    rw [List.mem_singleton.mp ha]
    exact List.mem_singleton_self _
  | dir t kind files symlinks =>
    have hbase : kind.base site t = .ok none ∧ a ∈ files.filterMap fun (name, f) =>
        if h : f.source = "" then some ⟨t ++ "/" ++ name, name, f, h⟩ else none := by
      cases kind with
      | thirdPartyDir sourceDir distribution => cases ha
      | srcDir => exact ⟨rfl, ha⟩
      | configDir => exact ⟨rfl, ha⟩
      | binaryDir => exact ⟨rfl, ha⟩
    obtain ⟨⟨name, f⟩, hf, hsome⟩ := List.mem_filterMap.mp hbase.2
    dsimp only at hsome
    split_ifs at hsome with hsource
    cases hsome
    simp only [Item.outcomes, hbase.1]
    exact List.mem_append_left _ (List.mem_map.mpr ⟨(name, f), hf, rfl⟩)
  | patch t s pre path => cases ha
  | copied t s source => cases ha
  | unknown t kind => cases ha

/-! ## The receipt of targets that are served once

The receipt is a dictionary by target, so an entry for one target may overwrite another. Where a
target is reported by one item only, its entry is that report.
-/

theorem attempt_target {sub : String} {served : Except Err (Outcome β)}
    (h : ∀ o, served = .ok o → ∃ bytes status sha256, o = .wrote sub bytes status sha256) :
      (attempt sub served).target = sub := by
  cases served with
  | error err => rfl
  | ok o =>
    obtain ⟨bytes, status, sha256, rfl⟩ := h o rfl
    rfl

theorem artefact_target {base : Option (String → Option β)} {name sub : String} {f : FileEntry} :
    (attempt sub (artefactFile site base name f sub)).target = sub :=
  attempt_target fun o ho => by
    obtain ⟨bytes, status, rfl, -⟩ := artefactFile_wrote ho
    exact ⟨bytes, status, _, rfl⟩

theorem links_names (target : String) : ∀ symlinks : List (String × String),
    ((links site target symlinks).map Outcome.target).Sublist
    ((symlinks.map fun (link, _) => target ++ "/" ++ link) ++ [target])
  | [] => List.nil_sublist _
  | (link, dest) :: rest => by
    unfold links
    split
    · exact List.sublist_append_right _ [target]
    · exact (links_names target rest).cons_cons _

/-- An item reports its own targets, each at most once. -/
theorem item_names (item : Item) : ((item.outcomes site).map Outcome.target).Sublist
    item.names := by
  cases item with
  | patch t s pre path =>
    have htarget : (attempt t (patchFile site t s pre path)).target = t :=
      attempt_target fun o ho => by
      obtain ⟨post, rfl, -⟩ := patchFile_wrote ho
      exact ⟨post, _, _, rfl⟩
    simp only [Item.outcomes, Item.names, List.map_singleton, htarget]
    exact List.Sublist.refl _
  | copied t s source =>
    have htarget : (attempt t (copiedFile site t s source)).target = t :=
      attempt_target fun o ho => by
      obtain ⟨data, rfl, -⟩ := copiedFile_wrote ho
      exact ⟨data, _, _, rfl⟩
    simp only [Item.outcomes, Item.names, List.map_singleton, htarget]
    exact List.Sublist.refl _
  | binary t s =>
    simp only [Item.outcomes, Item.names, List.map_singleton, artefact_target]
    exact List.Sublist.refl _
  | dir t kind files symlinks =>
    simp only [Item.outcomes, Item.names]
    cases kind.base site t with
    | error err => exact (List.sublist_append_right _ [t]).trans (List.sublist_append_right _ _)
    | ok base =>
      have htargets : (files.map fun (name, f) => attempt (t ++ "/" ++ name)
          (artefactFile site base name f (t ++ "/" ++ name))).map Outcome.target = files.map
            fun (name, _) => t ++ "/" ++ name := by
        rw [List.map_map]
        exact List.map_congr_left fun _ _ => artefact_target
      rw [List.map_append, htargets]
      exact (List.Sublist.refl _).append (links_names t symlinks)
  | unknown t kind => exact List.Sublist.refl _

theorem build_names : ∀ items : List Item, ((build site items).map Outcome.target).Sublist
    (items.flatMap Item.names)
  | [] => List.Sublist.refl _
  | item :: items => by
    unfold build
    rw [List.flatMap_cons, List.flatMap_cons, List.map_append]
    exact (item_names item).append (build_names items)

theorem record_other {target : String} : ∀ {outcomes : List (Outcome β)}
    {files : Dict String (Status × Option String)},
    target ∉ outcomes.map Outcome.target → (outcomes.foldl record files).get? target =
    files.get? target
  | [], _, _ => rfl
  | o :: outcomes, files, h => by
    rw [List.map_cons, List.mem_cons, not_or] at h
    rw [List.foldl_cons, record_other h.2]
    exact Dict.get?_set_of_ne h.1

/-- **What the receipt says** of a target that is reported once. -/
theorem receipt_files : ∀ {outcomes : List (Outcome β)}
    {files : Dict String (Status × Option String)},
    (outcomes.map Outcome.target).Nodup → o ∈ outcomes →
      (outcomes.foldl record files).get? o.target = some (o.status, o.sha256)
  | o' :: outcomes, files, hnodup, ho => by
    rw [List.map_cons, List.nodup_cons] at hnodup
    rw [List.foldl_cons]
    rcases List.mem_cons.mp ho with rfl | ho
    · rw [record_other hnodup.1]
      exact Dict.get?_set_self
    · exact receipt_files hnodup.2 ho

variable (site items) in
/-- **The overlay build.** What is written has a recorded hash or is reported as rebuilt; an
artefact that was supplied has no problem exactly where the first file that is there is valid, or
rebuilt ones are allowed; and the receipt says so of every target, where none is served twice. -/
theorem build_checked :
    (∀ target bytes status sha256, .wrote target bytes status sha256 ∈ build site items →
    sha256 = site.hash bytes ∧ ((∃ hashes, (target, hashes) ∈ items.flatMap (Item.recorded site) ∧
      site.hash bytes ∈ hashes) ∨ status = .rebuiltArtefact)) ∧
    (∀ a ∈ items.flatMap Item.artefacts, ∀ files wanted, site.artefacts = some files →
      a.entry.wanted site = .ok wanted →
      Supplied site files wanted a.name → a.outcome site ∈ build site items ∧
      ((a.outcome site).problem = none ↔
        (site.allowRebuilt = true ∨ FirstValid site files wanted a.name) ∧ ".." ∉ pathParts a.sub ∧
          site.refusesWrite (pathParts a.sub) = none)) ∧
    ((items.flatMap Item.names).Nodup → ∀ o ∈ build site items,
      (receipt (build site items)).files.get? o.target = some (o.status, o.sha256)) :=
  ⟨fun _ _ _ _ h => recorded_or_rebuilt h,
    fun _ ha _ _ hfiles hwanted hsupplied => ⟨outcome_mem ha,
    artefact_problem hfiles hwanted hsupplied⟩,
    fun hnodup _ ho => receipt_files (hnodup.sublist (build_names items)) ho⟩

end Whole

/-- A library whose bytes differ by rank: those of rank 1 under their hash, and others under the
file name. -/
def staleSite : Site String where
  hash := id
  gitApply := fun pre _ => .ok pre
  decode := String.toList
  lower := id
  installRoot := "/packages/"
  root := fun _ => .error "missing"
  imageRoot := fun _ => none
  artefacts := some fun n => if n = "rank1" then some "rank1"
    else if n = "lib.so" then some "stale" else none
  thirdParty := none
  refusesWrite := fun _ => none
  rank := none
  allowRebuilt := false

def perRankLibrary : FileEntry := ⟨"rank0", [("0", "rank0"), ("1", "rank1")], ""⟩

/-- A file under the name hides the valid one under a later hash. -/
theorem stale_hides : (∃ wanted, perRankLibrary.wanted staleSite = .ok wanted ∧ ∃ files,
    staleSite.artefacts = some files ∧ Supplied staleSite files wanted "lib.so") ∧
    (receipt (build staleSite [.dir "/opt/rdma" .srcDir [("lib.so", perRankLibrary)]
      []])).problems =
      ["/opt/rdma/lib.so differs from the measured bytes; pass --allow-rebuilt"] := by
  refine ⟨⟨_, rfl, _, rfl, "rank1", "rank1", Or.inl (by decide), rfl, by decide⟩, by decide +kernel⟩

end Ringside.Overlay

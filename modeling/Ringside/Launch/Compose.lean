import Ringside.Dict
import Ringside.Launch.Render

/-!
# Compose projects (`launch/compose.py`)

`project` renders one rank of a profile as a Compose service, whose texts refer to the values of a
`.env` file. `bakedArgv` is the `docker run` that it replaces. This file says that the two start the
same container.

* What is the same in every project is left out of the service: the build section, the shape of a
  bind mount, the devices of `--gpus all`.
* `Service.addOption` is the loop over the command line's options (`optionPairs`), with the errors
  of the flags it does not know and of the values it cannot parse (`parseMount`, `parseUlimit`).
* `readEnv` is Compose's reading of the file: the value between the quotes, literally. `resolve` is
  its interpolation of the service's texts; a key of `ulimits` is no text.
* The options of a command line are those before the position of its image. `Entry` is the common
  form in which a token and a part of the service are compared.
* `Checked` is what `sources/verify.py` checks of a profile, `Once` that nothing is said twice.
  Without them the claim fails, and `compose_drifts` says how.

Results:
* `mount_resolve`, `entry_resolve`: one option of the service says what the token of the command
  line says.
* `addOption_ok`, `collected`: the service holds every option, in order.
* `readEnv_envText`: the file gives back its values.
* `known_of_rendered`: it has the values of every reference that a rendered launch has.
* `project_equals_run`: the project is the command line.

Out of scope: docker's own reading of a flag, and YAML.
-/

namespace Ringside.Launch

open Checks Template

/-! ## The baked command line

The project is compared with the command that the baked image is started by: the template of the
profile with its options, less the mounts of the overlay, which the image holds already.
-/

def Topology.text : Topology → Token
  | .tp2 => "tp2".toList
  | .tp4 => "tp4".toList

/-- `build_image`. -/
def buildImage (site : Site) (profile : Profile) : Token :=
  let image := site.get "SWITCHLESS_BUILD_IMAGE".toList
  if image ≠ [] then image else "glm53-switchless:".toList ++ profile.topology.text

/-- The template without the mounts of the overlay. -/
def dropOverlay : List Token → List Token
  | [] => []
  | [tok] => [tok]
  | tok :: next :: rest =>
    if tok = "--mount".toList ∧ "type=bind,src=$\x7bOVERLAY_ROOT\x7d/".toList <+: next then
      dropOverlay rest
    else tok :: dropOverlay (next :: rest)

/-- `baked_profile`. -/
def bakedProfile (profile : Profile) (image : Token) : Profile :=
  { profile with
    argvTemplate := (dropOverlay profile.argvTemplate).map fun tok => if tok = profile.imageId then
      image else tok
    imageId := image }

/-- `baked_argv`. -/
def bakedArgv (profile : Profile) (site : Site) (rank : Nat) : Except Err (List Token) := do
  let image := buildImage site profile
  let site := site.erase "SWITCHLESS_IMAGE".toList
  let profile ← withOptions profile site
  render (bakedProfile profile image) site rank

/-! ## The service -/

/-- The name of a reference in the `.env` file. -/
def composeKey (key : Token) : Token := if key = "RANK".toList then
    "SWITCHLESS_RANK".toList else key

/-- `compose_token`. -/
def composeToken (tok : Token) : Except Err Token :=
  match (refs isKey tok).find? fun key => ¬ "SWITCHLESS_".toList <+: composeKey key with
  | some key => throw (.noSiteValue key)
  | none => pure ((pieces isKey tok).flatMap (Piece.escape composeKey))

/-- `VALUE_FLAGS`. -/
inductive Flag where
  | name
  | network
  | ipc
  | gpus
  | capAdd
  | securityOpt
  | device
  | ulimit
  | shmSize
  | label
  | mount
  | env
  deriving DecidableEq

def Flag.text : Flag → Token
  | .name => "--name".toList
  | .network => "--network".toList
  | .ipc => "--ipc".toList
  | .gpus => "--gpus".toList
  | .capAdd => "--cap-add".toList
  | .securityOpt => "--security-opt".toList
  | .device => "--device".toList
  | .ulimit => "--ulimit".toList
  | .shmSize => "--shm-size".toList
  | .label => "--label".toList
  | .mount => "--mount".toList
  | .env => "-e".toList

/-- The flag of a token. -/
def flagOf (tok : Token) : Option Flag :=
  [.name, .network, .ipc, .gpus, .capAdd, .securityOpt, .device, .ulimit, .shmSize, .label, .mount,
    .env].find? fun f =>
    Flag.text f = tok

structure Mount where
  source : Token
  target : Token
  readOnly : Bool
  deriving DecidableEq

structure Ulimit where
  name : Token
  soft : Int
  hard : Int
  deriving DecidableEq

/-- The last value of a key, as `dict` has it. -/
def lastOf (kv : List (Token × Token)) (key : String) : Option Token := kv.reverse.lookup key.toList

/-- A part of a mount. -/
def keyValue (part : Token) : Except Err (Token × Token) :=
  match Text.partition '=' part with
  | none => throw (.mount part)
  | some kv => pure kv

/-- `parse_mount`. -/
def parseMount (value : Token) : Except Err Mount := do
  let parts := value.splitOn ','
  let readOnly : Bool := parts.getLast? = some "readonly".toList
  let kv ← (if readOnly then parts.dropLast else parts).mapM keyValue
  if ¬ (kv.all fun p => ["type".toList, "src".toList, "dst".toList].contains p.1) = true then
    throw (.mount value)
  match lastOf kv "type", lastOf kv "src", lastOf kv "dst" with
  | some type, some src, some dst =>
    if type = "bind".toList then pure ⟨src, dst, readOnly⟩ else throw (.mount value)
  | _, _, _ => throw (.mount value)

def parseInt (value : Token) : Except Err Int :=
  match Text.int? value with
  | none => throw (.int value)
  | some n => pure n

/-- The limits of an option. -/
def parseUlimit (value : Token) : Except Err Ulimit := do
  let (name, limits) := (Text.partition '=' value).getD (value, [])
  let (soft, hard) := (Text.partition ':' limits).getD (limits, [])
  return ⟨name, ← parseInt soft, ← parseInt (if hard ≠ [] then hard else soft)⟩

structure Service where
  image : Token
  environment : List Token
  volumes : List Mount
  containerName : Option Token
  networkMode : Option Token
  ipc : Option Token
  gpus : Bool
  capAdd : List Token
  securityOpt : List Token
  devices : List Token
  ulimits : Dict Token (Int × Int)
  shmSize : Option Token
  labels : List Token
  command : List Token

/-- The service without options. -/
def Service.start : Service where
  image := "$\x7bSWITCHLESS_BUILD_IMAGE\x7d".toList
  environment := []
  volumes := []
  containerName := none
  networkMode := none
  ipc := none
  gpus := false
  capAdd := []
  securityOpt := []
  devices := []
  ulimits := Dict.empty
  shmSize := none
  labels := []
  command := []

/-- One option of the command line. -/
def Service.addOption (svc : Service) (flag value : Token) : Except Err Service :=
  match flagOf flag with
  | none => throw (.unmapped flag)
  | some f => do
    let value ← composeToken value
    match f with
    | .env => return { svc with environment := svc.environment ++ [value] }
    | .mount => return { svc with volumes := svc.volumes ++ [← parseMount value] }
    | .name => return { svc with containerName := some value }
    | .network => return { svc with networkMode := some value }
    | .ipc => return { svc with ipc := some value }
    | .gpus =>
      if value ≠ "all".toList then throw (.gpus value) else return { svc with gpus := true }
    | .capAdd => return { svc with capAdd := svc.capAdd ++ [value] }
    | .securityOpt => return { svc with securityOpt := svc.securityOpt ++ [value] }
    | .device => return { svc with devices := svc.devices ++ [value ++ ':' :: value] }
    | .ulimit => do
      let limit ← parseUlimit value
      return { svc with ulimits := svc.ulimits.set limit.name (limit.soft, limit.hard) }
    | .shmSize => return { svc with shmSize := some value }
    | .label => return { svc with labels := svc.labels ++ [value] }

/-- The options of a command line, of its first `n` tokens; a value may be the token behind them. -/
def optionPairs : List Token → Nat → List (Token × Token)
  | [], _ => []
  | [_], _ => []
  | _, 0 => []
  | flag :: value :: rest, n + 1 =>
    if flag = "-d".toList then optionPairs (value :: rest) n
      else (flag, value) :: optionPairs rest (n - 1)

/-- The tokens of the baked template, for the role of the rank. -/
def bakedTokens (profile : Profile) (rank : Nat) (image : Token) : List Token :=
    withRole (bakedProfile profile image) rank

/-- The options of the baked template. -/
def bakedOptions (profile : Profile) (rank : Nat) (image : Token) : List (Token × Token) :=
  let tokens := bakedTokens profile rank image
  optionPairs (tokens.drop 2) (tokens.idxOf image - 2)

/-- `service`. -/
def service (profile : Profile) (rank : Nat) (image : Token) : Except Err Service := do
  let tokens := bakedTokens profile rank image
  if tokens.take 2 ≠ ["docker".toList, "run".toList] ∨ tokens.count image ≠ 1 then throw .template
  let svc ← (bakedOptions profile rank image).foldlM
    (fun svc p => svc.addOption p.1 p.2) Service.start
  let command ← (tokens.drop (tokens.idxOf image + 1)).mapM composeToken
  return { svc with command := command }

/-! ## The `.env` file -/

/-- `env_values`. -/
def envValues (profile : Profile) (site : Site) (rank : Nat) (image : Token) :
    Except Err (Dict Token Token) := do
  let values ← rankValues site rank profile.ranks
  let start := (Dict.empty.set "SWITCHLESS_BUILD_IMAGE".toList image).set "SWITCHLESS_RANK".toList
    (rankText rank)
  let keys := (profile.siteVariables.map String.ofList).dedup.insertionSort (· ≤ ·)
  return (keys.map String.toList).foldl (fun env key => env.set key (values key)) start

/-- The lines of the file. -/
def envLines (profileName : Token) (rank : Nat) (values : Dict Token Token) : List Token :=
  ["# Rendered by launch/compose.py for rank ".toList ++ rankText rank ++ " of the ".toList ++
    profileName ++ " profile from the site file.".toList,
    "# Site data: keep it out of Git. ".toList ++
      "Docker Compose reads this file from the project directory.".toList] ++
    values.items.map fun kv => kv.1 ++ "='".toList ++ kv.2 ++ "'".toList

/-- `env_text`. -/
def envText (profileName : Token) (rank : Nat) (values : Dict Token Token) : Except Err Token :=
  match values.items.find? fun kv => '\'' ∈ kv.2 ∨ '\n' ∈ kv.2 with
  | some kv => throw (.quote kv.1)
  | none => pure ((envLines profileName rank values).flatMap (· ++ ['\n']))

/-- `project`. -/
def project (profile : Profile) (site : Site) (rank : Nat) :
    Except Err (Service × Dict Token Token) := do
  let image := buildImage site profile
  let profile ← withOptions profile site
  let _ ← render (bakedProfile profile image) (site.erase "SWITCHLESS_IMAGE".toList) rank
  let svc ← service profile rank image
  return (svc, ← envValues profile site rank image)

/-! ## What Compose reads

Both sides are brought into one form, `Entry`. The service's options become entries whose texts
still have references, which `resolve` replaces by the file's values; a token of the command line is
read into the same form by `readOption`. Equality of the two is equality of lists of entries.
-/

/-- An assignment of the file. -/
def readEnvLine (line : Token) : Option (Token × Token) :=
  if line = [] ∨ line.head? = some '#' then none
  else (Text.partition '=' line).map fun kv => (kv.1, kv.2.tail.dropLast)

/-- The file's value of a name. -/
def readEnv (text : Token) (name : Token) : Option Token :=
    ((text.splitOn '\n').filterMap readEnvLine).lookup name

/-- An option of the service. -/
inductive Entry where
  | text (value : Token)
  | mount (mount : Mount)
  | ulimit (limit : Ulimit)
  | allGpus
  deriving DecidableEq

/-- What the service says of a kind of option, in order. -/
def Service.entries (svc : Service) : Flag → List Entry
  | .env => svc.environment.map .text
  | .mount => svc.volumes.map .mount
  | .name => svc.containerName.toList.map .text
  | .network => svc.networkMode.toList.map .text
  | .ipc => svc.ipc.toList.map .text
  | .gpus => if svc.gpus then [.allGpus] else []
  | .capAdd => svc.capAdd.map .text
  | .securityOpt => svc.securityOpt.map .text
  | .device => svc.devices.map .text
  | .ulimit => svc.ulimits.items.map fun kv => .ulimit ⟨kv.1, kv.2.1, kv.2.2⟩
  | .shmSize => svc.shmSize.toList.map .text
  | .label => svc.labels.map .text

/-- A text of the service, with the values of the file. -/
def resolveText (env : Token → Option Token) (t : Token) : Option Token := resolve isName env t

/-- An option of the service, with the values of the file. -/
def Entry.resolve (env : Token → Option Token) : Entry → Option Entry
  | .text t => (resolveText env t).map .text
  | .mount m =>
    do return .mount ⟨← resolveText env m.source, ← resolveText env m.target, m.readOnly⟩
  | .ulimit limit => some (.ulimit limit)
  | .allGpus => some .allGpus

/-- What a token of the command line says, in the words of the service. -/
def readOption : Flag → Token → Except Err Entry
  | .mount, tok => .mount <$> parseMount tok
  | .ulimit, tok => .ulimit <$> parseUlimit tok
  | .gpus, tok => if tok ≠ "all".toList then throw (.gpus tok) else pure .allGpus
  | .device, tok => pure (.text (tok ++ ':' :: tok))
  | _, tok => pure (.text tok)

/-- The values of one kind of option. -/
def valuesOf (pairs : List (Token × Token)) (f : Flag) : List Token :=
  pairs.filterMap fun p => if flagOf p.1 = some f then some p.2 else none

/-! ## One option

A template is a list of pieces, and both sides render it piece by piece: `composeText` writes a
reference as `${KEY}` and doubles a dollar sign, `valueText` writes the value. A mount is cut at its
commas before resolution in the service and after it on the command line. The cuts are the same
because no value that a mount refers to has a comma, and the parts have the same keys.
-/

section Option

variable {env : Token → Option Token} {values : Token → Token}

/-- What a template is in the service, and on the command line. -/
def composeText (ps : List Piece) : Token := ps.flatMap (Piece.escape composeKey)

variable (values) in
def valueText (ps : List Piece) : Token := ps.flatMap (Piece.expand values)

variable (env values) in
/-- The file has the values of the references. -/
def Known (ps : List Piece) : Prop :=
  ∀ key, .ref key ∈ ps → Name (composeKey key) ∧ env (composeKey key) = some (values key)

theorem Known.mono {ps qs : List Piece} (h : Known env values ps) (hsub : ∀ p ∈ qs, p ∈ ps) :
    Known env values qs :=
  fun key hkey => h key (hsub _ hkey)

/-- A text of the service is read back. -/
theorem Known.resolve {ps : List Piece} (h : Known env values ps) :
    resolveText env (composeText ps) = some (valueText values ps) :=
  resolve_escaped (by decide) fun key hkey => ⟨(h key hkey).1.1, (h key hkey).1.2, (h key hkey).2⟩

theorem lookup_map {f : List Piece → Token} {key : Token} : ∀ qs : List (Token × List Piece),
    (qs.map fun q => (q.1, f q.2)).lookup key = (qs.lookup key).map f
  | [] => rfl
  | (k, q) :: qs => by
    rw [List.map_cons, List.lookup_cons, List.lookup_cons, lookup_map qs]
    cases key == k <;> rfl

variable (values) in
/-- The parts of a mount have the same keys on the command line. -/
theorem keyValues : ∀ {parts : List (List Piece)} {kv : List (Token × Token)},
    (parts.map composeText).mapM keyValue = .ok kv →
    (∀ p ∈ kv, '$' ∉ p.1) → ∃ qs : List (Token × List Piece),
    kv = qs.map (fun q => (q.1, composeText q.2)) ∧
      (parts.map (valueText values)).mapM keyValue =
      .ok (qs.map fun q => (q.1, valueText values q.2)) ∧
      ∀ q ∈ qs, ∃ part ∈ parts, ∀ p ∈ q.2, p ∈ part
  | [], kv, h, _ => by
    cases h
    exact ⟨[], rfl, rfl, nofun⟩
  | part :: parts, kv, h, hplain => by
    rw [List.map_cons, List.mapM_cons] at h
    obtain ⟨⟨k, w⟩, hkw, h⟩ := bind_ok.mp h
    obtain ⟨rest, hrest, h⟩ := bind_ok.mp h
    cases h
    have hpartition : Text.partition '=' (composeText part) = some (k, w) := by
      unfold keyValue at hkw
      split at hkw
      · cases hkw
      · rename_i kv hkv
        rw [hkv, Except.ok.inj hkw]
    obtain ⟨q, hw, hq, hvalue⟩ := partition_escape (by decide) hpartition
      (hplain _ List.mem_cons_self)
    obtain ⟨qs, rfl, hqs, hmem⟩ := keyValues hrest fun p hp => hplain p (List.mem_cons_of_mem _ hp)
    refine ⟨(k, q) :: qs, by rw [List.map_cons, hw]; rfl, ?_, ?_⟩
    · have hkv : keyValue (valueText values part) = .ok (k, valueText values q) := by
        unfold keyValue valueText
        rw [hvalue]
        rfl
      rw [List.map_cons, List.mapM_cons, hkv, hqs]
      rfl
    · intro q' hq'
      rcases List.mem_cons.mp hq' with rfl | hq'
      · exact ⟨part, List.mem_cons_self, hq⟩
      · obtain ⟨part', hpart', hsub⟩ := hmem q' hq'
        exact ⟨part', List.mem_cons_of_mem _ hpart', hsub⟩

/-- A part that is a word without a dollar sign is that word on the command line. -/
theorem value_of_compose {ps : List Piece} {word : Token} (h : composeText ps = word)
    (hplain : '$' ∉ word) :
    valueText values ps = word := by
  rw [← h] at hplain ⊢
  exact expand_plain hplain

/-- What is read of a mount. -/
theorem parseMount_ok {value : Token} {m : Mount} : parseMount value = .ok m ↔
    ∃ kv, (if (value.splitOn ',').getLast? = some "readonly".toList then
    (value.splitOn ',').dropLast
        else value.splitOn ',').mapM keyValue = .ok kv ∧
      (∀ p ∈ kv, p.1 ∈ ["type".toList, "src".toList, "dst".toList]) ∧
        lastOf kv "type" = some "bind".toList ∧
      lastOf kv "src" = some m.source ∧ lastOf kv "dst" = some m.target ∧
      m.readOnly = decide ((value.splitOn ',').getLast? = some "readonly".toList) := by
  have hall : ∀ kv : List (Token × Token), (kv.all fun p =>
    ["type".toList, "src".toList, "dst".toList].contains p.1) = true ↔
      ∀ p ∈ kv, p.1 ∈ ["type".toList, "src".toList, "dst".toList] := fun kv => by
    simp only [List.all_eq_true, List.contains_iff_mem]
  unfold parseMount
  simp only [bind_ok, decide_eq_true_eq]
  constructor
  · rintro ⟨kv, hkv, h⟩
    obtain ⟨hkeys, h⟩ := guarded_ok.mp h
    rw [not_not, hall] at hkeys
    split at h
    · rename_i type src dst htype hsrc hdst
      split_ifs at h with hbind
      cases h
      exact ⟨kv, hkv, hkeys, hbind ▸ htype, hsrc, hdst, rfl⟩
    · cases h
  · rintro ⟨kv, hkv, hkeys, htype, hsrc, hdst, hro⟩
    refine ⟨kv, hkv, guarded_ok.mpr ⟨not_not.mpr ((hall kv).mpr hkeys), ?_⟩⟩
    simp only [htype, hsrc, hdst, if_true, ← hro]
    rfl

theorem splitOn_compose {ps : List Piece} (hknown : Known env values ps) :
    (composeText ps).splitOn ',' = (ps.splitOn (.char ',')).map composeText := by
  refine splitOn_flatMap (by decide) fun p hp hne => ?_
  cases p with
  | char c =>
    have hc : c ≠ ',' := fun heq => hne (by rw [heq])
    change ',' ∉ if c = '$' then ['$', '$'] else [c]
    split_ifs
    · decide
    · simpa using hc.symm
  | ref key =>
    have hname := (hknown key hp).1.2
    simp only [Piece.escape, List.mem_cons, List.mem_append, not_or]
    exact ⟨by decide, by decide, fun hc => absurd (hname _ hc) (by decide), by decide, by simp⟩

theorem splitOn_value {ps : List Piece} (hcomma : ∀ key, .ref key ∈ ps → ',' ∉ values key) :
    (valueText values ps).splitOn ',' = (ps.splitOn (.char ',')).map (valueText values) := by
  have hd : Piece.expand values (.char ',') = [','] := rfl
  refine splitOn_flatMap hd fun p hp hne => ?_
  cases p with
  | char c =>
    have hc : c ≠ ',' := fun heq => hne (by rw [heq])
    simpa [Piece.expand] using hc.symm
  | ref key => exact hcomma key hp

/-- A mount is read-only in the service where it is on the command line. -/
theorem readOnly_iff {parts : List (List Piece)} {kv : List (Token × Token)}
    (hkv : (if (parts.map composeText).getLast? = some "readonly".toList then
      (parts.map (valueText values)).dropLast
      else parts.map (valueText values)).mapM keyValue = .ok kv) :
    (parts.map (valueText values)).getLast? = some "readonly".toList ↔
      (parts.map composeText).getLast? = some "readonly".toList := by
  constructor
  · intro hvalue
    by_contra hcompose
    rw [if_neg hcompose] at hkv
    obtain ⟨_, hread⟩ := ok_of_mapM hkv _ (List.mem_of_getLast? hvalue)
    rw [show keyValue "readonly".toList = .error (.mount "readonly".toList) from rfl] at hread
    cases hread
  · intro hcompose
    rw [List.getLast?_map] at hcompose ⊢
    obtain ⟨part, hpart, hword⟩ := Option.map_eq_some_iff.mp hcompose
    rw [hpart]
    exact congrArg some (value_of_compose hword (by decide))

/-- **A mount** is parsed as its token on the command line is. -/
theorem mount_resolve {ps : List Piece} {m : Mount} (h : parseMount (composeText ps) = .ok m)
    (hknown : Known env values ps)
    (hcomma : ∀ key, .ref key ∈ ps → ',' ∉ values key) :
    ∃ m', Entry.resolve env (.mount m) = some (.mount m') ∧
      parseMount (valueText values ps) = .ok m' := by
  have hparts : ∀ part ∈ ps.splitOn (.char ','), ∀ p ∈ part, p ∈ ps := fun part hpart =>
    mem_of_mem_splitOn hpart
  obtain ⟨kv, hkv, hkeys, htype, hsrc, hdst, hro⟩ := parseMount_ok.mp h
  have hvalue := splitOn_value hcomma
  rw [splitOn_compose hknown] at hkv hro
  generalize ps.splitOn (.char ',') = parts at hkv hro hparts hvalue
  have hplain : ∀ p ∈ kv, '$' ∉ p.1 := fun p hp => by
    have hkey := hkeys p hp
    simp only [List.mem_cons, List.not_mem_nil, or_false] at hkey
    rcases hkey with heq | heq | heq <;> rw [heq] <;> decide
  -- the parts that are read are those of the template
  obtain ⟨body, hsub, hbody⟩ : ∃ body : List (List Piece), (∀ part ∈ body, part ∈ parts) ∧ ∀ f :
    List Piece → Token,
      (if (parts.map composeText).getLast? = some "readonly".toList then (parts.map f).dropLast
      else parts.map f) = body.map f := by
    by_cases hlast : (parts.map composeText).getLast? = some "readonly".toList
    · exact ⟨parts.dropLast, fun part => List.mem_of_mem_dropLast, fun f => by
        rw [if_pos hlast, List.map_dropLast]⟩
    · exact ⟨parts, fun part hpart => hpart, fun f => by rw [if_neg hlast]⟩
  rw [hbody] at hkv
  obtain ⟨qs, rfl, hqs, hmem⟩ := keyValues values hkv hplain
  have hknown' : ∀ q ∈ qs, Known env values q.2 := fun q hq => by
    obtain ⟨part, hpart, hsub'⟩ := hmem q hq
    exact hknown.mono fun p hp => hparts part (hsub part hpart) p (hsub' p hp)
  have hlast : ∀ (f : List Piece → Token) (key : String),
    lastOf (qs.map fun q => (q.1, f q.2)) key =
      (qs.reverse.lookup key.toList).map f := fun f key => by
    unfold lastOf
    rw [← List.map_reverse, lookup_map]
  rw [hlast] at htype hsrc hdst
  obtain ⟨type, htype', hbind⟩ := Option.map_eq_some_iff.mp htype
  obtain ⟨src, hsrc', hsource⟩ := Option.map_eq_some_iff.mp hsrc
  obtain ⟨dst, hdst', htarget⟩ := Option.map_eq_some_iff.mp hdst
  have hfound : ∀ {key : Token} {q : List Piece}, qs.reverse.lookup key = some q →
    Known env values q := fun {key q} hq => by
    obtain ⟨before, after, hqs, -⟩ := List.lookup_eq_some_iff.mp hq
    exact hknown' (key, q) (List.mem_reverse.mp (hqs ▸ List.mem_append_right _ List.mem_cons_self))
  have hiff : (parts.map (valueText values)).getLast? = some "readonly".toList ↔
      (parts.map composeText).getLast? = some "readonly".toList :=
      readOnly_iff (by rw [hbody]; exact hqs)
  refine ⟨⟨valueText values src, valueText values dst, m.readOnly⟩, ?_, parseMount_ok.mpr
    ⟨qs.map fun q => (q.1, valueText values q.2), ?_, ?_, ?_, ?_, ?_, ?_⟩⟩
  · simp only [Entry.resolve, ← hsource, ← htarget, (hfound hsrc').resolve, (hfound hdst').resolve]
    rfl
  · simp only [hvalue, hiff, hbody]
    exact hqs
  · intro p hp
    obtain ⟨q, hq, rfl⟩ := List.mem_map.mp hp
    exact hkeys (q.1, composeText q.2) (List.mem_map.mpr ⟨q, hq, rfl⟩)
  · rw [hlast, htype', Option.map_some, value_of_compose hbind (by decide)]
  · rw [hlast, hsrc', Option.map_some]
  · rw [hlast, hdst', Option.map_some]
  · simp only [hvalue, hiff, hro]

/-- A token of the service. -/
theorem composeToken_ok {tok t : Token} : composeToken tok = .ok t ↔
    (∀ key ∈ refs isKey tok, "SWITCHLESS_".toList <+: composeKey key) ∧
    t = composeText (pieces isKey tok) := by
  unfold composeToken
  cases hfind : (refs isKey tok).find? fun key => ¬ "SWITCHLESS_".toList <+: composeKey key with
  | some key =>
    have hkey := List.find?_some hfind
    exact ⟨nofun, fun h => absurd (h.1 key (List.mem_of_find?_eq_some hfind))
      (of_decide_eq_true hkey)⟩
  | none =>
    have hall := List.find?_eq_none.mp hfind
    refine ⟨fun h => ⟨fun key hkey => ?_, (Except.ok.inj h).symm⟩, fun h =>
      congrArg Except.ok h.2.symm⟩
    by_contra hnot
    exact hall key hkey (decide_eq_true hnot)

/-- **One option** of the service says what its token on the command line says. -/
theorem entry_resolve {f : Flag} {tok t : Token} {e : Entry} (ht : composeToken tok = .ok t)
    (he : readOption f t = .ok e) (hknown : Known env values (pieces isKey tok))
    (hcomma : f = .mount → ∀ key ∈ refs isKey tok, ',' ∉ values key)
    (hulimit : f = .ulimit → '$' ∉ tok) :
    ∃ e', e.resolve env = some e' ∧ readOption f (substitute isKey values tok) = .ok e' := by
  obtain ⟨-, rfl⟩ := composeToken_ok.mp ht
  have htext : (e = .text (composeText (pieces isKey tok)) ∧
      readOption f (substitute isKey values tok) = .ok (.text (substitute isKey values tok))) →
        ∃ e', e.resolve env = some e' ∧ readOption f (substitute isKey values tok) = .ok e' := by
    rintro ⟨rfl, hread⟩
    refine ⟨_, ?_, hread⟩
    simp only [Entry.resolve, hknown.resolve]
    rfl
  cases f with
  | mount =>
    obtain ⟨m, hm, rfl⟩ := map_ok.mp he
    obtain ⟨m', hresolve, hparse⟩ := mount_resolve hm hknown fun key hkey =>
      hcomma rfl key (mem_refs.mpr hkey)
    exact ⟨_, hresolve, map_ok.mpr ⟨m', hparse, rfl⟩⟩
  | ulimit =>
    have hplain := hulimit rfl
    obtain ⟨limit, hlimit, rfl⟩ := map_ok.mp he
    have hself : composeText (pieces isKey tok) = tok := escape_plain hplain
    rw [hself] at hlimit
    rw [substitute_plain hplain]
    exact ⟨_, rfl, map_ok.mpr ⟨limit, hlimit, rfl⟩⟩
  | gpus =>
    obtain ⟨hall, he⟩ := checked_ok.mp he
    rw [not_not] at hall
    cases he
    refine ⟨_, rfl, checked_ok.mpr ⟨not_not.mpr (value_of_compose hall (by decide)), rfl⟩⟩
  | device =>
    cases he
    have hpair : ∀ g : Piece → Token, g (.char ':') = [':'] →
        (pieces isKey tok ++ .char ':' :: pieces isKey tok).flatMap g =
          (pieces isKey tok).flatMap g ++ ':' :: (pieces isKey tok).flatMap g := fun g hg => by
      rw [List.flatMap_append, List.flatMap_cons, hg, List.singleton_append]
    have hboth : Known env values (pieces isKey tok ++ .char ':' :: pieces isKey tok) :=
      fun key hkey => by
      simp only [List.mem_append, List.mem_cons, reduceCtorEq, false_or, or_self] at hkey
      exact hknown key hkey
    refine ⟨_, ?_, rfl⟩
    have hresolve := hboth.resolve
    unfold composeText valueText at hresolve
    rw [hpair _ (by decide), hpair _ rfl] at hresolve
    simp only [Entry.resolve, composeText, hresolve]
    rfl
  | name | network | ipc | capAdd | securityOpt | shmSize | label | env =>
    cases he
    exact htext ⟨rfl, rfl⟩

end Option

/-! ## All options

The loop keeps what each kind of option has collected so far. A kind of which the service has one
value, or one value for a name, keeps the last one, so the induction needs that nothing is said
twice (`Once`).
-/

section Options

/-- The flags that a service has one value of. -/
def Flag.single : Flag → Bool
  | .name | .network | .ipc | .gpus | .shmSize => true
  | _ => false

/-- The name of a limit. -/
def ulimitName (tok : Token) : Token := ((Text.partition '=' tok).getD (tok, [])).1

/-- Nothing is said twice, and the names of limits are literal. -/
structure Once (pairs : List (Token × Token)) : Prop where
  single : ∀ f, f.single = true → (valuesOf pairs f).length ≤ 1
  ulimit_names : ((valuesOf pairs .ulimit).map ulimitName).Nodup
  ulimit_plain : ∀ tok ∈ valuesOf pairs .ulimit, '$' ∉ tok

variable {svc svc' : Service} {flag value : Token} {pairs : List (Token × Token)}

theorem valuesOf_append (p : Token × Token) (f : Flag) :
    valuesOf (pairs ++ [p]) f = valuesOf pairs f ++ if flagOf p.1 = some f then [p.2] else [] := by
  unfold valuesOf
  rw [List.filterMap_append, List.filterMap_cons]
  split_ifs <;> rfl

/-- **One option** adds its entry, and nothing else. -/
theorem addOption_ok (h : svc.addOption flag value = .ok svc') : ∃ f t e, flagOf flag = some f ∧
    composeToken value = .ok t ∧
    readOption f t = .ok e ∧ svc'.image = svc.image ∧
    (∀ g, g ≠ f → svc'.entries g = svc.entries g) ∧
      ((f.single = true → svc.entries f = []) →
      (∀ limit, e = .ulimit limit → limit.name ∉ svc.ulimits.keys) →
        svc'.entries f = svc.entries f ++ [e]) := by
  unfold Service.addOption at h
  split at h
  · cases h
  rename_i f hf
  obtain ⟨t, ht, h⟩ := bind_ok.mp h
  cases f with
  | mount =>
    obtain ⟨m, hm, h⟩ := bind_ok.mp h
    cases h
    refine ⟨_, t, _, hf, ht, map_ok.mpr ⟨m, hm, rfl⟩, rfl, fun g hg => ?_, fun _ _ => by
      simp [Service.entries]⟩
    cases g <;> first | rfl | exact absurd rfl hg
  | ulimit =>
    obtain ⟨limit, hlimit, h⟩ := bind_ok.mp h
    cases h
    refine ⟨_, t, _, hf, ht, map_ok.mpr ⟨limit, hlimit, rfl⟩, rfl, fun g hg =>
      ?_, fun _ hfresh => ?_⟩
    · cases g <;> first | rfl | exact absurd rfl hg
    · have hitems : (svc.ulimits.set limit.name (limit.soft, limit.hard)).items =
          svc.ulimits.items ++ [(limit.name, (limit.soft, limit.hard))] := by
        unfold Dict.set
        rw [dif_neg (hfresh limit rfl)]
      simp only [Service.entries, hitems, List.map_append, List.map_singleton]
  | gpus =>
    obtain ⟨hall, h⟩ := checked_ok.mp h
    cases h
    refine ⟨_, t, .allGpus, hf, ht, checked_ok.mpr ⟨hall, rfl⟩, rfl, fun g hg =>
      ?_, fun hone _ => ?_⟩
    · cases g <;> first | rfl | exact absurd rfl hg
    · rw [hone rfl]
      rfl
  | name | network | ipc | shmSize =>
    cases h
    refine ⟨_, t, _, hf, ht, rfl, rfl, fun g hg => ?_, fun hone _ => ?_⟩
    · cases g <;> first | rfl | exact absurd rfl hg
    · rw [hone rfl]
      rfl
  | capAdd | securityOpt | device | label | env =>
    cases h
    refine ⟨_, t, _, hf, ht, rfl, rfl, fun g hg => ?_, fun _ _ => by simp [Service.entries]⟩
    cases g <;> first | rfl | exact absurd rfl hg

theorem exists_of_forall₂ {α β : Type} {r : α → β → Prop} : ∀ {l : List α} {l' : List β},
    List.Forall₂ r l l' →
    ∀ {b : β}, b ∈ l' → ∃ a ∈ l, r a b
  | _, _, .nil, _, hb => by cases hb
  | _, _, .cons (a := a) h hrest, b, hb => by
    rcases List.mem_cons.mp hb with rfl | hb
    · exact ⟨a, List.mem_cons_self, h⟩
    · obtain ⟨a', ha', hr⟩ := exists_of_forall₂ hrest hb
      exact ⟨a', List.mem_cons_of_mem _ ha', hr⟩

theorem Once.initial {p : Token × Token} (h : Once (pairs ++ [p])) : Once pairs where
  single := fun f hf => by
    have := h.single f hf
    rw [valuesOf_append, List.length_append] at this
    omega
  ulimit_names := by
    have := h.ulimit_names
    rw [valuesOf_append, List.map_append] at this
    exact this.of_append_left
  ulimit_plain := fun tok htok => h.ulimit_plain tok
    (by rw [valuesOf_append]; exact List.mem_append_left _ htok)

/-- A limit is read under its name. -/
theorem ulimit_name {tok t : Token} {limit : Ulimit} (ht : composeToken tok = .ok t)
    (hplain : '$' ∉ tok)
    (he : readOption .ulimit t = .ok (.ulimit limit)) : limit.name = ulimitName tok := by
  obtain ⟨-, rfl⟩ := composeToken_ok.mp ht
  have hself : composeText (pieces isKey tok) = tok := escape_plain hplain
  rw [hself] at he
  obtain ⟨limit', hparse, heq⟩ := map_ok.mp he
  cases heq
  obtain ⟨soft, -, hparse⟩ := bind_ok.mp hparse
  obtain ⟨hard, -, hparse⟩ := bind_ok.mp hparse
  cases hparse
  rfl

/-- **The service holds every option**, in the order of its kind. -/
theorem collected : ∀ {pairs : List (Token × Token)} {svc : Service},
    pairs.foldlM (fun svc p => svc.addOption p.1 p.2) Service.start = .ok svc → Once pairs →
      svc.image = Service.start.image ∧ (∀ p ∈ pairs, ∃ f, flagOf p.1 = some f) ∧ ∀ f,
      List.Forall₂ (fun tok e => ∃ t, composeToken tok = .ok t ∧
        readOption f t = .ok e) (valuesOf pairs f) (svc.entries f) := by
  intro pairs
  induction pairs using List.reverseRecOn with
  | nil =>
    intro svc h _
    cases h
    refine ⟨rfl, nofun, fun f => ?_⟩
    cases f <;> exact List.Forall₂.nil
  | append_singleton pairs p ih =>
    intro svc h honce
    rw [List.foldlM_append] at h
    obtain ⟨svc₀, hprefix, h⟩ := bind_ok.mp h
    obtain ⟨svc₁, hadd, h⟩ := bind_ok.mp h
    cases h
    obtain ⟨himage, hflags, hentries⟩ := ih hprefix honce.initial
    obtain ⟨f, t, e, hf, ht, he, hsame, hother, hown⟩ := addOption_ok hadd
    refine ⟨hsame.trans himage, fun q hq => ?_, fun g => ?_⟩
    · rcases List.mem_append.mp hq with hq | hq
      · exact hflags q hq
      · rw [List.mem_singleton.mp hq]
        exact ⟨f, hf⟩
    · rw [valuesOf_append, hf]
      by_cases hg : g = f
      · subst hg
        rw [if_pos rfl, hown ?_ ?_]
        · exact List.rel_append (hentries g) (List.Forall₂.cons ⟨t, ht, he⟩ List.Forall₂.nil)
        · -- a second one would be said twice
          intro hsingle
          have hone := honce.single g hsingle
          rw [valuesOf_append, hf, if_pos rfl, List.length_append, List.length_singleton] at hone
          have hlength := (hentries g).length_eq
          exact List.length_eq_zero_iff.mp (by omega)
        · rintro limit rfl hmem
          obtain rfl : g = .ulimit := by
            cases g with
            | ulimit => rfl
            | mount => obtain ⟨m, -, hm⟩ := map_ok.mp he; cases hm
            | gpus => obtain ⟨-, hgpus⟩ := checked_ok.mp he; cases hgpus
            | name | network | ipc | capAdd | securityOpt | device | shmSize | label | env =>
              cases he
          have hplain := honce.ulimit_plain p.2 (by rw [valuesOf_append, hf, if_pos rfl]; simp)
          obtain ⟨v, hv⟩ := Dict.mem_keys.mp hmem
          -- the entry of that name comes from an option before
          have hentry : Entry.ulimit ⟨limit.name, v.1, v.2⟩ ∈ svc₀.entries .ulimit :=
            List.mem_map.mpr ⟨_, hv, rfl⟩
          obtain ⟨tok, htok, t', ht', he'⟩ := exists_of_forall₂ (hentries .ulimit) hentry
          have hname := ulimit_name ht' (honce.initial.ulimit_plain tok htok) he'
          have hown := ulimit_name ht hplain he
          have hnames := honce.ulimit_names
          rw [valuesOf_append, hf, if_pos rfl, List.map_append, List.map_singleton,
            List.nodup_append] at hnames
          exact hnames.2.2 _ (List.mem_map.mpr ⟨tok, htok, hname.symm⟩)
            _ (List.mem_singleton_self _) hown
      · rw [if_neg fun heq => hg (Option.some.inj heq).symm, List.append_nil, hother g hg]
        exact hentries g

end Options

/-! ## Reading the file

`env_text` refuses a value with a quote or a line break, so a line of the file ends where its
assignment does, and the text between the quotes is the value.
-/

section EnvFile

variable {values : Dict Token Token}

theorem splitOn_lines {sep : Char} : ∀ {lines : List Token}, (∀ line ∈ lines, sep ∉ line) →
    (lines.flatMap (· ++ [sep])).splitOn sep = lines ++ [[]]
  | [], _ => rfl
  | line :: lines, h => by
    rw [List.flatMap_cons, List.append_assoc, List.singleton_append,
      List.splitOn_append_cons_self_of_not_mem (h line List.mem_cons_self),
      splitOn_lines fun l hl => h l (List.mem_cons_of_mem _ hl)]
    rfl

theorem rankText_digit {rank : Nat} {c : Char} (hc : c ∈ rankText rank) : c.isDigit = true := by
  unfold rankText at hc
  rw [Nat.toString_eq_repr, Nat.toList_repr] at hc
  exact Nat.isDigit_of_mem_toDigits (by decide) (by decide) hc

theorem readEnvLine_value {k v : Token} (hk : Name k) :
    readEnvLine (k ++ "='".toList ++ v ++ "'".toList) = some (k, v) := by
  obtain ⟨hne, hname⟩ := hk
  have hhead : ∀ c, (k ++ "='".toList ++ v ++ "'".toList).head? = some c → isName c = true := by
    intro c hc
    obtain ⟨d, rest, rfl⟩ := List.exists_cons_of_ne_nil hne
    cases hc
    exact hname _ List.mem_cons_self
  have hline : k ++ "='".toList ++ v ++ "'".toList = k ++ '=' :: ('\'' :: (v ++ ['\''])) := by simp
  unfold readEnvLine
  rw [if_neg, hline, Text.partition_append fun h => absurd (hname _ h) (by decide)]
  · simp
  · rintro (hnil | hcomment)
    · simp at hnil
    · exact absurd (hhead _ hcomment) (by decide)

theorem lookup_items : ∀ (items : List (Token × Token)) (k : Token),
    items.lookup k = (items.find? fun kv => kv.1 = k).map Prod.snd
  | [], _ => rfl
  | (k', v) :: items, k => by
    rw [List.lookup_cons, List.find?_cons, lookup_items items k]
    by_cases h : k' = k
    · subst h
      simp
    · have h' : (k == k') = false := by simpa using Ne.symm h
      simp [h, h']

/-- **The file gives back its values**, for names. -/
theorem readEnv_envText {profileName text : Token} {rank : Nat}
    (h : envText profileName rank values = .ok text)
    (hnames : ∀ k ∈ values.keys, Name k) (hprofile : '\n' ∉ profileName) :
      readEnv text = values.get? := by
  unfold envText at h
  split at h
  · cases h
  rename_i hfind
  cases h
  have hplain : ∀ kv ∈ values.items, '\n' ∉ kv.2 := fun kv hkv hmem =>
    List.find?_eq_none.mp hfind kv hkv (decide_eq_true (Or.inr hmem))
  have hkey : ∀ kv ∈ values.items, Name kv.1 := fun kv hkv =>
    hnames _ (List.mem_map.mpr ⟨kv, hkv, rfl⟩)
  have hlines : ∀ line ∈ envLines profileName rank values, '\n' ∉ line := by
    intro line hline
    rcases List.mem_append.mp hline with hhead | hitem
    · rcases List.mem_cons.mp hhead with rfl | hhead
      · simp only [List.mem_append, not_or]
        exact ⟨⟨⟨⟨by decide, fun hc => absurd (rankText_digit hc) (by decide)⟩, by decide⟩,
          hprofile⟩, by decide⟩
      · rw [List.mem_singleton.mp hhead]
        decide
    · obtain ⟨kv, hkv, rfl⟩ := List.mem_map.mp hitem
      simp only [List.mem_append, not_or]
      exact ⟨⟨⟨fun hc => absurd ((hkey kv hkv).2 _ hc) (by decide), by decide⟩,
        hplain kv hkv⟩, by decide⟩
  funext k
  have hcomment : ∀ line : Token, line.head? = some '#' → readEnvLine line = none :=
    fun line hline => if_pos (Or.inr hline)
  have hitems : (values.items.map fun kv => kv.1 ++ "='".toList ++ kv.2 ++ "'".toList).filterMap
    readEnvLine = values.items := by
    rw [List.filterMap_map]
    calc values.items.filterMap _ = values.items.filterMap some :=
          List.filterMap_congr fun kv hkv => readEnvLine_value (hkey kv hkv)
      _ = values.items := List.filterMap_some
  have hread : (envLines profileName rank values ++ [[]]).filterMap readEnvLine = values.items := by
    unfold envLines
    rw [List.filterMap_append, List.filterMap_append, hitems,
      List.filterMap_cons_none (hcomment _ rfl),
      List.filterMap_cons_none (hcomment _ rfl), List.filterMap_nil, List.nil_append]
    exact List.append_nil _
  unfold readEnv Dict.get?
  rw [splitOn_lines hlines, hread, lookup_items]

theorem get?_foldl {f : Token → Token} {k : Token} : ∀ {keys : List Token} {d : Dict Token Token},
    (keys.foldl (fun d key => d.set key (f key)) d).get? k = if k ∈ keys then
    some (f k) else d.get? k
  | [], _ => by simp
  | key :: keys, d => by
    rw [List.foldl_cons, get?_foldl]
    by_cases hk : k = key
    · subst hk
      simp
    · rw [Dict.get?_set_of_ne hk]
      simp [hk]

end EnvFile

/-! ## The project and the command line

What is left is that the launch provides what the lemmas above ask for. `Checked` holds of the
profile with its options as it does without, every token of the template comes from the profile or
is the image, and a reference in it is the rank or a site variable, which the file has.
-/

section Whole

/-- What is checked of a profile: its image is a digest, and its site variables are names, those of
its references. -/
structure Checked (p : Profile) : Prop where
  digest : "sha256:".toList <+: p.imageId
  names : ∀ k ∈ p.siteVariables, Name k
  rank_free : "SWITCHLESS_RANK".toList ∉ p.siteVariables
  image_free : "SWITCHLESS_BUILD_IMAGE".toList ∉ p.siteVariables
  covers : ∀ tok ∈ p.argvTemplate ++ (p.head ++ p.worker), ∀ key ∈ refs isKey tok,
    key ∈ ["RANK".toList, "ROLE_ARGS".toList, "OVERLAY_ROOT".toList] ∨ key ∈ p.siteVariables

variable {profile p : Profile} {site : Site} {rank : Nat} {image : Token}

theorem mem_dropOverlay {tok : Token} (hmount : tok ≠ "--mount".toList)
    (hoverlay : ¬ "type=bind,src=$\x7bOVERLAY_ROOT\x7d/".toList <+: tok) : ∀ {argv : List Token},
      tok ∈ argv → tok ∈ dropOverlay argv
  | [], h => by cases h
  | [_], h => h
  | t :: next :: rest, h => by
    unfold dropOverlay
    split_ifs with hdrop
    · rcases List.mem_cons.mp h with rfl | h
      · exact absurd hdrop.1 hmount
      · rcases List.mem_cons.mp h with rfl | h
        · exact absurd hdrop.2 hoverlay
        · exact mem_dropOverlay hmount hoverlay h
    · rcases List.mem_cons.mp h with rfl | h
      · exact List.mem_cons_self
      · exact List.mem_cons_of_mem _ (mem_dropOverlay hmount hoverlay h)

theorem mem_of_mem_dropOverlay {tok : Token} : ∀ {argv : List Token},
    tok ∈ dropOverlay argv → tok ∈ argv
  | [], h => by cases h
  | [_], h => h
  | t :: next :: rest, h => by
    unfold dropOverlay at h
    split_ifs at h
    · exact List.mem_cons_of_mem _ (List.mem_cons_of_mem _ (mem_of_mem_dropOverlay h))
    · rcases List.mem_cons.mp h with rfl | h
      · exact List.mem_cons_self
      · exact List.mem_cons_of_mem _ (mem_of_mem_dropOverlay h)

/-- A token of the baked command line is one of the profile, or the image. -/
theorem mem_bakedTokens (himage : refs isKey image = []) {tok : Token}
    (h : tok ∈ bakedTokens p rank image) :
    tok ∈ p.argvTemplate ++ (p.head ++ p.worker) ∨ tok = image := by
  obtain ⟨t, ht, htok⟩ := List.mem_flatMap.mp h
  obtain ⟨t', ht', rfl⟩ := List.mem_map.mp ht
  have hmem := mem_of_mem_dropOverlay ht'
  have hrefs : refs isKey "$\x7bROLE_ARGS\x7d".toList ≠ [] := by decide
  split_ifs at htok with hreplaced hrole hworker hrole' hworker'
  · exact absurd (hrole ▸ himage) hrefs
  · exact absurd (hrole ▸ himage) hrefs
  · exact Or.inr (List.mem_singleton.mp htok)
  · exact Or.inl (List.mem_append_right _ (List.mem_append_left _ htok))
  · exact Or.inl (List.mem_append_right _ (List.mem_append_right _ htok))
  · exact Or.inl (List.mem_append_left _ (List.mem_singleton.mp htok ▸ hmem))

/-- What the options do to a profile. -/
theorem withOptions_cases (h : withOptions profile site = .ok p) :
    (p = profile ∧ (site.get weightlessSite = [] ∨
      profile.topology = .tp4 ∧ ∃ tok ∈ profile.argvTemplate, "WEIGHTLESS_".toList <+: tok)) ∨
    (profile.topology = .tp4 ∧ ∃ before after,
      (∀ tok ∈ before ++ after, tok ∈ profile.argvTemplate ∨
      tok = weightlessMount "model.py" weightlessModelDst) ∧
      p = { profile with
        argvTemplate := before ++ weightlessExtra ++ after
        siteVariables := weightlessSite :: profile.siteVariables }) := by
  unfold withOptions at h
  split_ifs at h with hoff htopology hany
  · exact Or.inl ⟨(Except.ok.inj h).symm, Or.inl hoff⟩
  · obtain ⟨tok, htok, hprefix⟩ := List.any_eq_true.mp hany
    rw [not_not] at htopology
    exact Or.inl ⟨(Except.ok.inj h).symm, Or.inr ⟨htopology, tok, htok,
      List.isPrefixOf_iff_prefix.mp hprefix⟩⟩
  · rw [not_not] at htopology
    split at h
    · rename_i hit _
      obtain ⟨-, h⟩ := guarded_ok.mp h
      refine Or.inr ⟨htopology, _, _, fun tok htok => ?_, (Except.ok.inj h).symm⟩
      rw [List.take_append_drop] at htok
      exact List.mem_or_eq_of_mem_set htok
    · cases h

/-- What is checked of a profile holds of it with the options. -/
theorem Checked.withOptions (hchecked : Checked profile) (h : withOptions profile site = .ok p) :
    Checked p := by
  rcases withOptions_cases h with ⟨rfl, -⟩ | ⟨-, before, after, hmem, rfl⟩
  · exact hchecked
  · have hmount : ∀ key ∈ refs isKey (weightlessMount "model.py" weightlessModelDst),
      key = weightlessSite := by decide +kernel
    have hextra : ∀ tok ∈ weightlessExtra, ∀ key ∈ refs isKey tok, key = weightlessSite :=
      by decide +kernel
    refine ⟨hchecked.digest, fun k hk => ?_, ?_, ?_, fun tok htok key hkey => ?_⟩
    · rcases List.mem_cons.mp hk with rfl | hk
      · decide
      · exact hchecked.names k hk
    · rw [List.mem_cons, not_or]
      exact ⟨by decide, hchecked.rank_free⟩
    · rw [List.mem_cons, not_or]
      exact ⟨by decide, hchecked.image_free⟩
    · have hcases : (tok ∈ profile.argvTemplate ++ (profile.head ++ profile.worker)) ∨
          tok = weightlessMount "model.py" weightlessModelDst ∨ tok ∈ weightlessExtra := by
        rcases List.mem_append.mp htok with htok | htok
        · rcases List.mem_append.mp htok with htok | htok
          · rcases List.mem_append.mp htok with htok | htok
            · exact (hmem tok (List.mem_append_left _ htok)).imp (List.mem_append_left _) Or.inl
            · exact Or.inr (Or.inr htok)
          · exact (hmem tok (List.mem_append_right _ htok)).imp (List.mem_append_left _) Or.inl
        · exact Or.inl (List.mem_append_right _ htok)
      rcases hcases with hold | rfl | hnew
      · exact (hchecked.covers tok hold key hkey).imp_right (List.mem_cons_of_mem _)
      · exact Or.inr (hmount key hkey ▸ List.mem_cons_self)
      · exact Or.inr (hextra tok hnew key hkey ▸ List.mem_cons_self)

/-- The options are not turned on twice. -/
theorem withOptions_baked (hchecked : Checked profile) (h : withOptions profile site = .ok p)
    (image : Token) :
    withOptions (bakedProfile p image) site = .ok (bakedProfile p image) := by
  by_cases hoff : site.get weightlessSite = []
  · unfold withOptions
    rw [if_pos hoff]
    rfl
  obtain ⟨htopology, tok, htok, hprefix⟩ : p.topology = .tp4 ∧ ∃ tok ∈ p.argvTemplate,
    "WEIGHTLESS_".toList <+: tok := by
    rcases withOptions_cases h with ⟨rfl, hon | hon⟩ | ⟨htopology, before, after, -, rfl⟩
    · exact absurd hon hoff
    · exact hon
    · refine ⟨htopology, "WEIGHTLESS_STEER_ALPHA=2.0".toList, ?_, by decide⟩
      exact List.mem_append_left _ (List.mem_append_right _ (by decide))
  have hdigest := (hchecked.withOptions h).digest
  have hfirst : tok.head? = some 'W' := by
    obtain ⟨rest, rfl⟩ := hprefix
    rfl
  have hkept : tok ∈ (bakedProfile p image).argvTemplate := by
    refine List.mem_map.mpr ⟨tok, mem_dropOverlay ?_ ?_ htok, if_neg ?_⟩
    · rintro rfl
      cases hfirst
    · rintro ⟨rest, rfl⟩
      cases hfirst
    · rintro rfl
      obtain ⟨rest, hrest⟩ := hdigest
      rw [← hrest] at hfirst
      cases hfirst
  unfold Launch.withOptions
  rw [if_neg hoff, if_neg (by rw [not_not]; exact htopology),
    if_pos (List.any_eq_true.mpr ⟨tok, hkept, List.isPrefixOf_iff_prefix.mpr hprefix⟩)]
  rfl

/-- What the file holds. -/
theorem envValues_spec {env : Dict Token Token} (hchecked : Checked p)
    (h : envValues p site rank image = .ok env) :
    ∃ values, rankValues site rank p.ranks = .ok values ∧
    env.get? "SWITCHLESS_BUILD_IMAGE".toList = some image ∧
      env.get? "SWITCHLESS_RANK".toList = some (rankText rank) ∧
      (∀ k ∈ p.siteVariables, env.get? k = some (values k)) ∧
      ∀ k ∈ env.keys, Name k := by
  obtain ⟨values, hvalues, h⟩ := bind_ok.mp h
  cases h
  have hmem : ∀ k, k ∈ ((p.siteVariables.map String.ofList).dedup.insertionSort (· ≤ ·)).map
    String.toList ↔ k ∈ p.siteVariables := fun k => by
    simp only [List.mem_map, List.mem_insertionSort, List.mem_dedup]
    constructor
    · rintro ⟨s, ⟨k', hk', rfl⟩, rfl⟩
      rwa [String.toList_ofList]
    · exact fun hk => ⟨_, ⟨k, hk, rfl⟩, String.toList_ofList⟩
  refine ⟨values, hvalues, ?_, ?_, fun k hk => ?_, fun k hk => ?_⟩
  · rw [get?_foldl, if_neg (by rw [hmem]; exact hchecked.image_free),
      Dict.get?_set_of_ne (by decide), Dict.get?_set_self]
  · rw [get?_foldl, if_neg (by rw [hmem]; exact hchecked.rank_free), Dict.get?_set_self]
  · rw [get?_foldl, if_pos ((hmem k).mpr hk)]
  · obtain ⟨v, hv⟩ := Dict.mem_keys_iff.mp hk
    rw [get?_foldl] at hv
    split_ifs at hv with hsite
    · exact hchecked.names k ((hmem k).mp hsite)
    · by_cases hrank : k = "SWITCHLESS_RANK".toList
      · rw [hrank]
        decide
      by_cases hbuild : k = "SWITCHLESS_BUILD_IMAGE".toList
      · rw [hbuild]
        decide
      rw [Dict.get?_set_of_ne hrank, Dict.get?_set_of_ne hbuild] at hv
      cases hv

/-- **The file has the values** of every reference that has one and is let through. -/
theorem known_of_rendered {env : Dict Token Token} {values : Token → Token} {tok t : Token}
    (hchecked : Checked p) (henv : envValues p site rank image = .ok env)
    (hvalues : rankValues (site.erase "SWITCHLESS_IMAGE".toList) rank p.ranks = .ok values)
    (htok : tok ∈ p.argvTemplate ++ (p.head ++ p.worker) ∨ refs isKey tok = [])
    (hcompose : composeToken tok = .ok t) (hrendered : ∀ key ∈ refs isKey tok, values key ≠ []) :
      Known env.get? values (pieces isKey tok) := by
  intro key hkey
  have hkey := mem_refs.mpr hkey
  have hvalue := hrendered key hkey
  have hname := name_of_value hvalues hvalue
  obtain ⟨values', hvalues', -, hrank, hsite, -⟩ := envValues_spec hchecked henv
  obtain ⟨values'', hvalues'', hsame⟩ := rankValues_erase hvalues
  obtain rfl := Except.ok.inj (hvalues'.symm.trans hvalues'')
  have hprefix := (composeToken_ok.mp hcompose).1 key hkey
  have hdeclared := htok.elim (fun h => hchecked.covers tok h key hkey) fun h => by
    rw [h] at hkey
    cases hkey
  by_cases hr : key = "RANK".toList
  · unfold composeKey
    rw [if_pos hr, hr, value_rank hvalues]
    exact ⟨by decide, hrank⟩
  · unfold composeKey at hprefix ⊢
    rw [if_neg hr] at hprefix ⊢
    have himage : key ≠ "SWITCHLESS_IMAGE".toList := by
      rintro rfl
      exact hvalue (value_image hvalues)
    refine ⟨hname, ?_⟩
    rcases hdeclared with hspecial | hvariable
    · simp only [List.mem_cons, List.not_mem_nil, or_false] at hspecial
      rcases hspecial with rfl | rfl | rfl
      · exact absurd rfl hr
      · exact absurd hprefix (by decide)
      · exact absurd hprefix (by decide)
    · rw [hsite key hvariable, hsame key himage]

/-! ### The positions of the options

`optionPairs` walks the command line by position, and rendering keeps positions. A flag is literal
text on both sides, so both lists of pairs have the same flags, each with the token behind it.
-/

theorem optionPairs_map {σ : Token → Token} (hdetached : σ "-d".toList = "-d".toList) :
    ∀ {l : List Token} {n : Nat},
    (∀ p ∈ optionPairs l n, σ p.1 = p.1) → optionPairs (l.map σ) n = (optionPairs l n).map
    fun p => (p.1, σ p.2)
  | [], _, _ => rfl
  | [_], _, _ => rfl
  | _ :: _ :: _, 0, _ => rfl
  | flag :: value :: rest, n + 1, h => by
    unfold optionPairs at h
    rw [List.map_cons, List.map_cons]
    unfold optionPairs
    by_cases hd : flag = "-d".toList
    · rw [if_pos hd] at h ⊢
      rw [if_pos (by rw [hd, hdetached]), ← List.map_cons, optionPairs_map hdetached h]
    · rw [if_neg hd] at h ⊢
      have hflag : σ flag = flag := h (flag, value) List.mem_cons_self
      rw [if_neg (by rwa [hflag]), hflag, optionPairs_map hdetached fun p hp =>
        h p (List.mem_cons_of_mem _ hp), List.map_cons]

/-- A value stands behind its flag. -/
theorem behind_flag {p : Token × Token} : ∀ {l : List Token} {n : Nat}, p ∈ optionPairs l n →
    ∀ first : Bool,
    (p.2, decide (p.1 = "--mount".toList)) ∈ l.zip (first :: l.map fun tok =>
    decide (tok = "--mount".toList))
  | [], _, h, _ => by cases h
  | [_], _, h, _ => by cases h
  | _ :: _ :: _, 0, h, _ => by cases h
  | flag :: value :: rest, n + 1, h, first => by
    unfold optionPairs at h
    rw [List.map_cons, List.zip_cons_cons]
    by_cases hd : flag = "-d".toList
    · rw [if_pos hd] at h
      exact List.mem_cons_of_mem _ (behind_flag h _)
    · rw [if_neg hd] at h
      rcases List.mem_cons.mp h with rfl | h
      · exact List.mem_cons_of_mem
          _ (by rw [List.map_cons, List.zip_cons_cons]; exact List.mem_cons_self)
      · rw [List.map_cons, List.zip_cons_cons]
        exact List.mem_cons_of_mem _ (List.mem_cons_of_mem _ (behind_flag h _))

theorem marked_of_pair {p : Token × Token} {tokens : List Token} {n : Nat}
    (h : p ∈ optionPairs (tokens.drop 2) n) :
    (p.2, decide (p.1 = "--mount".toList)) ∈ marked tokens := by
  match tokens, h with
  | [], h => cases h
  | [_], h => cases h
  | a :: b :: rest, h =>
    unfold marked
    rw [List.map_cons, List.zip_cons_cons, List.map_cons, List.zip_cons_cons]
    exact List.mem_cons_of_mem _ (List.mem_cons_of_mem _ (behind_flag h _))

theorem valuesOf_map {σ : Token → Token} (pairs : List (Token × Token)) (f : Flag) :
    valuesOf (pairs.map fun p => (p.1, σ p.2)) f = (valuesOf pairs f).map σ := by
  unfold valuesOf
  rw [List.filterMap_map, List.map_filterMap]
  refine List.filterMap_congr fun p _ => ?_
  dsimp only [Function.comp]
  split_ifs <;> rfl

theorem flagOf_text {tok : Token} {f : Flag} (h : flagOf tok = some f) : tok = f.text := by
  unfold flagOf at h
  have htext := List.find?_some h
  exact (of_decide_eq_true htext).symm

theorem flag_plain (f : Flag) : '$' ∉ f.text := by
  cases f <;> decide

/-- A service equals a command line whose image is at a position: the options of each kind, in
order, the image and the command; nothing is left unresolved. -/
structure Equals (env : Token → Option Token) (svc : Service) (argv : List Token)
    (position : Nat) : Prop where
  start : argv.take 2 = ["docker".toList, "run".toList]
  image : ∃ image, argv[position]? = some image ∧ resolveText env svc.image = some image
  flags : ∀ p ∈ optionPairs (argv.drop 2) (position - 2), ∃ f, flagOf p.1 = some f
  options : ∀ f, ∃ entries : List Entry, (svc.entries f).map (Entry.resolve env) =
    entries.map some ∧
    (valuesOf (optionPairs (argv.drop 2) (position - 2)) f).map (readOption f) = entries.map .ok
  command : svc.command.map (resolveText env) = (argv.drop (position + 1)).map some

/-- What the options of the template become. -/
theorem options_equal {env : Token → Option Token} {values : Token → Token}
    {pairs : List (Token × Token)} {f : Flag}
    {entries : List Entry} (h : List.Forall₂ (fun tok e => ∃ t, composeToken tok = .ok t ∧
      readOption f t = .ok e)
      (valuesOf pairs f) entries) (hknown : ∀ p ∈ pairs, ∀ t, composeToken p.2 = .ok t →
        Known env values (pieces isKey p.2))
    (hcomma : ∀ p ∈ pairs, p.1 = "--mount".toList → ∀ key ∈ refs isKey p.2, ',' ∉ values key)
    (hulimit : ∀ tok ∈ valuesOf pairs .ulimit, '$' ∉ tok) : ∃ resolved : List Entry,
      entries.map (Entry.resolve env) = resolved.map some ∧
        ((valuesOf pairs f).map (substitute isKey values)).map (readOption f) =
        resolved.map .ok := by
  have hone : ∀ tok ∈ valuesOf pairs f, ∀ e, (∃ t, composeToken tok = .ok t ∧
    readOption f t = .ok e) →
      ∃ e', e.resolve env = some e' ∧ readOption f (substitute isKey values tok) = .ok e' := by
    rintro tok htok e ⟨t, ht, he⟩
    obtain ⟨p, hp, hvalue⟩ := List.mem_filterMap.mp htok
    split_ifs at hvalue with hf
    cases hvalue
    exact entry_resolve ht he (hknown p hp t ht)
      (fun hmount => hcomma p hp (by rw [flagOf_text hf, hmount]; rfl))
      fun hlimit => hulimit p.2 (hlimit ▸ htok)
  generalize valuesOf pairs f = toks at h hone
  induction h with
  | nil => exact ⟨[], rfl, rfl⟩
  | cons he _ ih =>
    obtain ⟨e', hresolve, hread⟩ := hone _ List.mem_cons_self _ he
    obtain ⟨resolved, hrest, hreads⟩ := ih fun tok htok => hone tok (List.mem_cons_of_mem _ htok)
    refine ⟨e' :: resolved, ?_, ?_⟩
    · rw [List.map_cons, List.map_cons, hresolve, hrest]
    · rw [List.map_cons, List.map_cons, List.map_cons, hread, hreads]

/-- The command of the service is that of the command line. -/
theorem command_equal {env : Token → Option Token} {values : Token → Token} :
    ∀ {toks command : List Token},
    toks.mapM composeToken = .ok command → (∀ tok ∈ toks, ∀ t, composeToken tok = .ok t →
    Known env values (pieces isKey tok)) →
      command.map (resolveText env) = (toks.map (substitute isKey values)).map some
  | [], command, h, _ => by
    cases h
    rfl
  | tok :: toks, command, h, hknown => by
    rw [List.mapM_cons] at h
    obtain ⟨t, ht, h⟩ := bind_ok.mp h
    obtain ⟨rest, hrest, h⟩ := bind_ok.mp h
    cases h
    have hresolve := (hknown tok List.mem_cons_self t ht).resolve
    rw [← (composeToken_ok.mp ht).2] at hresolve
    rw [List.map_cons, List.map_cons, List.map_cons, hresolve,
      command_equal hrest fun tok htok => hknown tok (List.mem_cons_of_mem _ htok)]
    rfl

/-- **The Compose project is the command line it replaces**: every text of the service resolves with
the values that are written, to the options of the baked command line, each kind in its order, and
to its image and command. -/
theorem project_equals_run {svc : Service} {env : Dict Token Token} {text : Token}
    (h : project profile site rank = .ok (svc, env))
      (htext : envText profile.topology.text rank env = .ok text)
    (hchecked : Checked profile) (himage : refs isKey (buildImage site profile) = [])
    (honce : ∀ p, withOptions profile site = .ok p →
      Once (bakedOptions p rank (buildImage site profile))) :
    ∃ p argv, withOptions profile site = .ok p ∧ bakedArgv profile site rank = .ok argv ∧
      Equals (readEnv text) svc argv ((bakedTokens p rank (buildImage site profile)).idxOf
        (buildImage site profile)) := by
  obtain ⟨p, hp, h⟩ := bind_ok.mp h
  obtain ⟨argv, hrender, h⟩ := bind_ok.mp h
  obtain ⟨svc', hservice, h⟩ := bind_ok.mp h
  obtain ⟨env', henv, h⟩ := bind_ok.mp h
  cases h
  generalize himg : buildImage site profile = image at *
  have hchecked' := hchecked.withOptions hp
  refine ⟨p, argv, hp, ?_, ?_⟩
  · unfold bakedArgv
    rw [himg]
    exact bind_ok.mpr ⟨p, by rw [withOptions_erase, hp], hrender⟩
  obtain ⟨p', values, hp', hvalues, rfl, hgood⟩ := render_spec hrender get_erase_self
  rw [withOptions_erase, withOptions_baked hchecked hp image] at hp'
  obtain rfl := Except.ok.inj hp'
  change rankValues _ rank p.ranks = _ at hvalues
  change ∀ t ∈ marked (bakedTokens p rank image), _ at hgood
  obtain ⟨values', hvalues', hbuild, -, -, hnames⟩ := envValues_spec hchecked' henv
  rw [readEnv_envText htext hnames (by cases profile.topology <;> decide)]
  -- every token that the service takes has its values in the file
  have hknown : ∀ tok ∈ bakedTokens p rank image, ∀ t, composeToken tok = .ok t →
      Known env.get? values (pieces isKey tok) := fun tok htok t ht => by
    have hcases := (mem_bakedTokens himage htok).imp_right fun heq =>
      (congrArg (refs isKey) heq).trans himage
    refine known_of_rendered hchecked' henv hvalues hcases ht fun key hkey => ?_
    rw [← marked_fst (bakedTokens p rank image)] at htok
    obtain ⟨t', ht', rfl⟩ := List.mem_map.mp htok
    exact (hgood t' ht' key hkey).1
  obtain ⟨hhead, hservice⟩ := guarded_ok.mp hservice
  obtain ⟨svc₀, hfold, hservice⟩ := bind_ok.mp hservice
  obtain ⟨command, hcommand, hservice⟩ := bind_ok.mp hservice
  cases hservice
  rw [not_or, not_not, not_not] at hhead
  obtain ⟨hstart, hcount⟩ := hhead
  have honce' := honce p hp
  obtain ⟨hsame, hflags, hentries⟩ := collected hfold honce'
  have hplain : ∀ q ∈ bakedOptions p rank image, substitute isKey values q.1 = q.1 := fun q hq => by
    obtain ⟨f, hf⟩ := hflags q hq
    rw [flagOf_text hf]
    exact substitute_plain (flag_plain f)
  have hmarked : ∀ q ∈ bakedOptions p rank image, (q.2, decide (q.1 = "--mount".toList)) ∈ marked
    (bakedTokens p rank image) :=
    fun q hq => marked_of_pair hq
  have hpairs : optionPairs (((bakedTokens p rank image).map (substitute isKey values)).drop 2)
      ((bakedTokens p rank image).idxOf image - 2) = (bakedOptions p rank image).map fun q =>
        (q.1, substitute isKey values q.2) := by
    rw [← List.map_drop]
    exact optionPairs_map (substitute_plain (by decide)) hplain
  refine ⟨?_, ⟨image, ?_, ?_⟩, fun q hq => ?_, fun f => ?_, ?_⟩
  · change ((bakedTokens p rank image).map _).take 2 = _
    rw [← List.map_take, hstart, List.map_cons, List.map_singleton, substitute_plain (by decide),
      substitute_plain (by decide)]
  · change ((bakedTokens p rank image).map _)[_]? = _
    rw [List.getElem?_map, List.getElem?_idxOf (List.count_pos_iff.mp (by omega)), Option.map_some,
      substitute_of_refs himage]
  · have href : Known env.get? (fun _ => image) [.ref "SWITCHLESS_BUILD_IMAGE".toList] :=
      fun key hkey => by
      obtain rfl : key = "SWITCHLESS_BUILD_IMAGE".toList := by simpa using hkey
      exact ⟨by decide, hbuild⟩
    have hresolve := href.resolve
    simp only [valueText, List.flatMap_singleton, Piece.expand] at hresolve
    rw [hsame]
    exact hresolve
  · obtain ⟨q', hq', rfl⟩ := List.mem_map.mp (hpairs ▸ hq)
    exact hflags q' hq'
  · have hcomma : ∀ q ∈ bakedOptions p rank image, q.1 = "--mount".toList → ∀ key ∈ refs isKey q.2,
      ',' ∉ values key :=
      fun q hq hmount key hkey hmem => by
        have hvalue := (hgood _ (hmarked q hq) key hkey).2
        unfold badValue at hvalue
        exact of_decide_eq_false hvalue (Or.inr ⟨decide_eq_true hmount, hmem⟩)
    obtain ⟨resolved, hresolved, hread⟩ := options_equal (hentries f)
      (fun q hq t ht => hknown q.2 (List.of_mem_zip (hmarked q hq)).1 t ht) hcomma
        honce'.ulimit_plain
    refine ⟨resolved, ?_, ?_⟩
    · cases f <;> exact hresolved
    · rw [← hread, ← valuesOf_map, ← hpairs]
      rfl
  · change command.map _ = _
    rw [command_equal hcommand fun tok htok => hknown tok (List.mem_of_mem_drop htok),
      List.map_drop]
    rfl

end Whole

/-! ## A small launch -/

def smallProfile : Profile where
  topology := .tp4
  ranks := 2
  imageId := "sha256:base".toList
  argvTemplate :=
    ["docker".toList, "run".toList, "-d".toList, "--network".toList, "host".toList,
      "--mount".toList,
      "type=bind,src=$\x7bSWITCHLESS_MODEL_DIR\x7d,dst=/models,readonly".toList, "-e".toList,
      "RANK=$\x7bRANK\x7d".toList,
      "--ulimit".toList, "memlock=-1:-1".toList, "sha256:base".toList, "$\x7bROLE_ARGS\x7d".toList]
  head := ["--port".toList, "$\x7bSWITCHLESS_API_PORT\x7d".toList]
  worker := ["--headless".toList]
  siteVariables := ["SWITCHLESS_API_PORT".toList, "SWITCHLESS_MODEL_DIR".toList]

/-- A site whose directory has a dollar sign and an equals sign. -/
def smallGet (k : Token) : Option Token :=
  if k = "SWITCHLESS_MODEL_DIR".toList then some "/m$$=1".toList
  else if k = "SWITCHLESS_API_PORT".toList then some "8000".toList
  else none

theorem smallGet_names (k : Token) (h : smallGet k ≠ none) : Name k := by
  unfold smallGet at h
  split_ifs at h with hdir hport
  · rw [hdir]
    decide
  · rw [hport]
    decide
  · exact absurd rfl h

def smallSite : Site := ⟨smallGet, smallGet_names⟩

/-- The head of the small launch. -/
theorem small_project : ∃ svc env text p argv, project smallProfile smallSite 0 = .ok (svc, env) ∧
    envText smallProfile.topology.text 0 env = .ok text ∧
    bakedArgv smallProfile smallSite 0 = .ok argv ∧
      Equals (readEnv text) svc argv ((bakedTokens p 0 (buildImage smallSite smallProfile)).idxOf
        (buildImage smallSite smallProfile)) := by
  have hruns : (match project smallProfile smallSite 0 with
      | .ok (_, env) => (envText smallProfile.topology.text 0 env).toOption.isSome
      | .error _ => false) = true := by decide +kernel
  split at hruns
  · rename_i svc env hproject
    obtain ⟨text, htext⟩ := Option.isSome_iff_exists.mp hruns
    have htext : envText smallProfile.topology.text 0 env = .ok text := by
      cases hwritten : envText smallProfile.topology.text 0 env with
      | error err =>
        rw [hwritten] at htext
        cases htext
      | ok text' =>
        rw [hwritten] at htext
        exact congrArg Except.ok (Option.some.inj htext)
    obtain ⟨p, argv, -, hargv, hequals⟩ := project_equals_run hproject htext
      ⟨by decide +kernel, by decide +kernel, by decide +kernel, by decide +kernel, by
        decide +kernel⟩ (by decide +kernel)
      fun p hp => by
        obtain rfl : smallProfile = p := Except.ok.inj hp
        refine ⟨fun f hf => ?_, by decide +kernel, by decide +kernel⟩
        cases f <;> decide +kernel
    exact ⟨svc, env, text, p, argv, hproject, htext, hargv, hequals⟩
  · cases hruns

/-- A network that is given twice, an image with a reference, and a reference that is no site
variable. -/
def twoNetworks : Profile :=
  { smallProfile with
    argvTemplate := ["docker".toList, "run".toList, "--network".toList, "bridge".toList] ++
      smallProfile.argvTemplate.drop 3 }

def templatedGet (k : Token) : Option Token :=
  if k = "SWITCHLESS_BUILD_IMAGE".toList then some "image-$\x7bSWITCHLESS_API_PORT\x7d".toList
    else smallGet k

theorem templatedGet_names (k : Token) (h : templatedGet k ≠ none) : Name k := by
  unfold templatedGet at h
  split_ifs at h with himage
  · rw [himage]
    decide
  · exact smallGet_names k h

def templatedSite : Site := ⟨templatedGet, templatedGet_names⟩

/-- The service of a launch says what its command line says. -/
def Projects (profile : Profile) (site : Site) (rank : Nat) : Prop :=
  ∀ svc env text p argv, project profile site rank = .ok (svc, env) →
    envText profile.topology.text rank env = .ok text → withOptions profile site = .ok p →
    bakedArgv profile site rank = .ok argv →
    Equals (readEnv text) svc argv
      ((bakedTokens p rank (buildImage site profile)).idxOf (buildImage site profile))

/-- The service has fewer networks, another image, or a reference without a value. -/
def differs (env : Token → Option Token) (svc : Service) (argv : List Token)
    (position : Nat) : Bool :=
  (svc.entries .network).length != (valuesOf (optionPairs (argv.drop 2) (position - 2))
    .network).length ||
    argv[position]? != resolveText env svc.image || svc.command.any fun tok =>
    (resolveText env tok).isNone

theorem not_equals_of_differs {env : Token → Option Token} {svc : Service} {argv : List Token}
    {position : Nat}
    (h : differs env svc argv position = true) : ¬ Equals env svc argv position := fun hequals => by
  simp only [differs, Bool.or_eq_true, bne_iff_ne, List.any_eq_true] at h
  rcases h with (hnetwork | himage) | ⟨tok, htok, hnone⟩
  · obtain ⟨entries, hresolve, hread⟩ := hequals.options .network
    have hservice := congrArg List.length hresolve
    have hargv := congrArg List.length hread
    simp only [List.length_map] at hservice hargv
    exact hnetwork (hservice.trans hargv.symm)
  · obtain ⟨image, hargv, hservice⟩ := hequals.image
    exact himage (hargv.trans hservice.symm)
  · have hmem := List.mem_map_of_mem (f := resolveText env) htok
    rw [hequals.command] at hmem
    obtain ⟨t, -, ht⟩ := List.mem_map.mp hmem
    rw [← ht] at hnone
    cases hnone

theorem not_projects {profile : Profile} {site : Site} {rank : Nat}
    (h : (match project profile site rank, withOptions profile site,
      bakedArgv profile site rank with
      | .ok (svc, env), .ok p, .ok argv => match envText profile.topology.text rank env with
        | .ok text => differs (readEnv text) svc argv
            ((bakedTokens p rank (buildImage site profile)).idxOf (buildImage site profile))
        | .error _ => false
      | _, _, _ => false) = true) : ¬ Projects profile site rank := by
  split at h
  · rename_i svc env p argv hproject hp hargv
    split at h
    · rename_i text htext
      exact fun hall => not_equals_of_differs h (hall svc env text p argv hproject htext hp hargv)
    · cases h
  · cases h

/-- A repeated option is the last one only, a reference in the image is text in the service, and an
undeclared one has no value. -/
theorem compose_drifts : ¬ Projects twoNetworks smallSite 0 ∧
    ¬ Projects smallProfile templatedSite 0 ∧
    ¬ Projects { smallProfile with siteVariables := [] } smallSite 0 :=
  ⟨not_projects (by decide +kernel), not_projects (by decide +kernel),
    not_projects (by decide +kernel)⟩

end Ringside.Launch

import Ringside.Checks
import Ringside.Template
import Mathlib.Data.List.Sort

/-!
# Rendering a launch (`launch/render.py`)

A profile holds the template of a `docker run`. `render` turns on the options of a site, puts in the
role's arguments, and substitutes the values of the site for one rank.

* A token is its characters. `Site` is a site file with its invariant: the keys are names, as
  `read_site` has them; a rank is a number.
* `withOptions` has the constants of the optional parts (mounts and environment of the weightless
  directory) as the source has them. A template does not end in `--mount`.
* `rankValues` has the empty text for what is missing; `missingKeys` and `badKeys` are the two
  checks of a token, in their order.
* An error is what it reports, not its text (`Err`).

Results:
* `name_of_value`: whatever has a value is a name.
* `render_spec`: a launch that is rendered has a good value for every reference.

Out of scope: reading a site file, and starting what was rendered. `Compose` renders the same
profile as a service.
-/

namespace Ringside.Launch

open Checks Template

/-- A token of a command line. -/
abbrev Token := List Char

inductive Topology where
  | tp2
  | tp4
  deriving DecidableEq

/-- `profile.json`. -/
structure Profile where
  topology : Topology
  ranks : Nat
  imageId : Token
  argvTemplate : List Token
  head : List Token
  worker : List Token
  siteVariables : List Token

/-- What is raised. -/
inductive Err where
  | weightlessTopology
  | modelMounts (count : Nat)
  | noImage
  | addresses (count ranks : Nat)
  | rankRange (ranks : Nat)
  | index
  | lacks (keys : List String)
  | bad (keys : List String) (notPinned : Bool)
  | noSiteValue (key : Token)
  | template
  | unmapped (flag : Token)
  | gpus (value : Token)
  | mount (value : Token)
  | int (value : Token)
  | quote (key : Token)

/-! ## Sites -/

/-- A character of a name. -/
def isName (c : Char) : Bool := c.isUpper || c.isDigit || c == '_'

/-- A character of a placeholder's key. -/
def isKey (c : Char) : Bool := isName c ∨ c ∈ [':', '.', '/', '-']

def Name (k : Token) : Prop := k ≠ [] ∧ ∀ c ∈ k, isName c = true

theorem name_iff (k : Token) : (!k.isEmpty && k.all isName) = true ↔ Name k := by
  unfold Name
  simp

instance (k : Token) : Decidable (Name k) := decidable_of_iff _ (name_iff k)

/-- A site file. -/
structure Site where
  get? : Token → Option Token
  names : ∀ k, get? k ≠ none → Name k

namespace Site

variable (site : Site)

/-- `site.get(key, '')`. -/
def get (k : Token) : Token := (site.get? k).getD []

theorem names_erase (k k' : Token) (h : (if k' = k then none else site.get? k') ≠ none) :
    Name k' := by
  split_ifs at h
  · exact absurd rfl h
  · exact site.names k' h

/-- The site without one key. -/
def erase (k : Token) : Site :=
  ⟨fun k' => if k' = k then none else site.get? k', names_erase site k⟩

end Site

/-! ## The options of a site -/

def weightlessSite : Token := "SWITCHLESS_WEIGHTLESS_DIR".toList

def weightlessModelDst : Token :=
    "/usr/local/lib/python3.12/dist-packages/vllm/models/glm5next/nvidia/model.py".toList

def weightlessVectorDst : Token := "/opt/weightless/control.gguf".toList

def weightlessEnv : List Token :=
  ["WEIGHTLESS_STEER_PATH=".toList ++ weightlessVectorDst, "WEIGHTLESS_STEER_ALPHA=2.0".toList,
    "WEIGHTLESS_STEER_HOOK=post_layer".toList,
    "WEIGHTLESS_VECTOR_SHA256=0ccce6b748f87da81505ff2bc3ca82429110940b6c0def60063d304785ccc00c".toList]

/-- A bind mount of a file of the weightless directory. -/
def weightlessMount (file : String) (dst : Token) : Token :=
  "type=bind,src=$\x7b".toList ++ weightlessSite ++ "\x7d/".toList ++ file.toList ++
    ",dst=".toList ++ dst ++ ",readonly".toList

/-- The tokens before the image. -/
def weightlessExtra : List Token :=
  ["--mount".toList, weightlessMount "control.gguf" weightlessVectorDst] ++ weightlessEnv.flatMap
    fun env => ["-e".toList, env]

/-- The positions of the `model.py` mounts. -/
def modelMounts (argv : List Token) : List Nat :=
  (List.range (argv.length - 1)).filter fun i =>
    argv[i]? = some "--mount".toList ∧
      (",dst=".toList ++ weightlessModelDst ++ [',']) <:+: ((argv[i + 1]?).getD [] ++ [','])

/-- `with_options`. -/
def withOptions (profile : Profile) (site : Site) : Except Err Profile :=
  if site.get weightlessSite = [] then pure profile
  else if profile.topology ≠ .tp4 then throw .weightlessTopology
  else if profile.argvTemplate.any fun tok => "WEIGHTLESS_".toList.isPrefixOf tok then pure profile
  else
    match modelMounts profile.argvTemplate with
    | [hit] => do
      let argv := profile.argvTemplate.set (hit + 1) (weightlessMount "model.py" weightlessModelDst)
      if profile.imageId ∉ argv then throw .noImage
      let image := argv.idxOf profile.imageId
      return { profile with
        argvTemplate := argv.take image ++ weightlessExtra ++ argv.drop image
        siteVariables := weightlessSite :: profile.siteVariables }
    | hits => throw (.modelMounts hits.length)

/-! ## The values of a rank -/

section RankValues

variable (site : Site) (rank ranks : Nat)

/-- The digits of the rank. -/
def rankText : Token := (toString rank).toList

/-- `SWITCHLESS_RANK<N>_…`. -/
def rankKey (name : String) : Token := "SWITCHLESS_RANK".toList ++ rankText rank ++ name.toList

/-- The entries of a comma list. -/
def commaList (s : Token) : List Token := ((s.splitOn ',').map Text.strip).filter (· ≠ [])

/-- The host address, if there is one. -/
def hostIp : Except Err (Option Token) :=
  let explicit := site.get (rankKey rank "_HOST_IP")
  let ips := commaList (site.get "SWITCHLESS_RANK_HOST_IPS".toList)
  if explicit ≠ [] then pure (some explicit)
  else if ips ≠ [] then
    if ips.length ≠ ranks then throw (.addresses ips.length ranks)
    else
      match ips[rank]? with
      | none => throw .index
      | some ip => pure (some ip)
  else pure none

/-- A directory of the rank, explicit or below a root. -/
def rankDir (name : String) (root : String) : Option Token :=
  let explicit := site.get (rankKey rank name)
  let base := site.get root.toList
  if explicit ≠ [] then some explicit
  else if base ≠ [] then some (base.rdropWhile (· = '/') ++ "/rank".toList ++ rankText rank)
  else none

def containerName : Token :=
  let name := site.get (rankKey rank "_CONTAINER_NAME")
  if name ≠ [] then name
  else
    (site.get? "SWITCHLESS_CONTAINER_PREFIX".toList).getD "switchless".toList ++ "-rank".toList ++
      rankText rank

/-- `rank_values`, with the empty text for what is missing. -/
def rankValues : Except Err (Token → Token) := do
  let ip ← hostIp site rank ranks
  return fun k =>
    if k = "OVERLAY_ROOT".toList then site.get "SWITCHLESS_OVERLAY_ROOT".toList
    else if k = "RANK".toList then rankText rank
    else if k = "SWITCHLESS_CONTAINER_NAME".toList then containerName site rank
    else if k = "SWITCHLESS_PROFILES_DIR".toList then
      (rankDir site rank "_PROFILES_DIR" "SWITCHLESS_PROFILES_ROOT").getD (site.get k)
    else if k = "SWITCHLESS_JIT_CACHE_DIR".toList then
      (rankDir site rank "_JIT_CACHE_DIR" "SWITCHLESS_JIT_CACHE_ROOT").getD (site.get k)
    else if k = "SWITCHLESS_RANK_HOST_IP".toList then ip.getD (site.get k)
    else site.get k

end RankValues

/-! ## Rendering -/

/-- The template with the arguments of the rank's role. -/
def withRole (profile : Profile) (rank : Nat) : List Token :=
  profile.argvTemplate.flatMap fun tok =>
    if tok = "$\x7bROLE_ARGS\x7d".toList then
      (if rank = 0 then profile.head else profile.worker) else [tok]

/-- The tokens, each with whether it is the option of a mount. -/
def marked (tokens : List Token) : List (Token × Bool) :=
  tokens.zip (false :: tokens.map (· = "--mount".toList))

/-- What a value must not be. -/
def badValue (value : Token) (inMount : Bool) : Bool :=
  value.any (fun c => c.val < 32 ∨ c.val = 127) ∨ inMount ∧ ',' ∈ value

/-- The references of a token that lack a value. -/
def missingKeys (values : Token → Token) (tok : Token) : List Token :=
    (refs isKey tok).filter fun key => values key = []

/-- The references of a token whose value is bad there. -/
def badKeys (values : Token → Token) (tok : Token) (inMount : Bool) : List Token :=
  (refs isKey tok).filter fun key => values key ≠ [] ∧ badValue (values key) inMount

/-- `PINNED_IMAGE.fullmatch`. -/
def pinned (image : Token) : Bool :=
  let isId (s : Token) : Bool := "sha256:".toList.isPrefixOf s ∧ (s.drop 7).length = 64 ∧
    (s.drop 7).all fun c => c.isDigit || c ∈ ['a', 'b', 'c', 'd', 'e', 'f']
  match Text.partition '@' image with
  | none => isId image
  | some (name, id) => name ≠ [] ∧ name.all (fun c => !Text.isSpace c) ∧ isId id

/-- `render`. -/
def render (profile : Profile) (site : Site) (rank : Nat) : Except Err (List Token) := do
  let profile ← withOptions profile site
  if ¬ rank < profile.ranks then throw (.rankRange profile.ranks)
  let values ← rankValues site rank profile.ranks
  let tokens := marked (withRole profile rank)
  let out := tokens.map fun t => substitute isKey values t.1
  let missing := tokens.flatMap fun t => missingKeys values t.1
  let bad := tokens.flatMap fun t => badKeys values t.1 t.2
  let image := site.get "SWITCHLESS_IMAGE".toList
  if missing ≠ [] then throw (.lacks ((missing.map String.ofList).dedup.insertionSort (· ≤ ·)))
  let notPinned : Bool := image ≠ [] ∧ pinned image = false
  if bad ≠ [] ∨ notPinned then throw (.bad (bad.map String.ofList) notPinned)
  return if image = [] then out else out.map fun tok => if tok = profile.imageId then image else tok

/-! ## What has a value -/

section Values

variable {site : Site} {rank ranks : Nat} {values : Token → Token}

theorem name_of_get {k : Token} (h : site.get k ≠ []) : Name k := by
  refine site.names k fun hnone => h ?_
  unfold Site.get
  rw [hnone]
  rfl

/-- **Whatever has a value is a name.** -/
theorem name_of_value (h : rankValues site rank ranks = .ok values) {k : Token}
    (hk : values k ≠ []) : Name k := by
  obtain ⟨ip, -, hvalues⟩ := bind_ok.mp h
  cases hvalues
  dsimp only at hk
  split_ifs at hk with h1 h2 h3 h4 h5 h6
  · rw [h1]
    decide
  · rw [h2]
    decide
  · rw [h3]
    decide
  · rw [h4]
    decide
  · rw [h5]
    decide
  · rw [h6]
    decide
  · exact name_of_get hk

theorem value_rank (h : rankValues site rank ranks = .ok values) :
    values "RANK".toList = rankText rank := by
  obtain ⟨ip, -, hvalues⟩ := bind_ok.mp h
  cases hvalues
  dsimp only
  rw [if_neg (by decide), if_pos rfl]

theorem get_erase {k k' : Token} (h : k' ≠ k) : (site.erase k).get k' = site.get k' := by
  unfold Site.get Site.erase
  simp only [if_neg h]

theorem get_erase_self {k : Token} : (site.erase k).get k = [] := by
  unfold Site.get Site.erase
  simp

theorem value_image
    (h : rankValues (site.erase "SWITCHLESS_IMAGE".toList) rank ranks = .ok values) :
    values "SWITCHLESS_IMAGE".toList = [] := by
  obtain ⟨ip, -, hvalues⟩ := bind_ok.mp h
  cases hvalues
  dsimp only
  rw [if_neg (by decide), if_neg (by decide), if_neg (by decide), if_neg (by decide),
    if_neg (by decide), if_neg (by decide), get_erase_self]

theorem rankKey_ne (name : String) : rankKey rank name ≠ "SWITCHLESS_IMAGE".toList := by
  unfold rankKey
  rw [List.append_assoc]
  generalize rankText rank ++ name.toList = rest
  simp

/-- The image reference of a site is no value of its rank. -/
theorem rankValues_erase
    (h : rankValues (site.erase "SWITCHLESS_IMAGE".toList) rank ranks = .ok values) :
    ∃ values', rankValues site rank ranks = .ok values' ∧ ∀ k, k ≠ "SWITCHLESS_IMAGE".toList →
    values' k = values k := by
  have hkey : ∀ name, (site.erase "SWITCHLESS_IMAGE".toList).get (rankKey rank name) =
    site.get (rankKey rank name) :=
    fun name => get_erase (rankKey_ne name)
  have hdir : ∀ name root, root ≠ "SWITCHLESS_IMAGE" →
      rankDir (site.erase "SWITCHLESS_IMAGE".toList) rank name root = rankDir site rank name root :=
      fun name root hroot => by
    unfold rankDir
    rw [hkey, get_erase fun heq => hroot (String.toList_inj.mp heq)]
  have hip : hostIp (site.erase "SWITCHLESS_IMAGE".toList) rank ranks = hostIp site rank ranks := by
    unfold hostIp
    rw [hkey, get_erase (by decide)]
  have hname : containerName (site.erase "SWITCHLESS_IMAGE".toList) rank =
    containerName site rank := by
    have hprefix : (site.erase "SWITCHLESS_IMAGE".toList).get?
      "SWITCHLESS_CONTAINER_PREFIX".toList = site.get? "SWITCHLESS_CONTAINER_PREFIX".toList := by
      unfold Site.erase
      dsimp only
      rw [if_neg (by decide)]
    unfold containerName
    rw [hkey, hprefix]
  obtain ⟨ip, hok, hvalues⟩ := bind_ok.mp h
  cases hvalues
  refine ⟨_, bind_ok.mpr ⟨ip, hip ▸ hok, rfl⟩, fun k hk => ?_⟩
  dsimp only
  rw [hname, hdir _ _ (by decide), hdir _ _ (by decide), get_erase hk, get_erase (by decide)]

/-- The options do not read it either. -/
theorem withOptions_erase (profile : Profile) (site : Site) :
    withOptions profile (site.erase "SWITCHLESS_IMAGE".toList) = withOptions profile site := by
  unfold withOptions
  rw [get_erase (by decide)]

theorem marked_fst (tokens : List Token) : (marked tokens).map Prod.fst = tokens :=
  List.map_fst_zip (by simp)

/-- **A launch that is rendered** has a good value for every reference. -/
theorem render_spec {profile : Profile} {out : List Token} (h : render profile site rank = .ok out)
    (himage : site.get "SWITCHLESS_IMAGE".toList = []) : ∃ p values,
      withOptions profile site = .ok p ∧
      rankValues site rank p.ranks = .ok values ∧
      out = (withRole p rank).map (substitute isKey values) ∧
        ∀ t ∈ marked (withRole p rank), ∀ key ∈ refs isKey t.1, values key ≠ [] ∧
        badValue (values key) t.2 = false := by
  obtain ⟨p, hp, h⟩ := bind_ok.mp h
  obtain ⟨-, h⟩ := guarded_ok.mp h
  obtain ⟨values, hvalues, h⟩ := bind_ok.mp h
  obtain ⟨hmissing, h⟩ := guarded_ok.mp h
  obtain ⟨hbad, h⟩ := guarded_ok.mp h
  rw [if_pos himage] at h
  refine ⟨p, values, hp, hvalues, ?_, fun t ht key hkey => ?_⟩
  · rw [← Except.ok.inj h]
    conv_rhs => rw [← marked_fst (withRole p rank), List.map_map]
    rfl
  · rw [not_not, List.flatMap_eq_nil_iff] at hmissing
    rw [not_or, not_not, List.flatMap_eq_nil_iff] at hbad
    have hvalue : values key ≠ [] := fun hnil =>
      List.filter_eq_nil_iff.mp (hmissing t ht) key hkey (decide_eq_true hnil)
    refine ⟨hvalue, Bool.eq_false_of_not_eq_true fun hb => ?_⟩
    exact List.filter_eq_nil_iff.mp (hbad.1 t ht) key hkey (decide_eq_true ⟨hvalue, hb⟩)

end Values

end Ringside.Launch

import Ringside.Spmd

/-!
# Setting up the lean all-reduce and the prefill ring

Both transports are constructed by the four ranks together, over all-gathers of the CPU group: most
local steps are caught and voted, so that a failure of one rank makes all of them give up. A few are
not. Model of `LeanTp4AllReduce.__init__` with the communicator's set-up around it, and of
`configure` with `PrefillRing.__init__`.

* A rank is given by which of its local steps raise, and with which exception (`LeanRank`,
  `RingRank`). The theorems hold for all of these.
* A rank is a program that enters all-gathers (the library's `Spmd`): who enters one waits until all
  four have, and the stage of an all-gather tells which one it is. So a rank that raised early shows
  as ranks that wait for ever.
* `vote` is `_vote`: it gathers an error or none and raises for all. `Value.truthy` is Python's
  truth of what was gathered: an error without a text is false.
* Geometries are compared only, so they are of any type; the exchanged blobs, the listing of the
  failed ranks in a vote's error and the releasing of what a failed constructor holds are left out.
* `LeanCovered` and `RingCovered` are conditions on the local steps before any of this runs.

Results:
* `alike_gather`, `alike_vote`: an all-gather of one stage, and a vote, as a group.
* `leanSetup_alike_iff`, `ringSetup_alike_iff`: the failures that the votes do not cover.
* `setup_all_or_none_iff`: both set-ups together.

Out of scope: timeouts of the group, and what the transports do once they are set up.
-/

namespace Ringside.CollectiveSetup

open Spmd

/-- An exception: its class and its text. -/
structure Exn where
  cls : String
  text : String
  deriving DecidableEq, Repr

/-- `str(exc)`. -/
def Exn.str (e : Exn) : String := e.text

/-- `repr(exc)`. -/
def Exn.repr (e : Exn) : String := e.cls ++ "(" ++ e.text ++ ")"

/-- The all-gathers of the two set-ups. -/
inductive Stage where
  | importVote | preflight | allocation | leanGeometry | connect | setupVote
  | configure | create | ringGeometry
  deriving DecidableEq, Repr

/-- What a rank contributes to an all-gather. -/
inductive Value (G C : Type) where
  | error (e : Option String)
  | geometry (g : G)
  | config (c : C) (error : Option String)
  deriving DecidableEq

variable {G C : Type}

/-- Python's truth of a contribution: no error, and an error without a text, are false. -/
def Value.truthy : Value G C → Bool
  | .error none => false
  | .error (some e) => e ≠ ""
  | .geometry _ | .config _ _ => true

/-- A rank's part in an all-gather. -/
structure Gather (G C : Type) where
  stage : Stage
  value : Value G C

local instance neZeroFour : NeZero 4 := ⟨by decide⟩

/-- `all_gather_object`: every rank gets what every rank contributed. -/
def serve (q : Fin 4 → Gather G C) (_ : Fin 4) : Fin 4 → Value G C := fun r => (q r).value

abbrev Local (G C : Type) := Prog (Gather G C) (Fin 4 → Value G C)

abbrev Rank (G C : Type) := ExceptT String (Local G C)

def gather (stage : Stage) (value : Value G C) : Rank G C (Fin 4 → Value G C) :=
  liftM (Prog.ask ⟨stage, value⟩ : Local G C _)

/-- `_vote`. -/
def vote (stage : Stage) (error : Option String) : Rank G C Unit := do
  let errors ← gather stage (.error error)
  if ∃ r, (errors r).truthy then throw "failed" else pure ()

/-- A local step that is not caught. -/
def step (e : Option Exn) : Rank G C Unit :=
  match e with
  | some e => throw e.str
  | none => pure ()

theorem throw_bind {X Y : Type} (e : String) (f : X → Rank G C Y) : (throw e >>= f) = throw e := rfl

@[simp] theorem step_none : (step none : Rank G C Unit) = pure () := rfl

theorem steps_done (e e' : Option Exn) : ∃ result,
    (step e >>= fun _ => step e' : Rank G C Unit).run = .done result := by
  cases e
  · cases e' <;> exact ⟨_, rfl⟩
  · exact ⟨_, rfl⟩

inductive Outcome where
  | running | fallback | raised | off
  deriving DecidableEq, Repr

/-! ## One all-gather of the group

The ranks' programs run side by side and meet in all-gathers. `Alike` says that they met in the same
ones and ended alike, and each step of a set-up is a rule for it.
-/

section Rounds

variable {X Y : Type} {k : Fin 4 → Except String Y → Local G C Outcome}

/-- **An all-gather of one stage** gives every rank the same four values. -/
theorem alike_gather {s : Stage} {v : Fin 4 → Value G C}
    {f : Fin 4 → (Fin 4 → Value G C) → Rank G C Y} :
    Alike serve Gather.stage (fun i => (gather s (v i) >>= f i).run >>= k i) ↔
      Alike serve Gather.stage fun i => (f i v).run >>= k i :=
  alike_call (q := fun i => (⟨s, v i⟩ : Gather G C)) (k := fun i items => (f i items).run >>= k i)
    (fun _ => rfl) fun _ _ => rfl

theorem waits_gather {s : Stage} {v : Value G C} {f : (Fin 4 → Value G C) → Rank G C Y} :
    Waits (gather s v >>= f).run :=
  ⟨_, _, rfl⟩

/-- **A vote** fails on all ranks or on none. -/
theorem alike_vote {s : Stage} {e : Fin 4 → Option String} {f : Fin 4 → Rank G C Y} :
    Alike serve Gather.stage (fun i => (vote s (e i) >>= fun _ => f i).run >>= k i) ↔
      Alike serve Gather.stage fun i => if ∃ r, (Value.error (e r) : Value G C).truthy then
      k i (.error "failed")
        else (f i).run >>= k i := by
  simp only [vote, bind_assoc]
  rw [alike_gather]
  split_ifs <;> rfl

end Rounds

/-! ## The lean all-reduce

From the first vote on every failure is told to all ranks; one before it is not.
-/

/-- What a rank's local steps do while the lean all-reduce is set up. -/
structure LeanRank (G : Type) where
  /-- Mode, world size, group name and a working PyNccl communicator. -/
  wanted : Bool
  /-- The CPU group is registered. -/
  registered : Bool
  importing : Option Exn
  /-- The constructor in front of its first vote: the integers of the environment. -/
  arguments : Option Exn
  preflight : Option Exn
  allocation : Option Exn
  geometry : G
  connect : Option Exn
  /-- Starting the watchdog, after the last vote of the constructor. -/
  watchdog : Option Exn
  prepare : Option Exn

variable [DecidableEq G] [DecidableEq C]

/-- `LeanTp4AllReduce.__init__`. -/
def leanInit (f : LeanRank G) : Rank G C Unit := do
  step f.arguments
  vote .preflight (f.preflight.map Exn.str)
  vote .allocation (f.allocation.map Exn.repr)
  let statuses ← gather .leanGeometry (.geometry f.geometry)
  if ∃ r, statuses r ≠ .geometry f.geometry then throw "geometry differs"
  vote .connect (f.connect.map Exn.repr)
  step f.watchdog

/-- The error a rank reports. -/
def setupError : Except String Unit → Option String
  | .ok _ => none
  | .error e => some ("setup or compilation: " ++ e)

/-- The last vote of the set-up. -/
def leanVerdict (result : Except String Unit) : Local G C Outcome := do
  let statuses ← Prog.ask ⟨.setupVote, .error (setupError result)⟩
  if ∃ r, (statuses r).truthy then return .fallback
  return .running

/-- The part of `CudaCommunicator.__init__` that sets up the lean all-reduce, with
`_glm53_tp4_lean_setup`. -/
def leanSetup (f : LeanRank G) : Local G C Outcome := do
  if !f.wanted then return .fallback
  if !f.registered then return .fallback
  let statuses ← Prog.ask ⟨.importVote, .error (f.importing.map fun e => "import: " ++ e.repr)⟩
  if ∃ r, (statuses r).truthy then return .fallback
  (leanInit f >>= fun _ => step f.prepare).run >>= leanVerdict

/-- The rank gets as far as the first vote. -/
def LeanRank.Enters (f : LeanRank G) : Prop := f.wanted = true ∧ f.registered = true

/-- Every failure that is not voted is a failure of all ranks or of none. -/
def LeanCovered (f : Fin 4 → LeanRank G) : Prop :=
  (∀ r, ¬ (f r).Enters) ∨ (∀ r, (f r).Enters) ∧
    ((∃ r, (f r).importing ≠ none) ∨ (∀ r, (f r).arguments = none) ∨ ∀ r, (f r).arguments ≠ none)

instance (f : LeanRank G) : Decidable f.Enters := inferInstanceAs (Decidable (_ ∧ _))

instance (f : Fin 4 → LeanRank G) : Decidable (LeanCovered f) := inferInstanceAs (Decidable (_ ∨ _))

section FourRanks

omit [DecidableEq G] [DecidableEq C] in
theorem alike_verdict (result : Fin 4 → Except String Unit) :
    Alike serve Gather.stage fun i => (leanVerdict (result i) : Local G C Outcome) := by
  unfold leanVerdict
  rw [alike_ask fun _ _ => rfl]
  change Alike serve Gather.stage fun _ => if ∃ r,
    (Value.error (setupError (result r)) : Value G C).truthy
    then (.done .fallback : Local G C Outcome) else .done .running
  split_ifs
  · exact alike_done.mpr ⟨Outcome.fallback, fun _ : Fin 4 => rfl⟩
  · exact alike_done.mpr ⟨Outcome.running, fun _ : Fin 4 => rfl⟩

/-- Behind the arguments every failure is voted. -/
theorem leanInit_alike {f : Fin 4 → LeanRank G} (h : ∀ i, (f i).arguments = none) :
    Alike serve Gather.stage fun i =>
      ((leanInit (f i) >>= fun _ => step (f i).prepare).run >>= leanVerdict :
        Local G C Outcome) := by
  simp only [leanInit, h, step_none, pure_bind, bind_assoc]
  rw [alike_vote]
  split_ifs
  · exact alike_verdict _
  rw [alike_vote]
  split_ifs
  · exact alike_verdict _
  rw [alike_gather]
  by_cases hg : ∀ i r, (f r).geometry = (f i).geometry
  · have hsame :
        ∀ i, ¬ ∃ r, (Value.geometry (f r).geometry : Value G C) ≠ .geometry (f i).geometry :=
      fun i ⟨r, hr⟩ => hr (congrArg Value.geometry (hg i r))
    simp only [hsame, if_false, bind_assoc]
    rw [alike_vote]
    split_ifs
    · exact alike_verdict _
    choose result hresult using fun i => steps_done (G := G) (C := C) (f i).watchdog (f i).prepare
    simp only [hresult, Prog.done_bind]
    exact alike_verdict _
  · have hdiffer :
        ∀ i, ∃ r, (Value.geometry (f r).geometry : Value G C) ≠ .geometry (f i).geometry := by
      intro i
      by_contra hn
      simp only [not_exists, ne_eq, not_not, Value.geometry.injEq] at hn
      exact hg fun j r => (hn r).trans (hn j).symm
    simp only [hdiffer, if_true, throw_bind]
    exact alike_verdict fun _ => .error "geometry differs"

/-- A rank whose arguments fail is in the last vote while the others are in the first. -/
theorem not_leanInit_alike {f : Fin 4 → LeanRank G} {i j : Fin 4} (hi : (f i).arguments ≠ none)
    (hj : (f j).arguments = none) :
    ¬ Alike serve Gather.stage fun i =>
      ((leanInit (f i) >>= fun _ => step (f i).prepare).run >>= leanVerdict :
        Local G C Outcome) := by
  have hcall : ∀ r, ∃ q k, ((leanInit (f r) >>= fun _ => step (f r).prepare).run >>= leanVerdict :
      Local G C Outcome) = .call q k ∧
      q.stage = if (f r).arguments = none then .preflight else .setupVote := by
    intro r
    cases h : (f r).arguments with
    | none =>
      simp only [leanInit, h, step_none, pure_bind, bind_assoc]
      exact ⟨_, _, rfl, rfl⟩
    | some e =>
      simp only [leanInit, h]
      exact ⟨_, _, rfl, rfl⟩
  choose q k hqk hstage using hcall
  refine not_alike_of_mixed hqk (i := i) (j := j) ?_
  rw [hstage, hstage, if_neg hi, if_pos hj]
  nofun

theorem leanSetup_of_enters {f : LeanRank G} (h : f.Enters) : (leanSetup f : Local G C Outcome) =
    Prog.ask ⟨.importVote, .error (f.importing.map fun e => "import: " ++ e.repr)⟩ >>=
    fun statuses =>
      if ∃ r, (statuses r).truthy then .done .fallback
      else (leanInit f >>= fun _ => step f.prepare).run >>= leanVerdict := by
  obtain ⟨hw, hr⟩ := h
  simp [leanSetup, hw, hr]

theorem leanSetup_of_not_enters {f : LeanRank G} (h : ¬ f.Enters) :
    (leanSetup f : Local G C Outcome) = .done .fallback := by
  unfold LeanRank.Enters at h
  cases hw : f.wanted
  · simp [leanSetup, hw]
  · simp [leanSetup, hw, show f.registered = false by simpa [hw] using h]

omit [DecidableEq G] [DecidableEq C] in
theorem truthy_import {e : Option Exn} :
    (Value.error (e.map fun e => "import: " ++ e.repr) : Value G C).truthy = true ↔ e ≠ none := by
  cases e <;> simp [Value.truthy]

/-- **The lean set-up is all-or-none** exactly where the failures that are not voted hit all ranks
or none. -/
theorem leanSetup_alike_iff (f : Fin 4 → LeanRank G) :
    Alike serve Gather.stage (fun r => (leanSetup (f r) : Local G C Outcome)) ↔ LeanCovered f := by
  by_cases hnone : ∀ r, ¬ (f r).Enters
  · simp only [leanSetup_of_not_enters (hnone _)]
    exact iff_of_true (alike_done.mpr ⟨.fallback, fun _ => rfl⟩) (Or.inl hnone)
  by_cases hall : ∀ r, (f r).Enters
  · have hiff : LeanCovered f ↔ (∃ r, (f r).importing ≠ none) ∨ (∀ r, (f r).arguments = none) ∨
        ∀ r, (f r).arguments ≠ none := (or_iff_right hnone).trans (and_iff_right hall)
    rw [hiff, show (fun r => (leanSetup (f r) : Local G C Outcome)) = _ from
      funext fun r => leanSetup_of_enters (hall r), alike_ask fun _ _ => rfl]
    change Alike serve Gather.stage (fun i => if ∃ r, (Value.error ((f r).importing.map fun e =>
        "import: " ++ e.repr) : Value G C).truthy then (.done .fallback : Local G C Outcome)
      else (leanInit (f i) >>= fun _ => step (f i).prepare).run >>= leanVerdict) ↔ _
    simp only [truthy_import]
    split_ifs with himport
    · exact iff_of_true (alike_done.mpr ⟨.fallback, fun _ => rfl⟩) (Or.inl himport)
    rw [or_iff_right himport]
    by_cases hargs : ∀ r, (f r).arguments = none
    · exact iff_of_true (leanInit_alike hargs) (Or.inl hargs)
    obtain ⟨i, hi⟩ := not_forall.mp hargs
    by_cases hfail : ∀ r, (f r).arguments ≠ none
    · refine iff_of_true ?_ (Or.inr hfail)
      choose e he using fun r => Option.ne_none_iff_exists'.mp (hfail r)
      simp only [leanInit, he]
      exact alike_verdict fun r => .error (e r).str
    · obtain ⟨j, hj⟩ := not_forall.mp hfail
      exact iff_of_false (not_leanInit_alike hi (not_not.mp hj)) (not_or.mpr ⟨hargs, hfail⟩)
  · obtain ⟨i, hi⟩ := not_forall.mp hnone
    obtain ⟨j, hj⟩ := not_forall.mp hall
    refine iff_of_false (not_alike_of_waits (i := j) (j := i) (leanSetup_of_not_enters hj) ?_) ?_
    · rw [leanSetup_of_enters (not_not.mp hi)]
      exact ⟨_, _, rfl⟩
    · rintro (h | ⟨h, -⟩)
      · exact hnone h
      · exact hall h

end FourRanks

/-! ## The prefill ring

The steps go on alternately with votes and without. A step that is not caught is alike exactly if it
fails on all ranks or on none, and what comes behind it matters only where it does not fail.
-/

/-- What a rank's local steps do while the mHC configuration and the prefill ring are set up. -/
structure RingRank (G C : Type) where
  /-- The four selectors of the environment. -/
  values : C
  /-- An exception in front of the vote that is not among the caught ones, or in `get_tp_group`. -/
  escape : Option Exn
  /-- An `AttributeError`, `RuntimeError` or `ValueError` of the checks. -/
  check : Option Exn
  /-- From the configuration's vote to the ring's first: the import, the communicator, the
  environment. -/
  reach : Option Exn
  preflight : Option Exn
  create : Option Exn
  geometry : G
  connect : Option Exn
  /-- The event and the watchdog, after the last vote. -/
  finish : Option Exn

/-- `PrefillRing.__init__` behind its arguments. -/
def ringInit (f : RingRank G C) : Rank G C Unit := do
  vote .preflight (f.preflight.map Exn.repr)
  vote .create (f.create.map Exn.repr)
  let blobs ← gather .ringGeometry (.geometry f.geometry)
  let error := if ∃ r, blobs r ≠ blobs 0 then some "ranks disagree on the ring geometry"
    else f.connect.map Exn.repr
  vote .connect error
  step f.finish

/-- `configure` behind its vote; `rdma` tells whether the selectors ask for the ring. -/
def configured (rdma : C → Bool) (f : RingRank G C) : Rank G C Outcome :=
  if rdma f.values then do
    step f.reach
    ringInit f
    return .running
  else return .off

/-- `configure`. -/
def configure (rdma : C → Bool) (f : RingRank G C) : Rank G C Outcome := do
  step f.escape
  let votes ← gather .configure (.config f.values (f.check.map Exn.str))
  if ∃ r, votes r ≠ .config f.values none then throw "mHC configuration disagreement/error"
  else configured rdma f

def ringEnd : Except String Outcome → Outcome
  | .ok o => o
  | .error _ => .raised

def ringSetup (rdma : C → Bool) (f : RingRank G C) : Local G C Outcome := do
  let result ← (configure rdma f).run
  return ringEnd result

/-- The selectors agree, no check fails, and the ring is asked for. -/
def Configured (rdma : C → Bool) (f : Fin 4 → RingRank G C) : Prop :=
  (∀ r, (f r).values = (f 0).values ∧ (f r).check = none) ∧ rdma (f 0).values = true

/-- Every vote of the constructor passes. -/
def Voted (f : Fin 4 → RingRank G C) : Prop :=
  (∀ r, (f r).preflight = none) ∧ (∀ r, (f r).create = none) ∧
    (∀ r, (f r).geometry = (f 0).geometry) ∧ ∀ r, (f r).connect = none

/-- Every failure that is not voted is a failure of all ranks or of none, as far as the ranks get.
-/
def RingCovered (rdma : C → Bool) (f : Fin 4 → RingRank G C) : Prop :=
  (∀ r, (f r).escape ≠ none) ∨ (∀ r, (f r).escape = none) ∧ (Configured rdma f →
    (∀ r, (f r).reach ≠ none) ∨ (∀ r, (f r).reach = none) ∧ (Voted f →
      (∀ r, (f r).finish ≠ none) ∨ ∀ r, (f r).finish = none))

instance (rdma : C → Bool) (f : Fin 4 → RingRank G C) : Decidable (Configured rdma f) :=
  inferInstanceAs (Decidable (_ ∧ _))

instance (f : Fin 4 → RingRank G C) : Decidable (Voted f) := inferInstanceAs (Decidable (_ ∧ _))

instance (rdma : C → Bool) (f : Fin 4 → RingRank G C) : Decidable (RingCovered rdma f) :=
  inferInstanceAs (Decidable (_ ∨ _))

section Ring

omit [DecidableEq G] [DecidableEq C] in
theorem truthy_repr {e : Option Exn} :
    (Value.error (e.map Exn.repr) : Value G C).truthy = true ↔ e ≠ none := by
  cases e <;> simp [Value.truthy, Exn.repr]

omit [DecidableEq G] [DecidableEq C] in
/-- The vote on exceptions. -/
theorem alike_vote_repr {X : Type} {k : Fin 4 → Except String X → Local G C Outcome} {s : Stage}
    {e : Fin 4 → Option Exn} {f : Fin 4 → Rank G C X} :
    Alike serve Gather.stage (fun i => (vote s ((e i).map Exn.repr) >>= fun _ => f i).run >>= k i) ↔
      Alike serve Gather.stage fun i => if ∃ r, e r ≠ none then k i (.error "failed")
        else (f i).run >>= k i := by
  rw [alike_vote]
  simp only [truthy_repr]

/-- The rest of the ring's set-up as a group. -/
abbrev RingAlike (f : Fin 4 → Rank G C Outcome) : Prop :=
  Alike serve Gather.stage fun i => ((f i).run >>= fun x => .done (ringEnd x) : Local G C Outcome)

omit [DecidableEq G] [DecidableEq C] in
theorem ringAlike_throw (e : Fin 4 → String) : RingAlike fun i =>
    (throw (e i) : Rank G C Outcome) :=
  alike_done.mpr ⟨.raised, fun _ => rfl⟩

omit [DecidableEq G] [DecidableEq C] in
theorem ringAlike_failed {e : Fin 4 → Option Exn} {f : Fin 4 → Rank G C Outcome}
    (h : ∀ r, e r ≠ none) :
    RingAlike fun i => step (e i) >>= fun _ => f i := by
  choose e' he using fun r => Option.ne_none_iff_exists'.mp (h r)
  simp only [he]
  exact ringAlike_throw fun r => (e' r).str

omit [DecidableEq G] [DecidableEq C] in
/-- **Where one step is not caught**: it must fail on all ranks or on none. -/
theorem ringAlike_step {e : Fin 4 → Option Exn} {f : Fin 4 → Rank G C Outcome}
    (hf : ∀ i, Waits (f i).run) :
    (RingAlike fun i => step (e i) >>= fun _ => f i) ↔
      (∀ r, e r ≠ none) ∨ (∀ r, e r = none) ∧ RingAlike f := by
  by_cases hnone : ∀ r, e r = none
  · have hfail : ¬ ∀ r, e r ≠ none := fun h => h 0 (hnone 0)
    rw [or_iff_right hfail, and_iff_right hnone]
    simp only [hnone, step_none, pure_bind]
  by_cases hfail : ∀ r, e r ≠ none
  · exact iff_of_true (ringAlike_failed hfail) (Or.inl hfail)
  obtain ⟨i, hi⟩ := not_forall.mp hfail
  obtain ⟨j, hj⟩ := not_forall.mp hnone
  obtain ⟨e', he'⟩ := Option.ne_none_iff_exists'.mp hj
  refine iff_of_false (not_alike_of_waits (i := j) (j := i) (o := .raised) ?_ ?_) ?_
  · dsimp only
    rw [he']
    rfl
  · obtain ⟨q, k, hqk⟩ := hf i
    dsimp only
    rw [not_not.mp hi, step_none, pure_bind, hqk]
    exact ⟨_, _, rfl⟩
  · rintro (h | ⟨h, -⟩)
    · exact hfail h
    · exact hnone h

omit [DecidableEq G] [DecidableEq C] in
theorem ringAlike_finish {e : Fin 4 → Option Exn} :
    (RingAlike fun i => step (e i) >>= fun _ => (pure .running : Rank G C Outcome)) ↔
      (∀ r, e r ≠ none) ∨ ∀ r, e r = none := by
  have hdone : ∀ i, ((step (e i) >>= fun _ => (pure .running : Rank G C Outcome)).run >>=
      fun x => .done (ringEnd x) : Local G C Outcome) = .done (if e i = none then
      .running else .raised) := by
    intro i
    cases e i <;> rfl
  unfold RingAlike
  simp only [hdone]
  rw [alike_done]
  constructor
  · rintro ⟨o, ho⟩
    by_cases h : e 0 = none
    · refine Or.inr fun r => ?_
      have := (ho r).trans (ho 0).symm
      rw [if_pos h] at this
      by_contra hr
      rw [if_neg hr] at this
      cases this
    · refine Or.inl fun r hr => ?_
      have := (ho r).trans (ho 0).symm
      rw [if_neg h, if_pos hr] at this
      cases this
  · rintro (h | h)
    · exact ⟨.raised, fun i => if_neg (h i)⟩
    · exact ⟨.running, fun i => if_pos (h i)⟩

/-- The constructor of the ring. -/
theorem ringInit_alike_iff (f : Fin 4 → RingRank G C) :
    (RingAlike fun i => ringInit (f i) >>= fun _ => (pure .running : Rank G C Outcome)) ↔
      (Voted f → (∀ r, (f r).finish ≠ none) ∨ ∀ r, (f r).finish = none) := by
  simp only [RingAlike, ringInit, bind_assoc]
  rw [alike_vote_repr]
  split_ifs with hpre
  · obtain ⟨r, hr⟩ := hpre
    exact iff_of_true (ringAlike_throw fun _ => "failed") fun h => absurd (h.1 r) hr
  rw [alike_vote_repr]
  split_ifs with hcreate
  · obtain ⟨r, hr⟩ := hcreate
    exact iff_of_true (ringAlike_throw fun _ => "failed") fun h => absurd (h.2.1 r) hr
  rw [alike_gather]
  by_cases hg : ∃ r, (Value.geometry (f r).geometry : Value G C) ≠ .geometry (f 0).geometry
  · simp only [hg, if_true]
    have hbad : ∃ _ : Fin 4,
        (Value.error (some "ranks disagree on the ring geometry") : Value G C).truthy =
        true := ⟨0, rfl⟩
    rw [alike_vote]
    simp only [hbad, if_true]
    obtain ⟨r, hr⟩ := hg
    exact iff_of_true (ringAlike_throw fun _ => "failed") fun h =>
      absurd (congrArg Value.geometry (h.2.2.1 r)) hr
  · simp only [hg, if_false]
    rw [alike_vote_repr]
    split_ifs with hconnect
    · obtain ⟨r, hr⟩ := hconnect
      exact iff_of_true (ringAlike_throw fun _ => "failed") fun h => absurd (h.2.2.2 r) hr
    · have hvoted : Voted f := ⟨by simpa using hpre, by simpa using hcreate, by simpa using hg,
        by simpa using hconnect⟩
      rw [forall_prop_of_true hvoted]
      exact ringAlike_finish

/-- **The ring's set-up is all-or-none** exactly where the failures that are not voted hit all ranks
or none. -/
theorem ringSetup_alike_iff (rdma : C → Bool) (f : Fin 4 → RingRank G C) :
    Alike serve Gather.stage (fun r => (ringSetup rdma (f r) : Local G C Outcome)) ↔
    RingCovered rdma f := by
  change (RingAlike fun r => configure rdma (f r)) ↔ _
  simp only [configure]
  refine (ringAlike_step fun i => ?_).trans (or_congr_right (and_congr_right fun _ => ?_))
  · exact waits_gather
  rw [RingAlike, alike_gather]
  by_cases hsame : ∀ r, (f r).values = (f 0).values ∧ (f r).check = none
  · have hpass : ∀ i, ¬ ∃ r, (Value.config (f r).values ((f r).check.map Exn.str) : Value G C) ≠
        .config (f i).values none := by
      rintro i ⟨r, hr⟩
      rw [(hsame r).1, (hsame i).1, (hsame r).2] at hr
      exact hr rfl
    simp only [hpass, if_false]
    simp only [configured, (hsame _).1]
    by_cases hrdma : rdma (f 0).values = true
    · rw [forall_prop_of_true (show Configured rdma f from ⟨hsame, hrdma⟩)]
      simp only [hrdma, if_true]
      refine (ringAlike_step fun i => ?_).trans
        (or_congr_right (and_congr_right fun _ => ringInit_alike_iff f))
      exact ⟨_, _, rfl⟩
    · simp only [if_neg hrdma]
      exact iff_of_true (alike_done.mpr ⟨Outcome.off, fun _ : Fin 4 => rfl⟩) fun h =>
        absurd h.2 hrdma
  · have hfail : ∀ i, ∃ r, (Value.config (f r).values ((f r).check.map Exn.str) : Value G C) ≠
        .config (f i).values none := by
      intro i
      by_contra hn
      have hall : ∀ r, (f r).values = (f i).values ∧ (f r).check = none := by
        intro r
        have := not_exists.mp hn r
        simpa using this
      exact hsame fun r => ⟨(hall r).1.trans (hall 0).1.symm, (hall r).2⟩
    simp only [hfail, if_true]
    exact iff_of_true (ringAlike_throw fun _ => "failed") fun h => absurd h.1 hsame

end Ring

/-- **When the two set-ups are all-or-none.** Whatever the ranks' local steps do: no all-gather
mixes stages, no rank waits for another one's all-gather, and all ranks end alike, exactly if the
failures that are not voted hit all ranks or none of those that get there. -/
theorem setup_all_or_none_iff (f : Fin 4 → LeanRank G) (rdma : C → Bool)
    (f' : Fin 4 → RingRank G C) :
    (Alike serve Gather.stage (fun r => (leanSetup (f r) : Local G C Outcome)) ↔ LeanCovered f) ∧
      (Alike serve Gather.stage (fun r => (ringSetup rdma (f' r) : Local G C Outcome)) ↔
      RingCovered rdma f') :=
  ⟨leanSetup_alike_iff f, ringSetup_alike_iff rdma f'⟩

/-- Nothing fails, but on rank 2 `GLM53_LEAN_CHUNKS` is not a number. -/
def malformedChunks (r : Fin 4) : LeanRank Nat where
  wanted := true
  registered := true
  importing := none
  arguments := if r = 2 then some ⟨"ValueError", "invalid literal for int() with base 10: 'two'"⟩
    else none
  preflight := none
  allocation := none
  geometry := 262144
  connect := none
  watchdog := none
  prepare := none

/-- Nothing fails, but rank 1 has no PyNccl communicator. -/
def missingCommunicator (r : Fin 4) : RingRank Nat (Bool × Bool) where
  values := (true, true)
  escape := none
  check := none
  reach := if r = 1 then
    some ⟨"RuntimeError", "mHC RDMA collectives require the active TP4 PyNccl communicator"⟩ else
      none
  preflight := none
  create := none
  geometry := 32
  connect := none
  finish := none

/-- Neither set-up is all-or-none there. -/
theorem oneRank_hangs :
    ¬ Alike serve Gather.stage (fun r => (leanSetup (malformedChunks r) : Local Nat Unit Outcome)) ∧
      ¬ Alike serve Gather.stage (fun r =>
        (ringSetup (fun c => c.1 && c.2) (missingCommunicator r) :
          Local Nat (Bool × Bool) Outcome)) := by
  rw [leanSetup_alike_iff, ringSetup_alike_iff]
  decide

end Ringside.CollectiveSetup

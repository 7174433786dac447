import Mathlib.Tactic

/-!
# Ranks that meet in collectives

A rank is a program that computes locally and calls collectives; a collective of the group completes
when every rank has called, and the calls are matched in the order each rank issues them. `serve`
says what every rank gets. A rank that has finished never calls again, so the ranks still in a call
wait for ever.

* `Prog` is a free monad over the calls: its local steps are functions, and its result may be an
  error. `bind` and `ask` are its operations.
* `serve` may be anything, also of calls of different kinds: that a group never mixes kinds is to be
  proved, not assumed.
* `Ends` has the rounds of a group; `Finishes` and `Waits` are the two ways in which it ends.
* `Alike` speaks of the group as a whole: every round of one kind, no rank waits, one result.
  `Meets` also keeps the kinds of the collectives, for ranks that return different things.

Results:
* `Ends.unique`, `exists_ends`: every group ends in one way.
* `Finishes.bind`: a group that finishes goes on with what follows.
* `alike_call`, `not_alike_of_waits`, `not_alike_of_mixed`: when all ranks end alike, round by
  round.
* `Meets.bind`, `Meets.foldlM_range`: the same for ranks that can raise, with the kinds of their
  collectives.
-/

namespace Ringside.Spmd

/-- A rank: its result, or a call and what it does with the answer. -/
inductive Prog (Q A O : Type) where
  | done (o : O)
  | call (q : Q) (k : A → Prog Q A O)

namespace Prog

variable {Q A O O' : Type}

/-- First `p`, then `f` on its result. -/
def bind : Prog Q A O → (O → Prog Q A O') → Prog Q A O'
  | .done o, f => f o
  | .call q k, f => .call q fun a => (k a).bind f

/-- One collective. -/
def ask (q : Q) : Prog Q A A := .call q .done

instance : Monad (Prog Q A) where
  pure := .done
  bind := bind

theorem bind_pure (p : Prog Q A O) : p.bind .done = p := by
  induction p with
  | done o => rfl
  | call q k ih => simp [bind, ih]

theorem bind_assoc {O'' : Type} (p : Prog Q A O) (f : O → Prog Q A O') (g : O' → Prog Q A O'') :
    (p.bind f).bind g = p.bind fun o => (f o).bind g := by
  induction p with
  | done o => rfl
  | call q k ih => simp [bind, ih]

instance : LawfulMonad (Prog Q A) :=
  LawfulMonad.mk' _ bind_pure (fun _ _ => rfl) bind_assoc

@[simp] theorem pure_eq (o : O) : (pure o : Prog Q A O) = .done o := rfl

@[simp] theorem done_bind (o : O) (f : O → Prog Q A O') : (Prog.done o >>= f) = f o := rfl

@[simp] theorem call_bind (q : Q) (k : A → Prog Q A O) (f : O → Prog Q A O') :
    (Prog.call q k >>= f) = .call q fun a => k a >>= f := rfl

@[simp] theorem ask_bind (q : Q) (f : A → Prog Q A O) : (ask q >>= f) = .call q f := rfl

end Prog

variable {ι Q A O O' : Type} {serve : (ι → Q) → ι → A}

/-- The rounds of a group, and how it ends: with some rank finished, so that no further call
completes. -/
inductive Ends (serve : (ι → Q) → ι → A) :
    (ι → Prog Q A O) → List (ι → Q) → (ι → Prog Q A O) → Prop where
  | stop {p : ι → Prog Q A O} (i : ι) (o : O) : p i = .done o → Ends serve p [] p
  | round {p p' : ι → Prog Q A O} {q : ι → Q} {k : ι → A → Prog Q A O} {tr : List (ι → Q)} :
    (∀ i, p i = .call (q i) (k i)) → Ends serve (fun i => k i (serve q i)) tr p' →
    Ends serve p (q :: tr) p'

/-- Every rank finishes. -/
def Finishes (serve : (ι → Q) → ι → A) (p : ι → Prog Q A O) (tr : List (ι → Q))
    (o : ι → O) : Prop :=
  Ends serve p tr fun i => .done (o i)

/-- A rank that waits for ever. -/
def Waits (p : Prog Q A O) : Prop := ∃ q k, p = .call q k

/-- **A group ends in one way.** -/
theorem Ends.unique {p p₁ p₂ : ι → Prog Q A O} {tr₁ tr₂ : List (ι → Q)} (h₁ : Ends serve p tr₁ p₁)
    (h₂ : Ends serve p tr₂ p₂) : tr₁ = tr₂ ∧ p₁ = p₂ := by
  induction h₁ generalizing tr₂ p₂ with
  | stop i o hi =>
    cases h₂ with
    | stop _ _ _ => exact ⟨rfl, rfl⟩
    | round hq _ => simp [hq i] at hi
  | @round p p' q k tr hq _ ih =>
    cases h₂ with
    | stop i o hi => simp [hq i] at hi
    | @round _ _ q' k' tr' hq' h =>
      have hqk : ∀ i, q i = q' i ∧ k i = k' i := fun i => by
        simpa using (hq i).symm.trans (hq' i)
      obtain rfl : q = q' := funext fun i => (hqk i).1
      obtain rfl : k = k' := funext fun i => (hqk i).2
      obtain ⟨rfl, rfl⟩ := ih h
      exact ⟨rfl, rfl⟩

/-- **Every group ends.** -/
theorem exists_ends (serve : (ι → Q) → ι → A) (i : ι) (p : ι → Prog Q A O) :
    ∃ tr p', Ends serve p tr p' := by
  generalize hi : p i = pi
  induction pi generalizing p with
  | done o => exact ⟨[], p, .stop i o hi⟩
  | call q k ih =>
    by_cases h : ∃ j o, p j = .done o
    · obtain ⟨j, o, hj⟩ := h
      exact ⟨[], p, .stop j o hj⟩
    · have hcall : ∀ j, ∃ q k, p j = .call q k := by
        intro j
        cases hj : p j with
        | done o => exact absurd ⟨j, o, hj⟩ h
        | call q k => exact ⟨q, k, rfl⟩
      choose q' k' hqk using hcall
      have hki : k' i = k := by
        have := (hqk i).symm.trans hi
        simp only [Prog.call.injEq] at this
        exact this.2
      obtain ⟨tr, p', h⟩ := ih (serve q' i) (fun j => k' j (serve q' j)) (by simp [hki])
      exact ⟨q' :: tr, p', .round hqk h⟩

theorem finishes_done [Nonempty ι] (o : ι → O) : Finishes serve (fun i => .done (o i)) [] o :=
  .stop (Classical.arbitrary ι) _ rfl

/-- **What follows a group that finishes.** -/
theorem Finishes.bind {p : ι → Prog Q A O} {tr : List (ι → Q)} {o : ι → O}
    (h : Finishes serve p tr o)
    {f : ι → O → Prog Q A O'} {tr' : List (ι → Q)} {p' : ι → Prog Q A O'}
    (h' : Ends serve (fun i => f i (o i)) tr' p') :
    Ends serve (fun i => p i >>= f i) (tr ++ tr') p' := by
  unfold Finishes at h
  generalize he : (fun i => Prog.done (o i)) = e at h
  induction h with
  | stop i _ _ =>
    subst he
    exact h'
  | @round p _ q k _ hq _ ih =>
    have hcall : ∀ i, (p i >>= f i) = .call (q i) fun a => k i a >>= f i := fun i => by
      rw [hq i, Prog.call_bind]
    exact .round hcall (ih he)

/-! ## Groups that end alike -/

section Alike

variable {K : Type} {serve : (ι → Q) → ι → A} {kind : Q → K}

/-- However the group ends: every round is of one kind, no rank waits, and all ranks have one
result. -/
def Alike (serve : (ι → Q) → ι → A) (kind : Q → K) (p : ι → Prog Q A O) : Prop :=
  ∀ tr p', Ends serve p tr p' →
    (∀ q ∈ tr, ∀ i j, kind (q i) = kind (q j)) ∧ (∀ i, ¬ Waits (p' i)) ∧ ∃ o, ∀ i, p' i = .done o

theorem alike_done [Nonempty ι] {o : ι → O} :
    Alike serve kind (fun i => (.done (o i) : Prog Q A O)) ↔ ∃ o', ∀ i, o i = o' := by
  constructor
  · intro h
    obtain ⟨-, -, o', ho⟩ := h [] _ (finishes_done o)
    exact ⟨o', fun i => by simpa using ho i⟩
  · rintro ⟨o', ho⟩ tr p' hp
    obtain ⟨rfl, rfl⟩ := hp.unique (finishes_done o)
    refine ⟨fun q hq => absurd hq List.not_mem_nil, fun i hi => ?_, o', fun i =>
      congrArg Prog.done (ho i)⟩
    obtain ⟨q, k, hqk⟩ := hi
    cases hqk

/-- **A round of one kind** leaves the question to what follows it. -/
theorem alike_call [Nonempty ι] {p : ι → Prog Q A O} {q : ι → Q} {k : ι → A → Prog Q A O}
    (hp : ∀ i, p i = .call (q i) (k i)) (hq : ∀ i j, kind (q i) = kind (q j)) :
    Alike serve kind p ↔ Alike serve kind fun i => k i (serve q i) := by
  constructor
  · intro h tr p' hp'
    obtain ⟨hk, hend⟩ := h (q :: tr) p' (.round hp hp')
    exact ⟨fun q' hq' => hk q' (List.mem_cons_of_mem _ hq'), hend⟩
  · intro h tr p' hp'
    obtain ⟨tr₁, p₁, h₁⟩ := exists_ends serve (Classical.arbitrary ι) fun i => k i (serve q i)
    obtain ⟨rfl, rfl⟩ := hp'.unique (.round hp h₁)
    obtain ⟨hk, hend⟩ := h tr₁ p' h₁
    exact ⟨List.forall_mem_cons.mpr ⟨hq, hk⟩, hend⟩

theorem alike_ask [Nonempty ι] {q : ι → Q} {f : ι → A → Prog Q A O}
    (hq : ∀ i j, kind (q i) = kind (q j)) :
    Alike serve kind (fun i => Prog.ask (q i) >>= f i) ↔ Alike serve kind fun i =>
    f i (serve q i) :=
  alike_call (fun _ => rfl) hq

/-- A rank has finished and another one calls. -/
theorem not_alike_of_waits {p : ι → Prog Q A O} {i j : ι} {o : O} (hi : p i = .done o)
    (hj : Waits (p j)) :
    ¬ Alike serve kind p :=
  fun h => (h [] p (.stop i o hi)).2.1 j hj

/-- A round of two kinds. -/
theorem not_alike_of_mixed {p : ι → Prog Q A O} {q : ι → Q} {k : ι → A → Prog Q A O}
    (hp : ∀ i, p i = .call (q i) (k i)) {i j : ι} (hq : kind (q i) ≠ kind (q j)) :
    ¬ Alike serve kind p := by
  intro h
  obtain ⟨tr, p', h'⟩ := exists_ends serve i fun i => k i (serve q i)
  exact hq ((h (q :: tr) p' (.round hp h')).1 q List.mem_cons_self i j)

end Alike

/-! ## Ranks that can raise -/

section Fallible

variable {ε K B : Type} {serve : (ι → Q) → ι → A} {kind : Q → K}

/-- Every rank returns, through collectives of the kinds `ks`; each is of one kind on all ranks. -/
def Meets (serve : (ι → Q) → ι → A) (kind : Q → K) (p : ι → ExceptT ε (Prog Q A) O) (ks : List K)
    (o : ι → O) : Prop :=
  ∃ tr, Finishes serve (fun i => (p i).run) tr (fun i => .ok (o i)) ∧
    List.Forall₂ (fun q k => ∀ i, kind (q i) = k) tr ks

theorem Meets.pure [Nonempty ι] (o : ι → O) :
    Meets serve kind (fun i => (Pure.pure (o i) : ExceptT ε (Prog Q A) O)) [] o :=
  ⟨[], finishes_done _, .nil⟩

/-- One collective that all ranks enter. -/
theorem Meets.ask [Nonempty ι] (q : ι → Q) {k : K} (hk : ∀ i, kind (q i) = k) :
    Meets serve kind (fun i => (liftM (Prog.ask (q i) : Prog Q A A) : ExceptT ε (Prog Q A) A)) [k]
      (serve q) :=
  ⟨[q], .round (fun _ => rfl) (finishes_done _), .cons hk .nil⟩

/-- **What follows ranks that all return.** -/
theorem Meets.bind {p : ι → ExceptT ε (Prog Q A) O} {ks ks' : List K} {o : ι → O}
    (h : Meets serve kind p ks o) {f : ι → O → ExceptT ε (Prog Q A) O'} {o' : ι → O'}
    (h' : Meets serve kind (fun i => f i (o i)) ks' o') :
    Meets serve kind (fun i => p i >>= f i) (ks ++ ks') o' := by
  obtain ⟨tr, hf, hk⟩ := h
  obtain ⟨tr', hf', hk'⟩ := h'
  exact ⟨tr ++ tr', hf.bind (f := fun i => ExceptT.bindCont (f i)) hf', List.rel_append hk hk'⟩

/-- A value made of what every rank returns. -/
theorem Meets.bind_pure [Nonempty ι] {p : ι → ExceptT ε (Prog Q A) O} {ks : List K} {o : ι → O}
    (h : Meets serve kind p ks o) (f : ι → O → O') :
    Meets serve kind (fun i => p i >>= fun a => Pure.pure (f i a)) ks fun i => f i (o i) := by
  have := h.bind (f := fun i a => Pure.pure (f i a)) (Meets.pure fun i => f i (o i))
  rwa [List.append_nil] at this

/-- **A loop**: what one pass keeps, all passes keep. The reference `g` runs beside the ranks. -/
theorem Meets.foldlM_range [Nonempty ι] {f : ι → O → Nat → ExceptT ε (Prog Q A) O}
    {g : O' → Nat → O'}
    (Inv : Nat → O' → (ι → O) → List K → Prop) {n : Nat}
    (step : ∀ j < n, ∀ o' o ks, Inv j o' o ks →
      ∃ ks' o₁, Meets serve kind (fun i => f i (o i) j) ks' o₁ ∧
      Inv (j + 1) (g o' j) o₁ (ks ++ ks'))
    {o' : O'} {o : ι → O} (h : Inv 0 o' o []) :
    ∃ ks o₁, Meets serve kind (fun i => (List.range n).foldlM (f i) (o i)) ks o₁ ∧
      Inv n ((List.range n).foldl g o') o₁ ks := by
  induction n with
  | zero => exact ⟨[], o, Meets.pure o, h⟩
  | succ n ih =>
    obtain ⟨ks, o₁, hrun, hinv⟩ := ih fun j hj => step j (Nat.lt_succ_of_lt hj)
    obtain ⟨ks', o₂, hrun', hinv'⟩ := step n (Nat.lt_succ_self n) _ _ _ hinv
    refine ⟨ks ++ ks', o₂, ?_, by simpa [List.range_succ] using hinv'⟩
    have hboth := hrun.bind (f := fun i a => f i a n) hrun'
    simpa [List.range_succ, List.foldlM_append] using hboth

end Fallible

end Ringside.Spmd

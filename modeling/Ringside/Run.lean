import Mathlib.Data.List.Induction
import Mathlib.Tactic

/-!
# Runs of event-driven machines

A machine is a step function `step : σ → ε → σ`; a history is the list of events it received, oldest
first, and `run step s₀ h` is the state the history leads to. `history_invariant` is the rule every
whole-run result rests on: a relation between a history and the state it leads to holds of every run
when it holds at the start and every event preserves it.

* Events are inputs: a machine that has none of its own choices is deterministic, and a history is
  arbitrary. A machine with choices has them in its events.
* An event that cannot happen leaves the state as it is, so all histories are allowed.
* `countFrom` counts the events of a history that a property of the history before them selects.

Results:
* `history_invariant`, `invariant`: the rule, and its case of a state alone.
* `invariant_of_forall`: what the events of one kind preserve.
* `done_within`: the progress rule: a measure that every counted event makes smaller bounds how many
  of them come before the goal.
* `countFrom_snoc`: counting one more event.
-/

namespace Ringside.Run

variable {σ ε : Type*} {step : σ → ε → σ} {s₀ : σ}

/-- The state a machine reaches from `s₀` on the events of `h`, oldest first. -/
def run (step : σ → ε → σ) (s₀ : σ) (h : List ε) : σ :=
  h.foldl step s₀

@[simp] theorem run_nil : run step s₀ [] = s₀ := rfl

@[simp] theorem run_snoc (h : List ε) (e : ε) :
    run step s₀ (h ++ [e]) = step (run step s₀ h) e := by
  simp [run]

theorem run_cons (e : ε) (h : List ε) : run step s₀ (e :: h) = run step (step s₀ e) h := rfl

theorem run_append (h h' : List ε) : run step s₀ (h ++ h') = run step (run step s₀ h) h' := by
  simp [run]

/-- **The history rule**: a relation between histories and states that holds at the start and is
preserved by every event holds of every run. -/
theorem history_invariant (Inv : List ε → σ → Prop) (h₀ : Inv [] s₀)
    (hstep : ∀ h s e, Inv h s → Inv (h ++ [e]) (step s e)) (h : List ε) :
    Inv h (run step s₀ h) := by
  induction h using List.reverseRecOn with
  | nil => exact h₀
  | append_singleton h e ih => rw [run_snoc]; exact hstep h _ e ih

/-- A state predicate that every event preserves holds after every run. -/
theorem invariant {P : σ → Prop} (h₀ : P s₀) (hstep : ∀ s e, P s → P (step s e)) (h : List ε) :
    P (run step s₀ h) :=
  history_invariant (fun _ s => P s) h₀ (fun _ s e => hstep s e) h

/-- A state predicate that the events of one kind preserve survives any run of that kind. -/
theorem invariant_of_forall {P : σ → Prop} {K : ε → Prop}
    (hstep : ∀ s e, K e → P s → P (step s e)) :
    ∀ (h : List ε) {s : σ}, (∀ e ∈ h, K e) → P s → P (run step s h)
  | [], _, _, hs => hs
  | e :: h, s, hK, hs => by
    rw [run_cons]
    exact invariant_of_forall hstep h (fun e' he' => hK e' (List.mem_cons_of_mem e he'))
      (hstep s e (hK e List.mem_cons_self) hs)

/-! ## Progress -/

/-- **The progress rule**: when every counted event that does not reach the goal makes a measure
smaller, and no other event makes it larger, the goal is reached within that many counted events. -/
theorem done_within (counts : ε → Bool) (Inv : σ → Prop) (Good Done : σ → ε → Prop) (μ : σ → Nat)
    (hidle : ∀ s e, counts e = false → Inv s → Inv (step s e) ∧ μ (step s e) ≤ μ s)
    (hstep : ∀ s e, counts e = true → Inv s → Good s e → ¬ Done s e →
      Inv (step s e) ∧ μ (step s e) < μ s) :
    ∀ (w : List ε) {s : σ}, Inv s →
      (∀ a e b, w = a ++ e :: b → counts e = true → Good (run step s a) e) →
      μ s < w.countP counts →
      ∃ a e b, w = a ++ e :: b ∧ counts e = true ∧ a.countP counts ≤ μ s ∧ Done (run step s a) e
  | [], _, _, _, hlen => absurd hlen (by simp)
  | e :: w, s, hi, hg, hlen => by
    have hrest : ∀ a e' b, w = a ++ e' :: b → counts e' = true →
        Good (run step (step s e) a) e' :=
      fun a e' b hw hc => hg (e :: a) e' b (by rw [hw, List.cons_append]) hc
    cases hc : counts e with
    | false =>
      obtain ⟨hi', hμ⟩ := hidle s e hc hi
      rw [List.countP_cons_of_neg (by simp [hc])] at hlen
      obtain ⟨a, e', b, hw, hc', ha, hd⟩ := done_within counts Inv Good Done μ hidle hstep w hi'
        hrest (by omega)
      refine ⟨e :: a, e', b, by rw [hw, List.cons_append], hc', ?_, hd⟩
      rw [List.countP_cons_of_neg (by simp [hc])]
      omega
    | true =>
      by_cases hd : Done s e
      · exact ⟨[], e, w, rfl, hc, by simp, hd⟩
      obtain ⟨hi', hμ⟩ := hstep s e hc hi (hg [] e w rfl hc) hd
      rw [List.countP_cons_of_pos hc] at hlen
      obtain ⟨a, e', b, hw, hc', ha, hd'⟩ := done_within counts Inv Good Done μ hidle hstep w hi'
        hrest (by omega)
      refine ⟨e :: a, e', b, by rw [hw, List.cons_append], hc', ?_, hd'⟩
      rw [List.countP_cons_of_pos hc]
      omega

/-! ## Counting turns -/

section Count

variable (P : List ε → ε → Prop) [∀ h, DecidablePred (P h)]

/-- How many events of `h'`, received after `past`, satisfy `P` with the history before them. -/
def countFrom : List ε → List ε → Nat
  | _, [] => 0
  | past, e :: h' => (if P past e then 1 else 0) + countFrom (past ++ [e]) h'

@[simp] theorem countFrom_nil (past : List ε) : countFrom P past [] = 0 := rfl

theorem countFrom_snoc : ∀ (past h' : List ε) (e : ε),
    countFrom P past (h' ++ [e]) = countFrom P past h' + if P (past ++ h') e then 1 else 0
  | past, [], e => by simp [countFrom]
  | past, e' :: h', e => by
    rw [List.cons_append, countFrom, countFrom_snoc (past ++ [e']) h' e, countFrom,
      List.append_assoc, List.singleton_append, Nat.add_assoc]

end Count

end Ringside.Run

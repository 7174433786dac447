import Ringside.Utf8

/-!
# The UTF-8 guard's automata (`glm53_utf8_guard.py`)

`strictStep` is the strict decoder, `feed` the one that resynchronises as Python's does. States are
the pending prefixes: 0 clean, 1 to 7 a character with bytes missing. The kernel only ever sees the
last tokens of a request, so the second half of this file is about when two runs from different
states meet.

* `ranges`, `missing` and `leadState` are the tables of the source. State 0 has no entry in the
  first two and none is looked up.
* `validFrom` and `nextState` are the two runs over the bytes of a token; `strictRun` is the state
  that the first one ends in.
* What is well formed is the library's (`Utf8`): encodings of Unicode scalar values, stated without
  an automaton.

Results:
* `strictRun_zero_iff`: from a state, the strict decoder ends clean exactly on the missing bytes and
  well-formed text behind them.
* `strictRun_isSome_iff`, `strictRun_pending_iff`: it succeeds exactly on the prefixes of
  well-formed text, and ends inside a character exactly on text and a begun character.
* `nextState_of_strictRun`: the two automata agree wherever the strict one succeeds.
* `feed_ends`: what `feed` leaves pending is a begun character at the end of the text.
* `nextState_join`: from any state, three bytes lead where they lead from state 0.
-/

namespace Ringside.Utf8Guard

open Ringside.Utf8

/-- `N_STATES` states. -/
abbrev State := Fin 8

scoped instance neZeroEight : NeZero 8 := ⟨by decide⟩

/-- `_RANGES`; state 0 has no entry and none is looked up. -/
def ranges : State → Nat × Nat
  | 3 => (0xA0, 0xBF)
  | 4 => (0x80, 0x9F)
  | 6 => (0x90, 0xBF)
  | 7 => (0x80, 0x8F)
  | _ => (0x80, 0xBF)

/-- `_MISSING`; nothing is missing at state 0. -/
def missing : State → Nat
  | 0 => 0
  | 1 => 1
  | 2 | 3 | 4 => 2
  | 5 | 6 | 7 => 3

/-- `_lead_state`. -/
def leadState (b : UInt8) : Option State :=
  let b := b.toNat
  if b < 0x80 then some 0
  else if 0xC2 ≤ b ∧ b ≤ 0xDF then some 1
  else if b = 0xE0 then some 3
  else if b = 0xED then some 4
  else if 0xE1 ≤ b ∧ b ≤ 0xEF then some 2
  else if b = 0xF0 then some 6
  else if 0xF1 ≤ b ∧ b ≤ 0xF3 then some 5
  else if b = 0xF4 then some 7
  else none

/-- The state with `k` continuation bytes missing. -/
def owing : Nat → State
  | 0 => 0
  | 1 => 1
  | _ => 2

/-- `strict_step`. -/
def strictStep (s : State) (b : UInt8) : Option State :=
  if s = 0 then leadState b
  else if (ranges s).1 ≤ b.toNat ∧ b.toNat ≤ (ranges s).2 then some (owing (missing s - 1))
  else none

/-- `feed`. -/
def feed (s : State) (b : UInt8) : State :=
  match strictStep s b with
  | some r => r
  | none => if s ≠ 0 then (strictStep 0 b).getD 0 else 0

/-- `valid_from`. -/
def validFrom : State → List UInt8 → Bool
  | _, [] => true
  | s, b :: bs =>
    match strictStep s b with
    | some s' => validFrom s' bs
    | none => false

/-- `next_state`. -/
def nextState (s : State) (bs : List UInt8) : State := bs.foldl feed s

/-- The state `valid_from` ends in. -/
def strictRun : State → List UInt8 → Option State
  | s, [] => some s
  | s, b :: bs => (strictStep s b).bind fun s' => strictRun s' bs

@[simp] theorem strictRun_nil (s : State) : strictRun s [] = some s := rfl

@[simp] theorem strictRun_cons (s : State) (b : UInt8) (bs : List UInt8) :
    strictRun s (b :: bs) = (strictStep s b).bind fun s' => strictRun s' bs := rfl

theorem validFrom_eq (s : State) (bs : List UInt8) : validFrom s bs = (strictRun s bs).isSome := by
  induction bs generalizing s with
  | nil => rfl
  | cons b bs ih =>
    rw [strictRun_cons]
    unfold validFrom
    cases strictStep s b with
    | none => rfl
    | some s' => exact ih s'

theorem strictRun_append (s : State) (l r : List UInt8) :
    strictRun s (l ++ r) = (strictRun s l).bind fun s' => strictRun s' r := by
  induction l generalizing s with
  | nil => rfl
  | cons b l ih =>
    rw [List.cons_append, strictRun_cons, strictRun_cons]
    cases strictStep s b with
    | none => rfl
    | some s' => exact ih s'

theorem feed_of_strictStep {s r : State} {b : UInt8} (h : strictStep s b = some r) :
    feed s b = r := by
  simp only [feed, h]

/-- **The two automata agree** wherever the strict one succeeds. -/
theorem nextState_of_strictRun {s s' : State} {bs : List UInt8} (h : strictRun s bs = some s') :
    nextState s bs = s' := by
  induction bs generalizing s with
  | nil => simpa [nextState] using h
  | cons b bs ih =>
    rw [strictRun_cons, Option.bind_eq_some_iff] at h
    obtain ⟨r, hr, hrun⟩ := h
    have := ih hrun
    simpa only [nextState, List.foldl_cons, feed_of_strictStep hr] using this

/-! ## One character -/

/-- The bytes take a state to 0, and not before their end. -/
def Completes : State → List UInt8 → Prop
  | s, [] => s = 0
  | s, b :: l => s ≠ 0 ∧ ∃ s', strictStep s b = some s' ∧ Completes s' l

theorem leadState_eq_some (b : UInt8) (s : State) :
    leadState b = some s ↔ match s with
      | 0 => b.toNat < 0x80
      | 1 => 0xC2 ≤ b.toNat ∧ b.toNat ≤ 0xDF
      | 2 => 0xE1 ≤ b.toNat ∧ b.toNat ≤ 0xEF ∧ b.toNat ≠ 0xED
      | 3 => b.toNat = 0xE0
      | 4 => b.toNat = 0xED
      | 5 => 0xF1 ≤ b.toNat ∧ b.toNat ≤ 0xF3
      | 6 => b.toNat = 0xF0
      | 7 => b.toNat = 0xF4 := by
  unfold leadState
  dsimp only
  split_ifs <;> fin_cases s <;> simp <;> omega

/-- A step inside a character. -/
theorem strictStep_inside {s : State} (hs : s ≠ 0) (b : UInt8) (s' : State) :
    strictStep s b = some s' ↔
      ((ranges s).1 ≤ b.toNat ∧ b.toNat ≤ (ranges s).2) ∧ owing (missing s - 1) = s' := by
  unfold strictStep
  rw [if_neg hs]
  split_ifs with h
  · simp [h]
  · simp [h]

@[simp] theorem completes_zero (l : List UInt8) : Completes 0 l ↔ l = [] := by
  cases l <;> simp [Completes]

/-- The lead byte and the bytes that complete it are one character. -/
theorem isChar_cons_iff (a : UInt8) (l : List UInt8) :
    IsChar (a :: l) ↔ ∃ s, leadState a = some s ∧ Completes s l := by
  rw [isChar_iff]
  simp only [leadState_eq_some, Fin.exists_fin_succ]
  match l with
  | [] => simp [CharBytes, Completes]
  | [b] =>
    simp [CharBytes, Completes, strictStep, owing, missing, ranges, tail]
    omega
  | [b, c] =>
    simp [CharBytes, Completes, strictStep, owing, missing, ranges, tail]
    omega
  | [b, c, d] =>
    simp [CharBytes, Completes, strictStep, owing, missing, ranges, tail]
    omega
  | b :: c :: d :: e :: l =>
    simp [CharBytes, Completes, strictStep, owing, missing, ranges]

/-- Bytes that complete a state. -/
def completion (s : State) : List UInt8 :=
  match s with
  | 0 => []
  | 1 => [0x80]
  | 2 => [0x80, 0x80]
  | 3 => [0xA0, 0x80]
  | 4 => [0x80, 0x80]
  | 5 => [0x80, 0x80, 0x80]
  | 6 => [0x90, 0x80, 0x80]
  | 7 => [0x80, 0x80, 0x80]

theorem completes_completion (s : State) : Completes s (completion s) := by
  fin_cases s <;> simp [completion, Completes, strictStep, owing, missing, ranges]

theorem completion_ne_nil {s : State} (hs : s ≠ 0) : completion s ≠ [] := by
  fin_cases s <;> simp_all [completion]

/-! ## The strict decoder accepts well-formed text -/

/-- **From a state, the strict decoder ends clean exactly on the bytes that complete the state with
well-formed text behind them.** -/
theorem strictRun_zero_iff (s : State) (bs : List UInt8) :
    strictRun s bs = some 0 ↔ ∃ l r, bs = l ++ r ∧ Completes s l ∧ WellFormed r := by
  induction bs generalizing s with
  | nil =>
    constructor
    · intro h
      exact ⟨[], [], rfl, by simpa [Completes] using h, wellFormed_nil⟩
    · rintro ⟨l, r, hlr, hl, -⟩
      obtain ⟨rfl, rfl⟩ := List.nil_eq_append_iff.mp hlr
      simpa [Completes] using hl
  | cons b bs ih =>
    rw [strictRun_cons, Option.bind_eq_some_iff]
    simp only [ih]
    by_cases hs : s = 0
    · subst hs
      constructor
      · -- a lead byte, its character, and what follows
        rintro ⟨s', hb, l, r, rfl, hl, hr⟩
        have hc : IsChar (b :: l) := (isChar_cons_iff b l).mpr ⟨s', hb, hl⟩
        exact ⟨[], (b :: l) ++ r, rfl, rfl, hc.wellFormed_append hr⟩
      · rintro ⟨l, r, hlr, hl, hr⟩
        rw [completes_zero] at hl
        subst hl
        rcases hr.cases with rfl | ⟨c, r', rfl, hc, hr'⟩
        · simp at hlr
        · cases c with
          | nil => exact absurd rfl hc.ne_nil
          | cons a l =>
            obtain ⟨rfl, rfl⟩ : b = a ∧ bs = l ++ r' := by simpa using hlr
            obtain ⟨s', hb, hl⟩ := (isChar_cons_iff b l).mp hc
            exact ⟨s', hb, l, r', rfl, hl, hr'⟩
    · constructor
      · rintro ⟨s', hb, l, r, rfl, hl, hr⟩
        exact ⟨b :: l, r, rfl, ⟨hs, s', hb, hl⟩, hr⟩
      · rintro ⟨l, r, hlr, hl, hr⟩
        cases l with
        | nil => exact absurd hl hs
        | cons a l =>
          obtain ⟨rfl, rfl⟩ : b = a ∧ bs = l ++ r := by simpa using hlr
          obtain ⟨-, s', hb, hl⟩ := hl
          exact ⟨s', hb, l, r, rfl, hl, hr⟩

theorem strictRun_zero (bs : List UInt8) : strictRun 0 bs = some 0 ↔ WellFormed bs := by
  rw [strictRun_zero_iff]
  constructor
  · rintro ⟨l, r, rfl, hl, hr⟩
    rw [completes_zero] at hl
    subst hl
    exact hr
  · intro h
    exact ⟨[], bs, rfl, rfl, h⟩

/-- **The strict decoder succeeds exactly on the prefixes of well-formed text.** -/
theorem strictRun_isSome_iff (bs : List UInt8) :
    (strictRun 0 bs).isSome ↔ ∃ rest, WellFormed (bs ++ rest) := by
  simp only [← strictRun_zero, strictRun_append]
  constructor
  · intro h
    obtain ⟨s, hs⟩ := Option.isSome_iff_exists.mp h
    refine ⟨completion s, ?_⟩
    rw [hs, Option.bind_some, strictRun_zero_iff]
    exact ⟨completion s, [], (List.append_nil _).symm, completes_completion s, wellFormed_nil⟩
  · rintro ⟨rest, h⟩
    cases hs : strictRun 0 bs with
    | none => simp [hs] at h
    | some s => rfl

/-! ## A begun character -/

/-- The bytes of one character so far, and the state they lead to. -/
inductive Pending : List UInt8 → State → Prop where
  | lead {b : UInt8} {s : State} : leadState b = some s → s ≠ 0 → Pending [b] s
  | more {p : List UInt8} {s s' : State} {b : UInt8} :
    Pending p s → strictStep s b = some s' → s' ≠ 0 → Pending (p ++ [b]) s'

theorem Pending.ne_zero {p : List UInt8} {s : State} (h : Pending p s) : s ≠ 0 := by
  cases h with
  | lead _ hs => exact hs
  | more _ _ hs => exact hs

theorem Pending.ne_nil {p : List UInt8} {s : State} (h : Pending p s) : p ≠ [] := by
  cases h with
  | lead _ _ => simp
  | more _ _ _ => simp

theorem Pending.strictRun {p : List UInt8} {s : State} (h : Pending p s) :
    strictRun 0 p = some s := by
  induction h with
  | lead hb _ => simp [strictStep, hb]
  | more _ hb _ ih => simp [strictRun_append, ih, hb]

/-- A begun character and the bytes that complete its state are a character. -/
theorem Pending.isChar {p : List UInt8} {s : State} (h : Pending p s) {l : List UInt8}
    (hl : Completes s l) : IsChar (p ++ l) := by
  induction h generalizing l with
  | lead hb _ => exact (isChar_cons_iff _ l).mpr ⟨_, hb, hl⟩
  | more hp hb _ ih =>
    rw [List.append_assoc]
    exact ih ⟨hp.ne_zero, _, hb, hl⟩

/-- The bytes before the last of a character are begun and not complete. -/
theorem Pending.append {q : List UInt8} {s : State} (h : Pending q s)
    {l r : List UInt8} (hr : r ≠ [])
    (hl : Completes s (l ++ r)) : ∃ s', Pending (q ++ l) s' ∧ Completes s' r := by
  induction l generalizing q s with
  | nil => exact ⟨s, by simpa using h, hl⟩
  | cons b l ih =>
    obtain ⟨-, s', hb, hl⟩ := hl
    have hs' : s' ≠ 0 := by
      rintro rfl
      simp [hr] at hl
    obtain ⟨t, ht, htr⟩ := ih (h.more hb hs') hl
    exact ⟨t, by simpa using ht, htr⟩

theorem isPartial_iff (p : List UInt8) : IsPartial p ↔ ∃ s, Pending p s := by
  constructor
  · rintro ⟨hp, rest, hrest, hc⟩
    cases p with
    | nil => exact absurd rfl hp
    | cons a p =>
      obtain ⟨s, ha, hl⟩ := (isChar_cons_iff a (p ++ rest)).mp hc
      have hs : s ≠ 0 := by
        rintro rfl
        simp [hrest] at hl
      obtain ⟨s', hs', -⟩ := (Pending.lead ha hs).append hrest hl
      exact ⟨s', hs'⟩
  · rintro ⟨s, h⟩
    exact ⟨h.ne_nil, completion s, completion_ne_nil h.ne_zero, h.isChar (completes_completion s)⟩

/-- **The strict decoder ends inside a character exactly on well-formed text and a begun
character**, the one the state stands for. -/
theorem strictRun_pending_iff (bs : List UInt8) {s : State} (hs : s ≠ 0) :
    strictRun 0 bs = some s ↔ ∃ pre p, bs = pre ++ p ∧ WellFormed pre ∧ Pending p s := by
  constructor
  · intro h
    induction bs using List.reverseRecOn generalizing s with
    | nil => simp [hs.symm] at h
    | append_singleton bs b ih =>
      simp only [strictRun_append, strictRun_cons, strictRun_nil, Option.bind_fun_some,
        Option.bind_eq_some_iff] at h
      obtain ⟨t, ht, hb⟩ := h
      by_cases ht0 : t = 0
      · subst ht0
        exact ⟨bs, [b], rfl, (strictRun_zero bs).mp ht, .lead hb hs⟩
      · obtain ⟨pre, p, rfl, hpre, hp⟩ := ih ht0 ht
        exact ⟨pre, p ++ [b], List.append_assoc _ _ _, hpre, hp.more hb hs⟩
  · rintro ⟨pre, p, rfl, hpre, hp⟩
    rw [strictRun_append, (strictRun_zero pre).mpr hpre]
    exact hp.strictRun

/-! ## The permissive decoder -/

/-- The text ends with the begun character that the state stands for, if it is pending. -/
def Ends (x : List UInt8) (s : State) : Prop := s ≠ 0 → ∃ before p, x = before ++ p ∧ Pending p s

theorem feed_zero (b : UInt8) : feed 0 b = (leadState b).getD 0 := by
  unfold feed strictStep
  cases leadState b <;> rfl

/-- A byte that breaks a character is read again at state 0. -/
theorem feed_of_none {s : State} {b : UInt8} (h : strictStep s b = none) : feed s b = feed 0 b := by
  by_cases hs : s = 0
  · rw [hs]
  · rw [feed_zero]
    unfold feed
    rw [h]
    simp only [ne_eq, hs, not_false_eq_true, if_true]
    rfl

theorem ends_lead (x : List UInt8) (b : UInt8) : Ends (x ++ [b]) (feed 0 b) := by
  intro hs
  rw [feed_zero] at hs ⊢
  cases h : leadState b with
  | none => simp [h] at hs
  | some s => exact ⟨x, [b], rfl, .lead h (by simpa [h] using hs)⟩

/-- **What `feed` leaves pending is a begun character at the end of the text.** -/
theorem feed_ends {x : List UInt8} {s : State} (h : Ends x s) (b : UInt8) :
    Ends (x ++ [b]) (feed s b) := by
  cases hb : strictStep s b with
  | none =>
    rw [feed_of_none hb]
    exact ends_lead x b
  | some s' =>
    by_cases hs : s = 0
    · subst hs
      exact ends_lead x b
    · rw [feed_of_strictStep hb]
      intro hs'
      obtain ⟨before, p, rfl, hp⟩ := h hs
      exact ⟨before, p ++ [b], List.append_assoc _ _ _, hp.more hb hs'⟩

theorem nextState_ends {x : List UInt8} {s : State} (h : Ends x s) (bs : List UInt8) :
    Ends (x ++ bs) (nextState s bs) := by
  induction bs generalizing x s with
  | nil => simpa [nextState] using h
  | cons b bs ih =>
    have := ih (feed_ends h b)
    simpa [nextState] using this

/-! ## Joining -/

theorem missing_le (s : State) : missing s ≤ 3 := by
  fin_cases s <;> decide

theorem missing_pos {s : State} (hs : s ≠ 0) : 0 < missing s := by
  fin_cases s <;> simp_all [missing]

theorem missing_owing (k : Nat) : missing (owing k) ≤ k := by
  match k with
  | 0 | 1 | k + 2 => simp [owing, missing]

/-- A byte that continues a character starts none. -/
theorem leadState_of_range {s : State} {b : UInt8} (h1 : (ranges s).1 ≤ b.toNat)
    (h2 : b.toNat ≤ (ranges s).2) : leadState b = none := by
  have hr : 0x80 ≤ (ranges s).1 ∧ (ranges s).2 ≤ 0xBF := by
    fin_cases s <;> decide
  unfold leadState
  dsimp only
  split_ifs <;> first | rfl | omega

/-- **One byte joins a state with state 0, or brings it closer** while state 0 stays where it is. -/
theorem feed_join (s : State) (b : UInt8) :
    feed s b = feed 0 b ∨ (feed 0 b = 0 ∧ missing (feed s b) + 1 ≤ missing s) := by
  by_cases hs : s = 0
  · exact Or.inl (by rw [hs])
  cases hb : strictStep s b with
  | none => exact Or.inl (feed_of_none hb)
  | some s' =>
    obtain ⟨⟨h1, h2⟩, rfl⟩ := (strictStep_inside hs b s').mp hb
    have h3 := missing_owing (missing s - 1)
    have h4 := missing_pos hs
    refine Or.inr ⟨by simp [feed_zero, leadState_of_range h1 h2], ?_⟩
    rw [feed_of_strictStep hb]
    omega

/-- **Bytes join a state with state 0, or as many are no longer missing.** -/
theorem nextState_join (s : State) (bs : List UInt8) :
    nextState s bs = nextState 0 bs ∨
      (nextState 0 bs = 0 ∧ missing (nextState s bs) + bs.length ≤ missing s) := by
  induction bs generalizing s with
  | nil => exact Or.inr ⟨rfl, le_refl _⟩
  | cons b bs ih =>
    have e : ∀ t, nextState t (b :: bs) = nextState (feed t b) bs := fun _ => rfl
    rw [e, e, List.length_cons]
    rcases feed_join s b with h | ⟨h0, h⟩
    · exact Or.inl (by rw [h])
    · rw [h0]
      rcases ih (feed s b) with h' | ⟨h', h''⟩
      · exact Or.inl h'
      · exact Or.inr ⟨h', by omega⟩

end Ringside.Utf8Guard

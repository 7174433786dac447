import Mathlib.Data.List.TakeWhile
import Ringside.Utf8Guard.Tokens

/-!
# The UTF-8 guard's kernels (`_utf8_state_kernel`, `_utf8_mask_kernel`)

The state kernel finds a row's pending state from the last committed tokens and the drafts before
the row, checks that a valid continuation has a finite logit, and folds: the probability of a token
that goes on past a character's end moves to the token of its prefix. The mask kernel writes minus
infinity.

* A logit is a finite value, or `none` for minus infinity. `addExp` is `logaddexp` of two finite
  logits, any function of them.
* The tables are those of `Tokens`, computed for the served vocabulary (`Guard`).
* `kernelState` is the state of the row at a local position: the last four of the request's tokens
  and the drafts. An id outside the vocabulary resets the state.
* The entries of the fold table are taken in order; a program of the kernel holds a row.
* The vocabulary blocks of the mask kernel's grid cover the vocabulary and are one function here.

Results:
* `window_exact`: the last four committed tokens give the state of the whole sequence.
* `folded_support`: folding keeps a valid continuation finite.
* `guard_safe_iff`: when a row is emptied or a token unmasked. Mode 2 at a boundary does not look at
  the row's support (`BoundaryOk`).

Out of scope: sampling, and which rows of a batch have the guard on.
-/

namespace Ringside.Utf8Guard

/-! ## The state of a row

The automaton forgets: four tokens that have a byte or reset it lead to the same state from
everywhere. So four committed tokens are enough of a past, whatever was before.
-/

section Window

variable (tb : List Token)

/-- One token of the kernel's loops: an id outside the vocabulary resets. -/
def tokenStep (s : State) (tok : Int) : State :=
  if 0 ≤ tok ∧ tok < tb.length then nextToken s (tb.getD tok.toNat none) else 0

/-- The state of the row at local position `j`: the last four of the request's `total` tokens, and
the drafts behind input `first`. -/
def kernelState (maxDrafts : Nat) (allIds : Nat → Int) (total : Nat) (inputIds : Nat → Int)
    (first j : Nat) : State :=
  let s := (List.range 4).foldl (fun s (i : Nat) =>
    let pos := (total : Int) - 4 + i
    if 0 ≤ pos then tokenStep tb s (allIds pos.toNat) else s) 0
  (List.range' 1 maxDrafts).foldl (fun s i =>
    if i ≤ j then tokenStep tb s (inputIds (first + i)) else s) s

/-- A token that resets the state or has a byte. -/
def Contributes (tok : Int) : Prop :=
  0 ≤ tok → tok < tb.length → tb.getD tok.toNat none ≠ some []

variable {tb}

/-- **One contributing token joins a state with state 0, or brings it closer.** -/
theorem tokenStep_join {tok : Int} (h : Contributes tb tok) (s : State) :
    tokenStep tb s tok = tokenStep tb 0 tok ∨
      (tokenStep tb 0 tok = 0 ∧ missing (tokenStep tb s tok) + 1 ≤ missing s) := by
  unfold tokenStep
  split_ifs with hr
  · cases ht : tb.getD tok.toNat none with
    | none => exact Or.inl rfl
    | some data =>
      have hlen : 0 < data.length :=
        List.length_pos_iff.mpr fun hd => h hr.1 hr.2 (by rw [ht, hd])
      rcases nextState_join s data with hj | ⟨h0, hj⟩
      · exact Or.inl hj
      · exact Or.inr ⟨h0, by simp only [nextToken]; omega⟩
  · exact Or.inl rfl

/-- **Tokens join a state with state 0, or as many are no longer missing.** -/
theorem tokens_join : ∀ (toks : List Int) (_ : ∀ tok ∈ toks, Contributes tb tok) (s : State),
    toks.foldl (tokenStep tb) s = toks.foldl (tokenStep tb) 0 ∨
      (toks.foldl (tokenStep tb) 0 = 0 ∧
        missing (toks.foldl (tokenStep tb) s) + toks.length ≤ missing s)
  | [], _, _ => Or.inr ⟨rfl, le_refl _⟩
  | tok :: toks, h, s => by
    obtain ⟨htok, htoks⟩ := List.forall_mem_cons.mp h
    simp only [List.foldl_cons, List.length_cons]
    rcases tokenStep_join htok s with hj | ⟨h0, hj⟩
    · exact Or.inl (by rw [hj])
    · rw [h0]
      rcases tokens_join toks htoks (tokenStep tb s tok) with hk | ⟨hk0, hk⟩
      · exact Or.inl hk
      · exact Or.inr ⟨hk0, by omega⟩

/-- Four contributing tokens lead where they lead from state 0. -/
theorem tokens_forget {toks : List Int} (h : ∀ tok ∈ toks, Contributes tb tok)
    (hlen : 4 ≤ toks.length) (s : State) :
    toks.foldl (tokenStep tb) s = toks.foldl (tokenStep tb) 0 := by
  rcases tokens_join toks h s with hj | ⟨-, hj⟩
  · exact hj
  · have := missing_le s
    omega

/-- The first loop folds the last four committed tokens. -/
theorem window_eq (allIds : Nat → Int) (total : Nat) :
    (List.range 4).foldl (fun s (i : Nat) =>
      let pos := (total : Int) - 4 + i
      if 0 ≤ pos then tokenStep tb s (allIds pos.toNat) else s) 0 =
      (((List.range total).map allIds).drop (total - 4)).foldl (tokenStep tb) 0 := by
  rcases Nat.lt_or_ge total 4 with h | h
  · interval_cases total <;> simp [List.range_succ]
  · obtain ⟨n, rfl⟩ := Nat.exists_eq_add_of_le' h
    have hstep : ∀ (s : State) (i : Nat),
        (if 0 ≤ ((n + 4 : Nat) : Int) - 4 + i then
          tokenStep tb s (allIds (((n + 4 : Nat) : Int) - 4 + i).toNat) else s) =
          tokenStep tb s (allIds (n + i)) := by
      intro s i
      rw [if_pos (by omega), show (((n + 4 : Nat) : Int) - 4 + i).toNat = n + i by omega]
    have hdrop : ((List.range (n + 4)).map allIds).drop n =
        [allIds n, allIds (n + 1), allIds (n + 2), allIds (n + 3)] := by
      rw [List.range_add, List.map_append, List.drop_append]
      simp [List.range_succ]
    rw [Nat.add_sub_cancel, hdrop]
    refine (List.foldl_ext _ (fun s i => tokenStep tb s (allIds (n + i))) _
      fun s i _ => hstep s i).trans ?_
    simp [List.range_succ]

/-- The second loop folds the drafts up to the row. -/
theorem drafts_eq {maxDrafts j : Nat} (hj : j ≤ maxDrafts) (g : Nat → Int) (s : State) :
    (List.range' 1 maxDrafts).foldl (fun s i => if i ≤ j then tokenStep tb s (g i) else s) s =
      ((List.range' 1 j).map g).foldl (tokenStep tb) s := by
  obtain ⟨d, rfl⟩ := Nat.exists_eq_add_of_le hj
  have hin : ∀ (l : List Nat) (s : State), (∀ i ∈ l, i ≤ j) →
      l.foldl (fun s i => if i ≤ j then tokenStep tb s (g i) else s) s =
        (l.map g).foldl (tokenStep tb) s := by
    intro l
    induction l with
    | nil => exact fun _ _ => rfl
    | cons i l ih =>
      intro s hl
      obtain ⟨hi, hl⟩ := List.forall_mem_cons.mp hl
      simp only [List.foldl_cons, List.map_cons, hi, if_true, ih _ hl]
  have hout : ∀ (l : List Nat) (s : State), (∀ i ∈ l, j < i) →
      l.foldl (fun s i => if i ≤ j then tokenStep tb s (g i) else s) s = s := by
    intro l
    induction l with
    | nil => exact fun _ _ => rfl
    | cons i l ih =>
      intro s hl
      obtain ⟨hi, hl⟩ := List.forall_mem_cons.mp hl
      simp only [List.foldl_cons, show ¬ i ≤ j by omega, if_false, ih _ hl]
  have hrow : ∀ i ∈ List.range' 1 j, i ≤ j := by
    intro i hi
    rw [List.mem_range'_1] at hi
    omega
  have hbehind : ∀ i ∈ List.range' (1 + j) d, j < i := by
    intro i hi
    rw [List.mem_range'_1] at hi
    omega
  rw [← List.range'_append_1, List.foldl_append, hin _ s hrow, hout _ _ hbehind]

/-- **The window is exact**: four committed tokens and the drafts give the state of the whole
sequence. -/
theorem window_exact (tb : List Token) (maxDrafts : Nat) (allIds : Nat → Int) (total : Nat)
    (inputIds : Nat → Int) (first j : Nat) (hc : ∀ i < total, Contributes tb (allIds i))
    (hj : j ≤ maxDrafts) :
    kernelState tb maxDrafts allIds total inputIds first j =
      ((List.range total).map allIds ++ (List.range' 1 j).map fun i => inputIds (first + i)).foldl
        (tokenStep tb) 0 := by
  have hmem : ∀ tok ∈ (List.range total).map allIds, Contributes tb tok := by
    intro tok htok
    obtain ⟨i, hi, rfl⟩ := List.mem_map.mp htok
    exact hc i (List.mem_range.mp hi)
  have hwindow : (((List.range total).map allIds).drop (total - 4)).foldl (tokenStep tb) 0 =
      ((List.range total).map allIds).foldl (tokenStep tb) 0 := by
    rcases Nat.lt_or_ge total 4 with h | h
    · rw [show total - 4 = 0 by omega, List.drop_zero]
    · conv_rhs => rw [← List.take_append_drop (total - 4) ((List.range total).map allIds),
        List.foldl_append]
      refine (tokens_forget (fun tok htok => hmem tok (List.mem_of_mem_drop htok)) ?_ _).symm
      simp
      omega
  unfold kernelState
  simp only []
  rw [window_eq, drafts_eq hj fun i => inputIds (first + i), hwindow, List.foldl_append]

/-- A lead byte five tokens back, completed, and a draft that begins another character. -/
theorem window_exact_accent :
    (4 ≤ 16) ∧ kernelState [some [0xC3], some [0xA9], some [0x41], none] 16
        (fun i => [0, 1, 2, 3, 2].getD i 0) 5 (fun i => [2, 0].getD i 0) 0 1 =
      ([0, 1, 2, 3, 2, 0].foldl (tokenStep [some [0xC3], some [0xA9], some [0x41], none]) 0) :=
  ⟨by decide, window_exact _ 16 (fun i => [0, 1, 2, 3, 2].getD i 0) 5 (fun i => [2, 0].getD i 0) 0 1
    (by unfold Contributes; decide) (by decide)⟩

end Window

/-! ## Folding and masking a row -/

/-- The settings and the served vocabulary of a guard. -/
structure Guard where
  tb : List Token
  mode : Nat
  fold : Bool
  greedy : Bool

/-- A row of logits. -/
abbrev Row (α : Type) := Nat → Option α

namespace Guard

variable (G : Guard)

/-- `VALID`. -/
def valid (t : Nat) : Nat := validBits (G.tb.getD t none)

/-- `valid_ids[st]`. -/
def validIds (s : State) : List Nat :=
  if s ≠ 0 then (List.range G.tb.length).filter fun t => (G.valid t).testBit s.val else []

/-- `fold_mixed`, `fold_prefix`, `fold_state`: a state of -1 is nobody's. -/
def foldTable : List (Nat × Nat × Int) :=
  let pairs := if G.fold then foldPairs G.tb else []
  if pairs = [] then [(0, 0, -1)] else pairs.map fun (m, p, s) => (m, p, (s.val : Int))

/-- `binv`: with no byte-invalid token the list is `[0]`. -/
def binv : List Nat :=
  let ids := (List.range G.tb.length).filter fun t => !(G.valid t).testBit 0
  if ids = [] then [0] else ids

end Guard

/-- `maxv`. -/
def maxv : Nat := 256

/-- What the state kernel leaves of a row. -/
structure RowOut (α : Type) where
  row : Row α
  /-- `MASK_CODE`. -/
  code : Nat
  /-- `STATES_OUT`. -/
  states : Int
  /-- `CONFLICTS` is counted up. -/
  conflict : Bool

section Mask

variable {α : Type} (G : Guard) (addExp : α → α → α)

/-- One entry of the fold table: the mixed token's probability moves to its prefix. -/
def foldStep (out : State) (acc : Row α × Bool) (e : Nat × Nat × Int) : Row α × Bool :=
  if e.2.2 = out.val then
    match acc.1 e.1 with
    | some lm =>
      let moved := match acc.1 e.2.1 with
        | some lp => addExp lm lp
        | none => lm
      (Function.update (Function.update acc.1 e.2.1 (some moved)) e.1 none, true)
    | none => acc
  else acc

/-- Some valid continuation has a finite logit. -/
def support (row : Row α) (out : State) : Bool :=
  ((G.validIds out).take maxv).any fun t => (row t).isSome

/-- `_utf8_state_kernel` from the row's state on. -/
def stateKernel (row : Row α) (s : State) (temp : ℚ) : RowOut α :=
  let out := if G.greedy then s else if temp = 0 then 0 else s
  let guarded := G.greedy || decide (temp ≠ 0)
  let code := if G.mode = 2 ∧ guarded ∧ out = 0 then 8 else 0
  if out ≠ 0 then
    if support G row out then
      let f := G.foldTable.foldl (foldStep addExp out) (row, false)
      ⟨f.1, out.val, if f.2 then (out.val ||| 16 : Nat) else out.val, false⟩
    else ⟨row, code, -out.val, true⟩
  else ⟨row, code, 0, false⟩

/-- `_utf8_mask_kernel`. -/
def maskKernel (row : Row α) (code : Nat) : Row α := fun t =>
  if 0 < code ∧ code < 8 ∧ t < G.tb.length ∧ (G.valid t).testBit code = false then none
  else if code = 8 ∧ t ∈ G.binv then none
  else row t

/-- `Utf8Guard.apply`, for one row. -/
def guardRow (row : Row α) (s : State) (temp : ℚ) : Row α :=
  let mid := stateKernel G addExp row s temp
  maskKernel G mid.row mid.code

end Mask

/-! ## The fold pairs -/

/-- What `fold_pairs` says of an entry. -/
theorem foldPairs_spec {tb : List Token} {m p : Nat} {s : State} (h : (m, p, s) ∈ foldPairs tb) :
    ∃ data, tb[m]? = some (some data) ∧ foldLen data < data.length ∧
      byId tb (data.take (foldLen data)) = some p ∧ validFrom s data := by
  simp only [foldPairs, List.mem_flatMap, Prod.exists] at h
  obtain ⟨t, i, hti, h⟩ := h
  cases t with
  | none => simp at h
  | some data =>
    have hk := List.mem_zipIdx_iff_getElem?.mp hti
    simp only [foldPairsOf] at h
    split_ifs at h with hlen
    · simp only [List.mem_filterMap] at h
      obtain ⟨st, -, h⟩ := h
      split_ifs at h with hst
      simp only [Option.map_eq_some_iff, Prod.mk.injEq] at h
      obtain ⟨p', hp, rfl, rfl, rfl⟩ := h
      exact ⟨data, hk, hlen.2, hp, by rw [← testBit_validBits]; exact hst.2.1⟩
    · simp at h

/-- The first token with these bytes has them. -/
theorem byId_spec {tb : List Token} {data : List UInt8} {p : Nat} (h : byId tb data = some p) :
    tb[p]? = some (some data) := by
  unfold byId at h
  obtain ⟨hp, hd, -⟩ := List.findIdx?_eq_some_iff_getElem.mp h
  rw [List.getElem?_eq_getElem hp]
  simpa using hd

/-- The completing bytes are continuation bytes only. -/
theorem foldLen_take (data : List UInt8) :
    foldLen (data.take (foldLen data)) = (data.take (foldLen data)).length := by
  have h : data.take (foldLen data) = data.takeWhile Utf8.tail := by
    conv_lhs =>
      rw [foldLen]
      arg 2
      rw [← List.takeWhile_append_dropWhile (p := Utf8.tail) (l := data)]
    exact List.take_left
  rw [h, foldLen, List.takeWhile_idem]

theorem validFrom_take {s : State} {data : List UInt8} (h : validFrom s data) (k : Nat) :
    validFrom s (data.take k) := by
  rw [validFrom_eq] at h ⊢
  rw [← List.take_append_drop k data, strictRun_append] at h
  cases hs : strictRun s (data.take k) with
  | none => simp [hs] at h
  | some s' => rfl

section Table

variable {G : Guard} {m p : Nat} {s : State}

/-- The entries of the table at a pending state are fold pairs. -/
theorem mem_foldTable (h : (m, p, (s.val : Int)) ∈ G.foldTable) : (m, p, s) ∈ foldPairs G.tb := by
  unfold Guard.foldTable at h
  cases hf : G.fold with
  | false => simp [hf] at h
  | true =>
    simp only [hf, if_true] at h
    split_ifs at h with hnil
    · simp at h
    · obtain ⟨⟨m', p', s'⟩, hmem, he⟩ := List.mem_map.mp h
      simp only [Prod.mk.injEq, Int.natCast_inj, Fin.val_inj] at he
      obtain ⟨rfl, rfl, rfl⟩ := he
      exact hmem

/-- A prefix continues the state of its entry, within the vocabulary. -/
theorem prefix_valid (h : (m, p, (s.val : Int)) ∈ G.foldTable) :
    p < G.tb.length ∧ (G.valid p).testBit s.val := by
  obtain ⟨data, -, -, hp, hv⟩ := foldPairs_spec (mem_foldTable h)
  have hget := byId_spec hp
  refine ⟨(List.getElem?_eq_some_iff.mp hget).1, ?_⟩
  rw [Guard.valid, List.getD_eq_getElem?_getD, hget, Option.getD_some, testBit_validBits]
  exact validFrom_take hv _

/-- A prefix is nobody's mixed token. -/
theorem prefix_ne_mixed {m' p' : Nat} (h : (m, p, (s.val : Int)) ∈ G.foldTable)
    (h' : (m', p', (s.val : Int)) ∈ G.foldTable) : p ≠ m' := by
  rintro rfl
  obtain ⟨data, -, -, hp, -⟩ := foldPairs_spec (mem_foldTable h)
  obtain ⟨data', hm, hlen, -, -⟩ := foldPairs_spec (mem_foldTable h')
  rw [byId_spec hp, Option.some_inj, Option.some_inj] at hm
  rw [← hm, foldLen_take] at hlen
  exact lt_irrefl _ hlen

/-- A mixed token has one prefix. -/
theorem prefix_unique {p' : Nat} (h : (m, p, (s.val : Int)) ∈ G.foldTable)
    (h' : (m, p', (s.val : Int)) ∈ G.foldTable) : p = p' := by
  obtain ⟨data, hm, -, hp, -⟩ := foldPairs_spec (mem_foldTable h)
  obtain ⟨data', hm', -, hp', -⟩ := foldPairs_spec (mem_foldTable h')
  rw [hm, Option.some_inj, Option.some_inj] at hm'
  subst hm'
  exact Option.some_inj.mp (hp.symm.trans hp')

end Table

/-! ## What the kernels do to a row

Only one thing about a logit matters here, whether it is finite. A fold moves a probability and bans
the mixed token; what is finite afterwards is known from the pairs of the state.
-/

section Mask

variable {α : Type} (addExp : α → α → α)

/-- One fold entry whose mixed token has a finite logit. -/
theorem foldStep_live {s : State} {row : Row α} {b : Bool} {m p : Nat} (hm : (row m).isSome)
    (hpm : p ≠ m) (t : Nat) :
    ((foldStep addExp s (row, b) (m, p, s.val)).1 t).isSome ↔ t ≠ m ∧ (t = p ∨ (row t).isSome) := by
  obtain ⟨lm, hlm⟩ := Option.isSome_iff_exists.mp hm
  simp only [foldStep, if_true, hlm]
  by_cases h1 : t = m
  · simp [h1]
  · by_cases h2 : t = p
    · subst h2
      simp [h1]
    · simp [h1, h2]

/-- **What folding leaves finite**: every mixed token of the state is banned, and a prefix is finite
when it was or one of its mixed tokens was. -/
theorem foldl_isSome {s : State} : ∀ (l : List (Nat × Nat × Int))
    (_ : ∀ m p m' p', (m, p, (s.val : Int)) ∈ l → (m', p', (s.val : Int)) ∈ l → p ≠ m')
    (_ : ∀ m p p', (m, p, (s.val : Int)) ∈ l → (m, p', (s.val : Int)) ∈ l → p = p')
    (row : Row α) (b : Bool) (t : Nat),
    ((l.foldl (foldStep addExp s) (row, b)).1 t).isSome ↔
      (∀ p, (t, p, (s.val : Int)) ∉ l) ∧
        ((row t).isSome ∨ ∃ m, (m, t, (s.val : Int)) ∈ l ∧ (row m).isSome)
  | [], _, _, row, b, t => by simp
  | (m₀, p₀, s₀) :: l, hpm, hfun, row, b, t => by
    have hpm' := fun m p m' p' h h' =>
      hpm m p m' p' (List.mem_cons_of_mem _ h) (List.mem_cons_of_mem _ h')
    have hfun' := fun m p p' h h' =>
      hfun m p p' (List.mem_cons_of_mem _ h) (List.mem_cons_of_mem _ h')
    have ih := foldl_isSome l hpm' hfun'
    rw [List.foldl_cons]
    by_cases hs : s₀ = s.val
    · subst hs
      have h₀ := hpm m₀ p₀
      by_cases hm : (row m₀).isSome
      · obtain ⟨row₁, b₁, h₁⟩ : ∃ row₁ b₁, foldStep addExp s (row, b)
          (m₀, p₀, s.val) = (row₁, b₁) :=
          ⟨_, _, rfl⟩
        have hlive := foldStep_live addExp (s := s) (b := b) hm (h₀ m₀ p₀ (by simp) (by simp))
        rw [h₁] at hlive ⊢
        rw [ih row₁ b₁ t]
        simp only [hlive, List.mem_cons, Prod.mk.injEq]
        grind
      · have h₁ : foldStep addExp s (row, b) (m₀, p₀, s.val) = (row, b) := by
          simp [foldStep, Option.not_isSome_iff_eq_none.mp hm]
        rw [h₁, ih row b t]
        simp only [List.mem_cons, Prod.mk.injEq]
        grind
    · have h₁ : foldStep addExp s (row, b) (m₀, p₀, s₀) = (row, b) := by simp [foldStep, hs]
      have hne : ∀ m p, (m, p, (s.val : Int)) ∈ (m₀, p₀, s₀) :: l ↔ (m, p, (s.val : Int)) ∈ l := by
        intro m p
        simp [Ne.symm hs]
      simp only [h₁, ih row b t, hne]

variable {G : Guard} {row : Row α} {s : State} {temp : ℚ}

/-- The row is folded at state `s`. -/
def folded (G : Guard) (row : Row α) (s : State) : Row α :=
  (G.foldTable.foldl (foldStep addExp s) (row, false)).1

theorem folded_isSome (t : Nat) : (folded addExp G row s t).isSome ↔
    (∀ p, (t, p, (s.val : Int)) ∉ G.foldTable) ∧
      ((row t).isSome ∨ ∃ m, (m, t, (s.val : Int)) ∈ G.foldTable ∧ (row m).isSome) :=
  foldl_isSome addExp _ (fun _ _ _ _ h h' => prefix_ne_mixed h h')
    (fun _ _ _ h h' => prefix_unique h h') row false t

/-- The row is one that the guard looks at. -/
def Guard.Guards (G : Guard) (temp : ℚ) : Prop := G.greedy = true ∨ temp ≠ 0

theorem stateKernel_unguarded (h : ¬ G.Guards temp) :
    (stateKernel G addExp row s temp).row = row ∧ (stateKernel G addExp row s temp).code = 0 := by
  simp only [Guard.Guards, not_or, Bool.not_eq_true, ne_eq, not_not] at h
  simp [stateKernel, h]

theorem stateKernel_clean (h : G.Guards temp) :
    (stateKernel G addExp row 0 temp).row = row ∧
      (stateKernel G addExp row 0 temp).code = if G.mode = 2 then 8 else 0 := by
  have hg : (G.greedy || decide (temp ≠ 0)) = true := by simpa [Guard.Guards] using h
  unfold stateKernel
  rw [hg]
  simp

theorem stateKernel_conflict (h : G.Guards temp) (hs : s ≠ 0) (hsup : support G row s = false) :
    (stateKernel G addExp row s temp).row = row ∧ (stateKernel G addExp row s temp).code = 0 := by
  have hout : (if G.greedy then s else if temp = 0 then 0 else s) = s := by
    rcases h with h | h <;> simp [h]
  simp [stateKernel, hout, hs, hsup]

theorem stateKernel_pending (h : G.Guards temp) (hs : s ≠ 0) (hsup : support G row s) :
    (stateKernel G addExp row s temp).row = folded addExp G row s ∧
      (stateKernel G addExp row s temp).code = s.val := by
  have hout : (if G.greedy then s else if temp = 0 then 0 else s) = s := by
    rcases h with h | h <;> simp [h]
  simp [stateKernel, hout, hs, hsup, folded]

theorem maskKernel_zero : maskKernel G row 0 = row := by
  funext t
  simp [maskKernel]

theorem maskKernel_boundary (t : Nat) :
    maskKernel G row 8 t = if t ∈ G.binv then none else row t := by
  simp [maskKernel]

theorem maskKernel_pending (hs : s ≠ 0) (t : Nat) :
    maskKernel G row s.val t =
      if t < G.tb.length ∧ (G.valid t).testBit s.val = false then none else row t := by
  have h1 : 0 < s.val := Fin.pos_iff_ne_zero.mpr hs
  simp [maskKernel, h1, s.isLt, s.isLt.ne]

/-- A supported row has a valid continuation in the vocabulary. -/
theorem exists_of_support (hs : s ≠ 0) (h : support G row s) :
    ∃ t < G.tb.length, (G.valid t).testBit s.val ∧ (row t).isSome := by
  obtain ⟨t, ht, hrow⟩ := List.any_eq_true.mp h
  have hmem := List.mem_of_mem_take ht
  simp only [Guard.validIds, ne_eq, hs, not_false_eq_true, if_true, List.mem_filter,
    List.mem_range] at hmem
  exact ⟨t, hmem.1, hmem.2, hrow⟩

/-- **Folding keeps the support**: a valid continuation is still finite, itself or through its
prefix. -/
theorem folded_support (hs : s ≠ 0) (h : support G row s) :
    ∃ t < G.tb.length, (G.valid t).testBit s.val ∧ (folded addExp G row s t).isSome := by
  obtain ⟨t, ht, hv, hrow⟩ := exists_of_support hs h
  by_cases hm : ∃ p, (t, p, (s.val : Int)) ∈ G.foldTable
  · obtain ⟨p, hp⟩ := hm
    obtain ⟨hlt, hvp⟩ := prefix_valid hp
    refine ⟨p, hlt, hvp, (folded_isSome addExp p).mpr ⟨fun p' hp' => ?_, Or.inr ⟨t, hp, hrow⟩⟩⟩
    exact prefix_ne_mixed hp hp' rfl
  · exact ⟨t, ht, hv, (folded_isSome addExp t).mpr ⟨not_exists.mp hm, Or.inl hrow⟩⟩

/-! ## When a row is safe

The cases are those of the row's state and of the mode. In each the finite logits afterwards are
given, and the condition is read off.
-/

/-- A row with a finite logit keeps one, and no token is unmasked. -/
def Safe (V : Nat) (before after : Row α) : Prop :=
  ((∃ t < V, (before t).isSome) → ∃ t < V, (after t).isSome) ∧
    ∀ t < V, before t = none → after t = none

/-- Mode 2 is not about to ban every finite token of a row at a boundary. -/
def BoundaryOk (G : Guard) (row : Row α) (s : State) (temp : ℚ) : Prop :=
  G.mode = 2 → G.Guards temp → s = 0 → (∃ t < G.tb.length, (row t).isSome) →
    ∃ t < G.tb.length, (row t).isSome ∧ t ∉ G.binv

/-- No probability is about to move to a banned prefix. -/
def FoldOk (G : Guard) (row : Row α) (s : State) (temp : ℚ) : Prop :=
  G.Guards temp → s ≠ 0 → support G row s → ∀ m p, (m, p, (s.val : Int)) ∈ G.foldTable →
    (row m).isSome → (row p).isSome

theorem safe_self (V : Nat) : Safe V row row := ⟨id, fun _ _ => id⟩

theorem safe_boundary : Safe G.tb.length row (maskKernel G row 8) ↔
    ((∃ t < G.tb.length, (row t).isSome) →
      ∃ t < G.tb.length, (row t).isSome ∧ t ∉ G.binv) := by
  have hmask : ∀ t, (maskKernel G row 8 t).isSome ↔ (row t).isSome ∧ t ∉ G.binv := by
    intro t
    rw [maskKernel_boundary]
    split_ifs with h <;> simp [h]
  simp only [Safe, hmask]
  refine and_iff_left ?_
  intro t _ ht
  rw [maskKernel_boundary, ht, ite_self]

/-- The rows that a pending state leaves. -/
theorem safe_pending (hs : s ≠ 0) (h : support G row s) :
    Safe G.tb.length (folded addExp G row s) (maskKernel G (folded addExp G row s) s.val) := by
  constructor
  · rintro -
    obtain ⟨t, ht, hv, ht'⟩ := folded_support addExp hs h
    refine ⟨t, ht, ?_⟩
    rw [maskKernel_pending hs, if_neg (by simp [hv])]
    exact ht'
  · intro t _ ht
    rw [maskKernel_pending hs, ht, ite_self]

/-- Folding unmasks a token exactly when a mixed token has a banned prefix. -/
theorem safe_folded_iff (hs : s ≠ 0) (h : support G row s) :
    Safe G.tb.length row (maskKernel G (folded addExp G row s) s.val) ↔
      ∀ m p, (m, p, (s.val : Int)) ∈ G.foldTable → (row m).isSome → (row p).isSome := by
  have hpend := safe_pending addExp hs h
  constructor
  · intro hsafe m p hmp hm
    by_contra hp
    obtain ⟨hlt, hv⟩ := prefix_valid hmp
    have hnone := hsafe.2 p hlt (Option.not_isSome_iff_eq_none.mp hp)
    rw [maskKernel_pending hs, if_neg (by simp [hv])] at hnone
    have hsome := (folded_isSome addExp p).mpr
      ⟨fun p' hp' => prefix_ne_mixed hmp hp' rfl, Or.inr ⟨m, hmp, hm⟩⟩
    simp [hnone] at hsome
  · intro hfold
    constructor
    · rintro -
      obtain ⟨t, ht, -, ht'⟩ := folded_support addExp hs h
      exact hpend.1 ⟨t, ht, ht'⟩
    · intro t hlt ht
      refine hpend.2 t hlt (Option.not_isSome_iff_eq_none.mp fun hsome => ?_)
      obtain ⟨-, hrow | ⟨m, hmt, hm⟩⟩ := (folded_isSome addExp t).mp hsome
      · simp [ht] at hrow
      · simpa [ht] using hfold m t hmt hm

/-- **The guard is safe exactly when** mode 2 does not ban a boundary row's whole support, and,
counted from before folding, no mixed token moves to a banned prefix. -/
theorem guard_safe_iff (G : Guard) (addExp : α → α → α) (row : Row α) (s : State) (temp : ℚ) :
    (Safe G.tb.length (stateKernel G addExp row s temp).row (guardRow G addExp row s temp) ↔
        BoundaryOk G row s temp) ∧
      (Safe G.tb.length row (guardRow G addExp row s temp) ↔
        BoundaryOk G row s temp ∧ FoldOk G row s temp) := by
  unfold guardRow
  dsimp only
  by_cases hg : G.Guards temp
  · by_cases hs : s = 0
    · subst hs
      obtain ⟨hrow, hcode⟩ : (stateKernel G addExp row 0 temp).row = row ∧ _ :=
        stateKernel_clean addExp hg
      have hfold : FoldOk G row 0 temp := fun _ h => absurd rfl h
      rw [hrow, hcode]
      split_ifs with hm
      · simp [safe_boundary, BoundaryOk, hm, hg, hfold]
      · simp [maskKernel_zero, safe_self, BoundaryOk, hm, hfold]
    · have hb : BoundaryOk G row s temp := fun _ _ h => absurd h hs
      by_cases hsup : support G row s
      · obtain ⟨hrow, hcode⟩ := stateKernel_pending addExp hg hs hsup
        rw [hrow, hcode]
        simp [safe_pending addExp hs hsup, safe_folded_iff addExp hs hsup, hb, FoldOk, hg, hs, hsup]
      · rw [Bool.not_eq_true] at hsup
        obtain ⟨hrow, hcode⟩ := stateKernel_conflict addExp hg hs hsup
        rw [hrow, hcode]
        simp [maskKernel_zero, safe_self, hb, FoldOk, hsup]
  · obtain ⟨hrow, hcode⟩ : (stateKernel G addExp row s temp).row = row ∧ _ :=
      stateKernel_unguarded addExp hg
    rw [hrow, hcode]
    simp [maskKernel_zero, safe_self, BoundaryOk, FoldOk, hg]

/-- In mode 2 a boundary row whose one finite logit is a stray continuation byte's is emptied. -/
theorem boundary_row_emptied :
    let G : Guard := ⟨[some [0x41], some [0x80]], 2, false, false⟩
    let row : Row Nat := fun t => if t = 1 then some 7 else none
    ¬ Safe 2 (stateKernel G (· + ·) row 0 1).row (guardRow G (· + ·) row 0 1) := by
  intro G row h
  obtain ⟨t, ht, hsome⟩ := h.1 ⟨1, by decide, by decide⟩
  revert hsome
  interval_cases t <;> decide

end Mask

end Ringside.Utf8Guard

import Ringside.Utf8Guard.Automaton

/-!
# The UTF-8 guard's token table (`build_table`, `fold_pairs`)

A token is its bytes, or `none` when it carries no text of its own (special and padding ids). The
table holds a validity bit and a next state for every state and token.

* `validBits` and `nextToken` are the two columns of the table. A token without bytes is valid at a
  boundary only, and its next state stays 0.
* `foldLen` and `byId` are the parts of `foldPairs`: the bytes of a token before the first that is
  no continuation byte, and the first token with these bytes.
* The vocabulary is any list of tokens, with repetitions and with tokens of any bytes.
* A run of tokens is their text (`text`), with nothing for a token without bytes, and the state that
  the table leads to.

Results:
* `testBit_validBits`: a token's bit is set exactly where its bytes continue the state.
* `guard_exact`: the strict decoder accepts well-formed text and its prefixes and nothing else, and
  where every token sampled at a pending state has its bit set, no begun character is ever broken.
-/

namespace Ringside.Utf8Guard

open Ringside.Utf8

/-- An entry of `token_bytes`. -/
abbrev Token := Option (List UInt8)

/-- `valid[i]`. -/
def validBits : Token → Nat
  | none => 1
  | some data =>
    (List.finRange 8).foldl (fun bits s => if validFrom s data then
      bits ||| 1 <<< s.val else bits) 0

/-- `next[s, i]`; it stays 0 for a token without bytes. -/
def nextToken (s : State) : Token → State
  | none => 0
  | some data => nextState s data

/-- `k` of `fold_pairs`: the bytes before the first that is no continuation byte. -/
def foldLen (data : List UInt8) : Nat := (data.takeWhile tail).length

/-- `byid`: the first token with these bytes. -/
def byId (tb : List Token) (data : List UInt8) : Option Nat := tb.findIdx? (· = some data)

/-- The entries of `fold_pairs` for one token. -/
def foldPairsOf (tb : List Token) (i : Nat) (data : List UInt8) : List (Nat × Nat × State) :=
  let k := foldLen data
  if 0 < k ∧ k < data.length then
    (List.finRange 8).filterMap fun s =>
      if s ≠ 0 ∧ (validBits (some data)).testBit s.val ∧ missing s = k ∧
        nextToken s (some data) ≠ 0 then
        (byId tb (data.take k)).map fun p => (i, p, s)
      else none
  else []

/-- `fold_pairs`. -/
def foldPairs (tb : List Token) : List (Nat × Nat × State) :=
  (tb.zipIdx).flatMap fun (t, i) =>
    match t with
    | some data => foldPairsOf tb i data
    | none => []

/-! ## The validity bits -/

theorem testBit_foldl_or (p : State → Bool) (l : List State) (n j : Nat) :
    (l.foldl (fun bits s => if p s then bits ||| 1 <<< s.val else bits) n).testBit j =
      (n.testBit j || l.any fun s => p s && s.val == j) := by
  induction l generalizing n with
  | nil => simp
  | cons s l ih =>
    rw [List.foldl_cons, ih, List.any_cons]
    by_cases h : p s
    · simp only [h, if_true, Nat.testBit_or, Nat.one_shiftLeft, Nat.testBit_two_pow, Bool.true_and,
        Bool.or_assoc]
      rfl
    · simp [h]

/-- **A token's bit is set exactly where its bytes continue the state.** -/
theorem testBit_validBits (data : List UInt8) (s : State) :
    (validBits (some data)).testBit s.val = validFrom s data := by
  unfold validBits
  rw [testBit_foldl_or (fun s => validFrom s data), Nat.zero_testBit, Bool.false_or]
  rw [Bool.eq_iff_iff, List.any_eq_true]
  constructor
  · rintro ⟨t, -, ht⟩
    simp only [Bool.and_eq_true, beq_iff_eq, Fin.val_inj] at ht
    rw [← ht.2]
    exact ht.1
  · intro h
    exact ⟨s, List.mem_finRange s, by simp [h]⟩

/-- A token without bytes continues no character. -/
theorem testBit_validBits_none {s : State} (hs : s ≠ 0) :
    (validBits none).testBit s.val = false := by
  revert s
  decide

/-! ## Runs of tokens -/

/-- The text of a run of tokens. -/
def text (ts : List Token) : List UInt8 := ts.flatMap (·.getD [])

/-- The state after a run of tokens. -/
def stateOf (ts : List Token) : State := ts.foldl nextToken 0

/-- Each token sampled at a pending state has its bit set. -/
def Guarded (ts : List Token) : Prop :=
  ∀ pre t post, ts = pre ++ t :: post → stateOf pre ≠ 0 → (validBits t).testBit (stateOf pre).val

theorem stateOf_concat (ts : List Token) (t : Token) :
    stateOf (ts ++ [t]) = nextToken (stateOf ts) t := by
  simp [stateOf]

theorem text_concat (ts : List Token) (t : Token) : text (ts ++ [t]) = text ts ++ t.getD [] := by
  simp [text]

theorem stateOf_ends (ts : List Token) : Ends (text ts) (stateOf ts) := by
  induction ts using List.reverseRecOn with
  | nil => exact fun h => absurd rfl h
  | append_singleton ts t ih =>
    rw [stateOf_concat, text_concat]
    cases t with
    | none => exact fun h => absurd rfl h
    | some data => exact nextState_ends ih data

/-- A guarded token continues what is pending. -/
theorem strictRun_guarded {x : List UInt8} {s : State} {t : Token} (hx : strictRun 0 x = some s)
    (hs : s ≠ 0) (ht : (validBits t).testBit s.val) :
    strictRun 0 (x ++ t.getD []) = some (nextToken s t) := by
  cases t with
  | none => simp [testBit_validBits_none hs] at ht
  | some data =>
    rw [testBit_validBits, validFrom_eq] at ht
    obtain ⟨s', hs'⟩ := Option.isSome_iff_exists.mp ht
    rw [strictRun_append, hx, Option.bind_some, Option.getD_some, hs', nextToken,
      nextState_of_strictRun hs']

/-- From a pending character on, guarded tokens keep the text since it began a prefix of well-formed
text, up to the first token that ends clean. -/
theorem strictRun_run {ts pre mid post : List Token} {p : List UInt8} (hg : Guarded ts)
    (hts : ts = pre ++ mid ++ post) (hp : Pending p (stateOf pre))
    (hmid : ∀ m t n, mid = m ++ t :: n → stateOf (pre ++ m) ≠ 0) :
    strictRun 0 (p ++ text mid) = some (stateOf (pre ++ mid)) := by
  induction mid using List.reverseRecOn generalizing post with
  | nil => simpa [text] using hp.strictRun
  | append_singleton mid t ih =>
    have hrun := @ih (t :: post) (by simp [hts]) fun m u n hm =>
      hmid m u (n ++ [t]) (by simp [hm])
    have hne := hmid mid t [] (by simp)
    have hbit := hg (pre ++ mid) t post (by simp [hts]) hne
    rw [text_concat, ← List.append_assoc, ← List.append_assoc, stateOf_concat]
    exact strictRun_guarded hrun hne hbit

/-- **The guard's automaton is exact, and no begun character is ever broken.** -/
theorem guard_exact :
    (∀ bs, strictRun 0 bs = some 0 ↔ WellFormed bs) ∧
    (∀ bs, (∃ s, s ≠ 0 ∧ strictRun 0 bs = some s) ↔
      ∃ pre p, bs = pre ++ p ∧ WellFormed pre ∧ IsPartial p) ∧
    (∀ s bs, validFrom s bs = (strictRun s bs).isSome ∧
      ∀ s', strictRun s bs = some s' → nextState s bs = s') ∧
    ∀ ts, Guarded ts → ∀ pre, stateOf pre ≠ 0 →
      ∃ before p, text pre = before ++ p ∧ IsPartial p ∧
        ∀ mid post, ts = pre ++ mid ++ post →
          (∀ m t n, mid = m ++ t :: n → stateOf (pre ++ m) ≠ 0) →
          ∃ rest, WellFormed (p ++ text mid ++ rest) := by
  refine ⟨strictRun_zero, fun bs => ?_, fun s bs => ⟨validFrom_eq s bs, ?_⟩, ?_⟩
  · constructor
    · rintro ⟨s, hs, h⟩
      obtain ⟨pre, p, rfl, hpre, hp⟩ := (strictRun_pending_iff bs hs).mp h
      exact ⟨pre, p, rfl, hpre, (isPartial_iff p).mpr ⟨s, hp⟩⟩
    · rintro ⟨pre, p, rfl, hpre, hp⟩
      obtain ⟨s, hp⟩ := (isPartial_iff p).mp hp
      exact ⟨s, hp.ne_zero, (strictRun_pending_iff _ hp.ne_zero).mpr ⟨pre, p, rfl, hpre, hp⟩⟩
  · exact fun s' => nextState_of_strictRun
  · intro ts hg pre hpre
    obtain ⟨before, p, hx, hp⟩ := stateOf_ends pre hpre
    refine ⟨before, p, hx, (isPartial_iff p).mpr ⟨_, hp⟩, fun mid post hts hmid => ?_⟩
    rw [← strictRun_isSome_iff, strictRun_run hg hts hp hmid]
    rfl

/-- `C3 | A9 | 41`: the second token continues what the first began. -/
theorem guard_exact_accent :
    Guarded [some [0xC3], some [0xA9], some [0x41]] ∧
      ∃ before p, text [some [0xC3]] = before ++ p ∧ IsPartial p ∧
        ∃ rest, WellFormed (p ++ text [some [0xA9]] ++ rest) := by
  have hg : Guarded [some [0xC3], some [0xA9], some [0x41]] := by
    intro pre t post h hs
    match pre with
    | [] => exact absurd rfl hs
    | [u] =>
      simp only [List.cons_append, List.nil_append, List.cons.injEq] at h
      obtain ⟨rfl, rfl, -⟩ := h
      decide
    | [u, v] =>
      simp only [List.cons_append, List.nil_append, List.cons.injEq] at h
      obtain ⟨rfl, rfl, -⟩ := h
      exact absurd rfl hs
    | _ :: _ :: _ :: _ => simp at h
  obtain ⟨before, p, hx, hp, hmid⟩ := guard_exact.2.2.2 _ hg [some [0xC3]] (by decide)
  refine ⟨hg, before, p, hx, hp, hmid [some [0xA9]] [some [0x41]] rfl ?_⟩
  intro m t n hm
  match m with
  | [] => decide
  | _ :: _ => simp at hm

end Ringside.Utf8Guard

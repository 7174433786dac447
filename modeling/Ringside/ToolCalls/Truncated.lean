import Ringside.Json
import Mathlib.Data.List.TakeWhile

/-!
# Truncated tool-call arguments (`vllm/parser/engine/parser_engine.py`)

Model of `_terminate_json_prefix`, `_final_arg_json` and `_flush_arg_converter`: the last flush of
the arguments of a call whose generation has stopped. The client holds what was streamed and must
get a text that extends it.

* The converter raises (`none`) or returns a text, for the whole arguments or for a part of them; it
  and `_fix_arg_types` are functions. That a converter returns valid JSON is a hypothesis of the
  main theorem.
* The hunk of `_flush_arg_converter` stops at the branch that emits: `emit` is that branch, on what
  was streamed and on the final text.
* `Cursor` holds the variables of the scan of `_terminate_json_prefix`; its stack has the innermost
  closer first. `none` is a closer that closes nothing, for which the function returns `None`.
* That a text parses is `loads` of `Json` returning a value.

Results:
* `walked_reads`, `walk_of_loads`: what the reader accepts the scan follows, and a text that parses
  leads it back to its start.
* `addition_eq_suffix`: only the scan's own suffix leads back to the start.
* `terminateJsonPrefix_eq_some`: the closed text is the only one that a backslash, a quote and
  brackets can make parse, and it is returned whenever there is one.
* `flushed_parses`: what the client holds after the flush extends what it held, and parses when the
  conversion of the whole does not raise and there is something to go by (`Completable`).
* `cut_not_closed`: what is left open otherwise, one case for each reason.
-/

namespace Ringside.ToolCalls

open Json

/-! ## `_terminate_json_prefix` -/

/-- The variables of the scan. -/
structure Cursor where
  inString : Bool
  escape : Bool
  pendingEscape : Bool
  stack : List Char

def Cursor.start : Cursor := ⟨false, false, false, []⟩

/-- The body of the scan; `none` is a closer that closes nothing. -/
def Cursor.next (st : Cursor) (c : Char) : Option Cursor :=
  if st.escape then some { st with escape := false, pendingEscape := false }
  else if st.inString then
    if c = '\\' then some { st with escape := true, pendingEscape := true }
    else if c = '"' then some { st with inString := false }
    else some st
  else if c = '"' then some { st with inString := true }
  else if c = '{' then some { st with stack := '}' :: st.stack }
  else if c = '[' then some { st with stack := ']' :: st.stack }
  else if c = '}' ∨ c = ']' then
    match st.stack with
    | [] => none
    | top :: stack => if top = c then some { st with stack := stack } else none
  else some st

def scan (st : Cursor) : List Char → Option Cursor
  | [] => some st
  | c :: s => (st.next c).bind fun st => scan st s

/-- What the scan adds. -/
def Cursor.suffix (st : Cursor) : List Char :=
  -- the prefix ends mid-escape: an escaped backslash, so that the closing quote is not swallowed
  (if st.pendingEscape then ['\\'] else []) ++ (if st.inString then ['"'] else []) ++ st.stack

/-- `_terminate_json_prefix`. -/
def terminateJsonPrefix (text : List Char) : Option (List Char) :=
  if text = [] then none
  else (scan .start text).bind fun st =>
    if (loads (text ++ st.suffix)).isSome then some (text ++ st.suffix) else none

/-! ## The last flush -/

/-- `ToolCallSlot`, as far as the flush reads it. -/
structure Slot where
  name : List Char
  args : List Char
  streamedJson : List Char

variable (converter : Option (List Char → Bool → Option (List Char))) (fixArgTypes : List Char →
    List Char → List Char)

/-- `_final_arg_json`, and whether it sets `_tool_call_truncated`. -/
def finalArgJson (slot : Slot) (name : Option (List Char)) : Option (List Char) × Bool :=
  match converter with
  | none => (none, false)
  | some converter =>
    let name := name.getD slot.name
    match converter slot.args false with
    | none => (none, false)
    | some json =>
      let finalJson := if json = [] then json else fixArgTypes json name
      let prev := slot.streamedJson
      if prev = [] ∨ finalJson ≠ [] ∧ prev.isPrefixOf finalJson then (some finalJson, false)
      else
        let json := (converter slot.args true).getD []
        let partialJson := if json = [] then json else fixArgTypes json name
        if partialJson ≠ [] ∧ prev.isPrefixOf partialJson then (some partialJson, true)
        else
          match terminateJsonPrefix prev with
          | none => (some finalJson, false)
          | some closed => (some closed, closed != prev)

/-- `_flush_arg_converter`. -/
def flushArgConverter (emit : List Char → List Char → List Char) (slot : Slot) :
    Option (List Char) :=
  if converter.isNone then none
  else
    match (finalArgJson converter fixArgTypes slot none).1 with
    | none => none
    | some finalJson =>
      if finalJson ≠ [] ∧ slot.streamedJson.length < finalJson.length then
        some (emit slot.streamedJson finalJson) else none

/-- The arguments that the client has after the flush. -/
def received (emit : List Char → List Char → List Char) (slot : Slot) : List Char :=
  slot.streamedJson ++ (flushArgConverter converter fixArgTypes emit slot).getD []

/-! ## A text that parses is balanced

`walk` is the scan that moreover takes no backslash outside a string; a reader only takes texts that
it can walk. -/

def walk (st : Cursor) : List Char → Option Cursor
  | [] => some st
  | c :: s => if st.inString = false ∧ c = '\\' then none else (st.next c).bind fun st => walk st s

theorem scan_of_walk : ∀ {s : List Char} {st st' : Cursor}, walk st s = some st' →
    scan st s = some st'
  | [], _, _, h => h
  | c :: s, st, st', h => by
    unfold walk at h
    split at h
    · cases h
    · obtain ⟨mid, hmid, hrest⟩ := Option.bind_eq_some_iff.mp h
      unfold scan
      rw [hmid, Option.bind_some]
      exact scan_of_walk hrest

theorem walk_append (s t : List Char) (st : Cursor) : walk st (s ++ t) = (walk st s).bind fun st =>
    walk st t := by
  induction s generalizing st with
  | nil => rfl
  | cons c s ih =>
    rw [List.cons_append, walk, walk]
    split
    · rfl
    · cases st.next c with
      | none => rfl
      | some st' => exact ih st'

/-- Outside any string, with these closers open. -/
def outside (stack : List Char) : Cursor := ⟨false, false, false, stack⟩

/-- In a string. -/
def within (stack : List Char) : Cursor := ⟨true, false, false, stack⟩

/-- No quote, no backslash and no bracket. -/
def plain (c : Char) : Bool := c ≠ '"' && c ≠ '\\' && c ≠ '{' && c ≠ '[' && c ≠ '}' && c ≠ ']'

theorem walk_plain : ∀ {used : List Char}, used.all plain = true → ∀ stack,
    walk (outside stack) used = some (outside stack)
  | [], _, _ => rfl
  | c :: used, h, stack => by
    rw [List.all_cons, Bool.and_eq_true] at h
    obtain ⟨hc, hused⟩ := h
    simp only [plain, ne_eq, decide_not, Bool.and_eq_true, Bool.not_eq_true',
      decide_eq_false_iff_not] at hc
    obtain ⟨⟨⟨⟨⟨hquote, hback⟩, hbrace⟩, hbracket⟩, hbrace'⟩, hbracket'⟩ := hc
    rw [walk, if_neg fun h => hback h.2]
    simp only [Cursor.next, outside, Bool.false_eq_true, if_false, if_neg hquote, if_neg hbrace,
      if_neg hbracket, if_neg (not_or.mpr ⟨hbrace', hbracket'⟩), Option.bind_some]
    exact walk_plain hused stack

/-- The reader went over these characters, and over nothing else. -/
def Walked (from_ to_ : Cursor) (s rest : List Char) : Prop := ∃ used, s = used ++ rest ∧
    walk from_ used = some to_

theorem Walked.trans {a b c : Cursor} {s t u : List Char} (h : Walked a b s t)
    (h' : Walked b c t u) : Walked a c s u := by
  obtain ⟨used, rfl, hw⟩ := h
  obtain ⟨used', rfl, hw'⟩ := h'
  exact ⟨used ++ used', by rw [List.append_assoc], by rw [walk_append, hw, Option.bind_some, hw']⟩

theorem walked_refl (st : Cursor) (s : List Char) : Walked st st s s := ⟨[], rfl, rfl⟩

/-- One character. -/
theorem walked_cons {st st' : Cursor} {c : Char} (h : walk st [c] = some st') (s : List Char) :
    Walked st st' (c :: s) s :=
  ⟨[c], rfl, h⟩

theorem walked_dropWhile {p : Char → Bool} (hp : ∀ c, p c = true → plain c = true)
    (stack s : List Char) :
    Walked (outside stack) (outside stack) s (s.dropWhile p) :=
  ⟨s.takeWhile p, List.takeWhile_append_dropWhile.symm,
    walk_plain (List.all_eq_true.mpr fun _ hc => hp _ (List.mem_takeWhile_imp hc)) stack⟩

theorem plain_of_isDigit (c : Char) (h : isDigit c = true) : plain c = true := by
  simp only [plain, ne_eq, decide_not, Bool.and_eq_true, Bool.not_eq_true', decide_eq_false_iff_not]
  refine ⟨⟨⟨⟨⟨?_, ?_⟩, ?_⟩, ?_⟩, ?_⟩, ?_⟩ <;> (rintro rfl; cases h)

theorem plain_of_isWs (c : Char) (h : isWs c = true) : plain c = true := by
  simp only [isWs, Bool.or_eq_true, decide_eq_true_eq] at h
  obtain ((rfl | rfl) | rfl) | rfl := h <;> rfl

theorem walked_skipWs (stack s : List Char) : Walked (outside stack) (outside stack) s (skipWs s) :=
  walked_dropWhile plain_of_isWs stack s

/-- A character behind white space. -/
theorem walked_skipWs_cons {stack s rest : List Char} {c : Char} {st : Cursor}
    (h : skipWs s = c :: rest)
    (hc : walk (outside stack) [c] = some st) : Walked (outside stack) st s rest :=
  (h ▸ walked_skipWs stack s).trans (walked_cons hc rest)

theorem walked_colon (stack : List Char) {s rest : List Char} (h : skipWs s = ':' :: rest) :
    Walked (outside stack) (outside stack) s rest := walked_skipWs_cons h rfl

theorem walked_plain_cons {c : Char} (hc : plain c = true) (stack s : List Char) :
    Walked (outside stack) (outside stack) (c :: s) s :=
    walked_cons (walk_plain (by simp [hc]) stack) s

theorem walked_skipMinus (stack s : List Char) :
    Walked (outside stack) (outside stack) s (skipMinus s) := by
  unfold skipMinus
  split
  · exact walked_plain_cons rfl stack _
  · exact walked_refl _ _

theorem walked_skipInt {stack s rest : List Char} (h : skipInt s = some rest) :
    Walked (outside stack) (outside stack) s rest := by
  unfold skipInt at h
  split at h
  · cases h
  · cases h
    exact walked_plain_cons rfl stack _
  · split at h
    · rename_i hc
      cases h
      exact (walked_plain_cons (plain_of_isDigit _ hc) stack _).trans
        (walked_dropWhile plain_of_isDigit stack _)
    · cases h

theorem walked_skipFrac (stack s : List Char) :
    Walked (outside stack) (outside stack) s (skipFrac s) := by
  unfold skipFrac
  split
  · split
    · rename_i hc
      exact ((walked_plain_cons rfl stack _).trans
        (walked_plain_cons (plain_of_isDigit _ hc) stack _)).trans
        (walked_dropWhile plain_of_isDigit stack _)
    · exact walked_refl _ _
  · exact walked_refl _ _

theorem walked_skipSign (stack s : List Char) :
    Walked (outside stack) (outside stack) s (skipSign s) := by
  unfold skipSign
  split
  · exact walked_plain_cons rfl stack _
  · exact walked_plain_cons rfl stack _
  · exact walked_refl _ _

theorem walked_skipExp (stack s : List Char) :
    Walked (outside stack) (outside stack) s (skipExp s) := by
  unfold skipExp
  split
  · exact walked_refl _ _
  · rename_i e s
    split
    · rename_i he
      have hplain : plain e = true := by obtain rfl | rfl := he <;> rfl
      split
      · rename_i c s' hs
        split
        · rename_i hc
          have hsign := walked_skipSign stack s
          rw [hs] at hsign
          exact (((walked_plain_cons hplain stack _).trans hsign).trans
            (walked_plain_cons (plain_of_isDigit _ hc) stack _)).trans
              (walked_dropWhile plain_of_isDigit stack _)
        · exact walked_refl _ _
      · exact walked_refl _ _
    · exact walked_refl _ _

theorem walked_matchNumber {stack s rest : List Char} {v : Json}
    (h : matchNumber s = some (v, rest)) :
    Walked (outside stack) (outside stack) s rest := by
  obtain ⟨r, hr, heq⟩ := Option.map_eq_some_iff.mp h
  cases heq
  obtain ⟨r', hr', rfl⟩ := Option.map_eq_some_iff.mp hr
  exact (((walked_skipMinus stack s).trans (walked_skipInt hr')).trans
    (walked_skipFrac stack r')).trans
    (walked_skipExp stack _)

/-- A character of a string that is neither its end nor an escape. -/
theorem walked_within {c : Char} (hquote : c ≠ '"') (hback : c ≠ '\\') (stack s : List Char) :
    Walked (within stack) (within stack) (c :: s) s := by
  refine walked_cons ?_ s
  simp [walk, Cursor.next, within, hquote, hback]

theorem walked_escape (c : Char) (stack s : List Char) :
    Walked (within stack) (within stack) ('\\' :: c :: s) s :=
  ⟨['\\', c], rfl, rfl⟩

theorem hexDigit_ne {c : Char} {x : Nat} (h : hexDigit c = some x) : c ≠ '"' ∧ c ≠ '\\' := by
  constructor <;> (rintro rfl; cases h)

theorem hex4_eq_some {a b c d : Char} {x : Nat} (h : hex4 a b c d = some x) :
    (∃ y, hexDigit a = some y) ∧ (∃ y, hexDigit b = some y) ∧ (∃ y, hexDigit c = some y) ∧ ∃ y,
    hexDigit d = some y := by
  obtain ⟨ya, ha, h⟩ := Option.bind_eq_some_iff.mp h
  obtain ⟨yb, hb, h⟩ := Option.bind_eq_some_iff.mp h
  obtain ⟨yc, hc, h⟩ := Option.bind_eq_some_iff.mp h
  obtain ⟨yd, hd, -⟩ := Option.map_eq_some_iff.mp h
  exact ⟨⟨ya, ha⟩, ⟨yb, hb⟩, ⟨yc, hc⟩, ⟨yd, hd⟩⟩

theorem walked_scanUnits (stack : List Char) {s : List Char} :
    ∀ {x rest}, scanUnits s = some (x, rest) → Walked (within stack) (outside stack) s rest := by
  fun_induction scanUnits s with
  | case1 => exact fun h => by cases h
  | case2 s =>
    intro x rest h
    cases h
    exact ⟨['"'], rfl, rfl⟩
  | case3 a b c d s ih =>
    intro x rest h
    obtain ⟨u, hu, h⟩ := Option.bind_eq_some_iff.mp h
    obtain ⟨⟨units, tail⟩, hr, heq⟩ := Option.map_eq_some_iff.mp h
    cases heq
    obtain ⟨⟨_, ha⟩, ⟨_, hb⟩, ⟨_, hc⟩, ⟨_, hd⟩⟩ := hex4_eq_some hu
    have hdigits : Walked (within stack) (within stack) (a :: b :: c :: d :: s) s :=
      (((walked_within (hexDigit_ne ha).1 (hexDigit_ne ha).2 stack _).trans
        (walked_within (hexDigit_ne hb).1 (hexDigit_ne hb).2 stack _)).trans
        (walked_within (hexDigit_ne hc).1 (hexDigit_ne hc).2 stack _)).trans
        (walked_within (hexDigit_ne hd).1 (hexDigit_ne hd).2 stack _)
    exact ((walked_escape 'u' stack _).trans hdigits).trans (ih hr)
  | case4 c s _ ih =>
    intro x rest h
    obtain ⟨u, -, h⟩ := Option.bind_eq_some_iff.mp h
    obtain ⟨⟨units, tail⟩, hr, heq⟩ := Option.map_eq_some_iff.mp h
    cases heq
    exact (walked_escape c stack s).trans (ih hr)
  | case5 c s _ _ _ hc => exact fun h => by cases h
  | case6 c s hquote _ hpair hc ih =>
    intro x rest h
    obtain ⟨⟨units, tail⟩, hr, heq⟩ := Option.map_eq_some_iff.mp h
    cases heq
    have hne : c ≠ '\\' := by
      rintro rfl
      cases s with
      | nil => cases hr
      | cons c' s' => exact hpair _ _ rfl rfl
    exact (walked_within hquote hne stack s).trans (ih hr)

theorem walked_quote (stack s : List Char) : Walked (outside stack) (within stack)
    ('"' :: s) s := ⟨['"'], rfl, rfl⟩

theorem walked_brace (stack s : List Char) : Walked (outside stack) (outside ('}' :: stack))
    ('{' :: s) s := ⟨['{'], rfl, rfl⟩

theorem walked_bracket (stack s : List Char) : Walked (outside stack) (outside (']' :: stack))
    ('[' :: s) s := ⟨['['], rfl, rfl⟩

theorem walked_scanString {stack s rest : List Char} {x : List Nat}
    (h : scanString s = some (x, rest)) :
    Walked (outside stack) (outside stack) ('"' :: s) rest := by
  obtain ⟨⟨units, tail⟩, hr, heq⟩ := Option.map_eq_some_iff.mp h
  cases heq
  exact (walked_quote stack s).trans (walked_scanUnits stack hr)

/-- Where a reading starts: what is left of an object or an array still has its closer open. -/
def openers (stack : List Char) : Out → List Char
  | .value _ => stack
  | .elements _ => ']' :: stack
  | .members _ => '}' :: stack

/-- **What was read is balanced.** -/
theorem walked_reads {o : Out} {s rest : List Char} (h : Reads o s rest) :
    ∀ stack, Walked (outside (openers stack o)) (outside stack) s rest := by
  induction h with
  | str h => exact fun stack => walked_scanString h
  | @word w v rest hw =>
    refine fun stack => ⟨w, rfl, walk_plain ?_ stack⟩
    simp only [words, List.mem_cons, Prod.mk.injEq, List.not_mem_nil, or_false] at hw
    obtain ⟨rfl, -⟩ | ⟨rfl, -⟩ | ⟨rfl, -⟩ | ⟨rfl, -⟩ | ⟨rfl, -⟩ | ⟨rfl, -⟩ := hw <;> decide
  | num h => exact fun stack => walked_matchNumber h
  | emptyObj h =>
    exact fun stack => (walked_brace stack _).trans (walked_skipWs_cons h rfl)
  | emptyArr h =>
    exact fun stack => (walked_bracket stack _).trans (walked_skipWs_cons h rfl)
  | obj _ ih =>
    exact fun stack => ((walked_brace stack _).trans (walked_skipWs _ _)).trans (ih stack)
  | arr _ ih =>
    exact fun stack => ((walked_bracket stack _).trans (walked_skipWs _ _)).trans (ih stack)
  | lastMember hk hcolon _ hend ih =>
    intro stack
    have hkey := (walked_scanString hk).trans (walked_colon ('}' :: stack) hcolon)
    exact ((hkey.trans (walked_skipWs _ _)).trans (ih ('}' :: stack))).trans
      (walked_skipWs_cons hend rfl)
  | member hk hcolon _ hcomma _ ih ih' =>
    intro stack
    have hkey := (walked_scanString hk).trans (walked_colon ('}' :: stack) hcolon)
    have hval := (hkey.trans (walked_skipWs _ _)).trans (ih ('}' :: stack))
    exact ((hval.trans (walked_skipWs_cons hcomma rfl)).trans (walked_skipWs _ _)).trans (ih' stack)
  | lastElement _ hend ih =>
    exact fun stack => (ih (']' :: stack)).trans (walked_skipWs_cons hend rfl)
  | element _ hcomma _ ih ih' =>
    intro stack
    exact (((ih (']' :: stack)).trans (walked_skipWs_cons hcomma rfl)).trans
      (walked_skipWs _ _)).trans (ih' stack)

/-- A text that parses is walked to its start. -/
theorem walk_of_loads {s : List Char} (h : (loads s).isSome = true) :
    walk .start s = some .start := by
  obtain ⟨v, hv⟩ := Option.isSome_iff_exists.mp h
  obtain ⟨r, hr, hend⟩ := Option.bind_eq_some_iff.mp hv
  split at hend
  · rename_i hnil
    have hread := walked_reads (rawDecode_eq_some.mp (show rawDecode _ = some (r.1, r.2) from hr))
      []
    obtain ⟨used, hs, hw⟩ := ((walked_skipWs [] s).trans hread).trans (hnil ▸ walked_skipWs [] r.2)
    rw [List.append_nil] at hs
    rw [hs]
    exact hw
  · cases hend

/-! ## What closes a prefix

The terminator tries one suffix. `walk` is a function, so from where the prefix leaves it only one
list of brackets leads back to the start, and a text that parses does lead back.
-/

def closer (c : Char) : Bool := c = '}' || c = ']'

/-- A backslash or none, a quote or none, and brackets. -/
def addition (backslash quote : Bool) (brackets : List Char) : List Char :=
  (if backslash then ['\\'] else []) ++ (if quote then ['"'] else []) ++ brackets

/-- The variables of the scan belong together. -/
structure Cursor.Sound (st : Cursor) : Prop where
  pending : st.pendingEscape = st.escape
  inside : st.escape = true → st.inString = true
  closers : st.stack.all closer = true

theorem sound_start : Cursor.start.Sound := ⟨rfl, fun h => (by cases h), rfl⟩

theorem next_sound {st st' : Cursor} {c : Char} (hs : st.Sound) (h : st.next c = some st') :
    st'.Sound := by
  obtain ⟨inString, esc, pending, stack⟩ := st
  obtain ⟨hpending, hinside, hclosers⟩ := hs
  simp only at hpending hinside hclosers
  subst hpending
  unfold Cursor.next at h
  simp only at h
  split at h
  · cases h
    exact ⟨rfl, fun h => (by cases h), hclosers⟩
  · rename_i hesc
    have hfalse : ∀ {p : Prop}, pending = true → p := fun h => absurd h hesc
    split at h
    · rename_i hin
      split at h
      · cases h
        exact ⟨rfl, fun _ => hin, hclosers⟩
      · split at h <;> cases h <;> exact ⟨rfl, hfalse, hclosers⟩
    · split at h
      · cases h
        exact ⟨rfl, hfalse, hclosers⟩
      · split at h
        · cases h
          exact ⟨rfl, hfalse, by simpa [closer] using hclosers⟩
        · split at h
          · cases h
            exact ⟨rfl, hfalse, by simpa [closer] using hclosers⟩
          · split at h
            · split at h
              · cases h
              · split at h
                · cases h
                  exact ⟨rfl, hfalse,
                    (Bool.and_eq_true_iff.mp (List.all_cons.symm.trans hclosers)).2⟩
                · cases h
            · cases h
              exact ⟨rfl, hfalse, hclosers⟩

theorem scan_sound : ∀ {s : List Char} {st st' : Cursor}, st.Sound →
    scan st s = some st' → st'.Sound
  | [], _, _, hs, h => Option.some.inj h ▸ hs
  | _ :: _, _, _, hs, h => by
    obtain ⟨mid, hmid, hrest⟩ := Option.bind_eq_some_iff.mp h
    exact scan_sound (next_sound hs hmid) hrest

/-- Brackets do not end a string. -/
theorem inString_of_brackets : ∀ {b : List Char} {st st' : Cursor}, b.all closer = true →
    st.inString = true →
    walk st b = some st' → st'.inString = true
  | [], _, _, _, hin, h => Option.some.inj h ▸ hin
  | c :: b, st, st', hb, hin, h => by
    rw [List.all_cons, Bool.and_eq_true] at hb
    have hc : c ≠ '"' ∧ c ≠ '\\' := by constructor <;> (rintro rfl; cases hb.1)
    rw [walk, if_neg (by simp [hin])] at h
    obtain ⟨mid, hmid, hrest⟩ := Option.bind_eq_some_iff.mp h
    refine inString_of_brackets hb.2 ?_ hrest
    unfold Cursor.next at hmid
    split at hmid
    · cases hmid
      exact hin
    · rw [if_neg hc.2, if_neg hc.1] at hmid
      cases hmid
      exact hin

/-- Outside a string only the closers of the stack lead back to the start. -/
theorem stack_of_brackets : ∀ {b stack : List Char}, b.all closer = true →
    walk (outside stack) b = some .start → b = stack
  | [], _, _, h => by
    cases h
    rfl
  | c :: b, stack, hb, h => by
    rw [List.all_cons, Bool.and_eq_true] at hb
    have hc : c = '}' ∨ c = ']' := by simpa [closer] using hb.1
    have hne : c ≠ '"' ∧ c ≠ '\\' ∧ c ≠ '{' ∧ c ≠ '[' := by obtain rfl | rfl := hc <;> decide
    rw [walk, if_neg fun h => hne.2.1 h.2] at h
    obtain ⟨mid, hmid, hrest⟩ := Option.bind_eq_some_iff.mp h
    simp only [Cursor.next, outside, Bool.false_eq_true, if_false, if_neg hne.1, if_neg hne.2.2.1,
      if_neg hne.2.2.2, if_pos hc] at hmid
    split at hmid
    · cases hmid
    · split at hmid
      · rename_i top stack' htop
        cases hmid
        rw [htop, stack_of_brackets hb.2 hrest]
      · cases hmid

/-- **Only the scan's own suffix leads back to the start.** -/
theorem addition_eq_suffix {st : Cursor} (hs : st.Sound) {backslash quote : Bool} {b : List Char}
    (hb : b.all closer = true) (h : walk st (addition backslash quote b) = some .start) :
    addition backslash quote b = st.suffix := by
  have hopen : ∀ (st : Cursor) {p : Prop}, st.inString = true → walk st b = some .start → p :=
    fun _ _ hin h =>
    absurd (inString_of_brackets hb hin h) (by decide)
  obtain ⟨inString, esc, pending, stack⟩ := st
  obtain rfl : pending = esc := hs.pending
  cases inString with
  | false =>
    have hesc : pending = false := by
      by_contra hne
      exact Bool.false_ne_true (hs.inside (by simpa using hne))
    subst hesc
    cases backslash with
    | true => simp [addition, walk] at h
    | false =>
      cases quote with
      | true => exact hopen (within stack) rfl h
      | false =>
        have hstack : b = stack := stack_of_brackets hb h
        simp [addition, Cursor.suffix, hstack]
  | true =>
    cases pending with
    | false =>
      cases backslash with
      | true =>
        cases quote with
        | true => exact hopen (within stack) rfl h
        | false => exact hopen ⟨true, true, true, stack⟩ rfl h
      | false =>
        cases quote with
        | true =>
          have hstack : b = stack := stack_of_brackets hb h
          simp [addition, Cursor.suffix, hstack]
        | false => exact hopen (within stack) rfl h
    | true =>
      cases backslash with
      | true =>
        cases quote with
        | true =>
          have hstack : b = stack := stack_of_brackets hb h
          simp [addition, Cursor.suffix, hstack]
        | false => exact hopen (within stack) rfl h
      | false =>
        cases quote with
        | true => exact hopen (within stack) rfl h
        | false => exact hopen ⟨true, true, true, stack⟩ rfl h

theorem suffix_eq_addition {st : Cursor} (hs : st.Sound) :
    st.suffix = addition st.escape st.inString st.stack := by
  unfold Cursor.suffix addition
  rw [hs.pending]

theorem loads_nil : loads [] = none := rfl

theorem ne_nil_of_loads {s : List Char} (h : (loads s).isSome = true) : s ≠ [] := by
  rintro rfl
  rw [loads_nil] at h
  cases h

/-- **What the terminator returns**: the only text that parses among those with at most a backslash,
a quote and then brackets added. -/
theorem terminateJsonPrefix_eq_some {text closed : List Char} :
    terminateJsonPrefix text = some closed ↔
    ∃ backslash quote b, b.all closer = true ∧ closed = text ++ addition backslash quote b ∧
      (loads closed).isSome = true := by
  constructor
  · intro h
    unfold terminateJsonPrefix at h
    split at h
    · cases h
    · obtain ⟨st, hst, h⟩ := Option.bind_eq_some_iff.mp h
      have hs := scan_sound sound_start hst
      split at h
      · rename_i hloads
        cases h
        exact ⟨st.escape, st.inString, st.stack, hs.closers, by rw [suffix_eq_addition hs], hloads⟩
      · cases h
  · rintro ⟨backslash, quote, b, hb, rfl, hloads⟩
    have hwalk := walk_of_loads hloads
    rw [walk_append] at hwalk
    obtain ⟨st, hst, hwalk⟩ := Option.bind_eq_some_iff.mp hwalk
    have hscan := scan_of_walk hst
    have hsuffix := addition_eq_suffix (scan_sound sound_start hscan) hb hwalk
    have hne : text ≠ [] := by
      rintro rfl
      obtain rfl := Option.some.inj hst
      rw [hsuffix] at hloads
      exact ne_nil_of_loads hloads rfl
    unfold terminateJsonPrefix
    rw [if_neg hne, hscan, Option.bind_some, ← hsuffix, if_pos hloads]

/-! ## After the flush

The flush sends what the final text has beyond what was streamed. So what the client has parses when
the final text extends what was streamed and parses, which is said for each way the final text is
chosen.
-/

variable {converter : List Char → Bool → Option (List Char)} {fixArgTypes : List Char →
    List Char → List Char}
  {emit : List Char → List Char → List Char} {slot : Slot}

/-- A final text that extends what was streamed is what the client then has. -/
theorem received_eq {finalJson : List Char}
    (hemit : ∀ prev final, prev.length < final.length → emit prev final = final.drop prev.length)
    (h : (finalArgJson (some converter) fixArgTypes slot none).1 = some finalJson)
    (hpre : slot.streamedJson <+: finalJson) :
    received (some converter) fixArgTypes emit slot = finalJson := by
  obtain ⟨tail, rfl⟩ := hpre
  unfold received flushArgConverter
  rw [Option.isNone_some, if_neg Bool.false_ne_true, h]
  by_cases htail : tail = []
  · simp [htail]
  · have hlen : slot.streamedJson.length < (slot.streamedJson ++ tail).length := by
      rw [List.length_append]
      exact Nat.lt_add_of_pos_right (List.length_pos_iff.mpr htail)
    have hne : slot.streamedJson ++ tail ≠ [] := by simp [htail]
    simp only [if_pos (And.intro hne hlen), Option.getD_some, hemit _ _ hlen, List.drop_left]

/-- What the flush can go by: nothing was streamed, a conversion extends it, or it can be closed. -/
def Completable (converter : List Char → Bool → Option (List Char))
    (fixArgTypes : List Char → List Char → List Char) (slot : Slot) : Prop :=
  slot.streamedJson = [] ∨ (∃ p json, converter slot.args p = some json ∧
    slot.streamedJson <+: fixArgTypes json slot.name) ∨
    (terminateJsonPrefix slot.streamedJson).isSome = true

section

variable (hconverter : ∀ args p json, converter args p = some json → (loads json).isSome = true)
  (hfix : ∀ json name, (loads json).isSome = true → (loads (fixArgTypes json name)).isSome = true)

include hconverter hfix

theorem loads_fixed {p : Bool} {json : List Char} (h : converter slot.args p = some json) :
    json ≠ [] ∧ (loads (fixArgTypes json slot.name)).isSome = true ∧
    fixArgTypes json slot.name ≠ [] := by
  have hjson := hconverter _ _ _ h
  have hfixed := hfix json slot.name hjson
  exact ⟨ne_nil_of_loads hjson, hfixed, ne_nil_of_loads hfixed⟩

/-- The final text extends what was streamed, and parses. -/
theorem finalArgJson_spec (hwhole : (converter slot.args false).isSome = true)
    (hsome : Completable converter fixArgTypes slot) :
    ∃ finalJson, (finalArgJson (some converter) fixArgTypes slot none).1 = some finalJson ∧
      slot.streamedJson <+: finalJson ∧ (loads finalJson).isSome = true := by
  obtain ⟨json, hjson⟩ := Option.isSome_iff_exists.mp hwhole
  obtain ⟨hne, hloads, hfixed⟩ := loads_fixed hconverter hfix hjson
  unfold finalArgJson
  simp only [hjson, if_neg hne, Option.getD_none, List.isPrefixOf_iff_prefix]
  by_cases hext : slot.streamedJson = [] ∨
      fixArgTypes json slot.name ≠ [] ∧ slot.streamedJson <+: fixArgTypes json slot.name
  · rw [if_pos hext]
    refine ⟨_, rfl, ?_, hloads⟩
    obtain hnil | ⟨-, hext⟩ := hext
    · rw [hnil]
      exact List.nil_prefix
    · exact hext
  rw [if_neg hext]
  -- the conversion of the whole does not extend the text, so the partial one is asked
  have hclosed : (terminateJsonPrefix slot.streamedJson).isSome = true →
      ∃ closed, terminateJsonPrefix slot.streamedJson = some closed ∧ slot.streamedJson <+: closed ∧
        (loads closed).isSome = true := by
    intro h
    obtain ⟨closed, hclosed⟩ := Option.isSome_iff_exists.mp h
    obtain ⟨backslash, quote, b, -, hadd, hloads⟩ := terminateJsonPrefix_eq_some.mp hclosed
    exact ⟨closed, hclosed, hadd ▸ List.prefix_append _ _, hloads⟩
  cases hconv : converter slot.args true with
  | none =>
    obtain hnil | ⟨p, json', hjson', hpre⟩ | h := hsome
    · exact absurd (Or.inl hnil) hext
    · cases p with
      | false =>
        obtain rfl := Option.some.inj (hjson.symm.trans hjson')
        exact absurd (Or.inr ⟨hfixed, hpre⟩) hext
      | true => cases hconv.symm.trans hjson'
    · obtain ⟨closed, hterm, hpre, hloads⟩ := hclosed h
      refine ⟨closed, ?_, hpre, hloads⟩
      simp [hterm]
  | some part =>
    obtain ⟨hne', hloads', hfixed'⟩ := loads_fixed hconverter hfix hconv
    simp only [Option.getD_some, if_neg hne']
    by_cases hpart : slot.streamedJson <+: fixArgTypes part slot.name
    · rw [if_pos ⟨hfixed', hpart⟩]
      exact ⟨_, rfl, hpart, hloads'⟩
    · rw [if_neg fun h => hpart h.2]
      obtain hnil | ⟨p, json', hjson', hpre⟩ | h := hsome
      · exact absurd (Or.inl hnil) hext
      · cases p with
        | false =>
          obtain rfl := Option.some.inj (hjson.symm.trans hjson')
          exact absurd (Or.inr ⟨hfixed, hpre⟩) hext
        | true =>
          obtain rfl := Option.some.inj (hconv.symm.trans hjson')
          exact absurd hpre hpart
      · obtain ⟨closed, hterm, hpre, hloads⟩ := hclosed h
        refine ⟨closed, ?_, hpre, hloads⟩
        rw [hterm]

end

/-- **The arguments of a truncated call.** What the client has after the flush extends what it had;
when the conversion of the whole does not raise and there is something to go by, it parses. The
terminator closes a prefix when a backslash after a cut escape, the quote of an open string and
brackets can make it parse, in the only way there is. -/
theorem flushed_parses (hconverter : ∀ args p json, converter args p = some json →
    (loads json).isSome = true)
    (hfix : ∀ json name, (loads json).isSome = true → (loads (fixArgTypes json name)).isSome = true)
    (hemit : ∀ prev final, prev.length < final.length → emit prev final = final.drop prev.length) :
    slot.streamedJson <+: received (some converter) fixArgTypes emit slot ∧
    ((converter slot.args false).isSome = true → Completable converter fixArgTypes slot →
      (loads (received (some converter) fixArgTypes emit slot)).isSome = true) ∧
    ∀ text closed, terminateJsonPrefix text = some closed ↔
      ∃ backslash quote b, b.all closer = true ∧ closed = text ++ addition backslash quote b ∧
        (loads closed).isSome = true := by
  refine ⟨List.prefix_append _ _, fun hwhole hsome => ?_, fun _ _ => terminateJsonPrefix_eq_some⟩
  obtain ⟨finalJson, hfinal, hpre, hloads⟩ := finalArgJson_spec hconverter hfix hwhole hsome
  rw [received_eq hemit hfinal hpre]
  exact hloads

/-- A command that was cut in its value: the partial conversion closes it. -/
theorem cut_command_parses : (loads (received
      (some fun _ p => some (if p then "\x7b\"cmd\": \"ls -\"\x7d" else "\x7b\x7d").toList)
      (fun json _ => json) (fun prev final => final.drop prev.length)
      ⟨"run".toList, [], "\x7b\"cmd\": \"ls".toList⟩)).isSome = true := by
  refine (flushed_parses (fun _ p json h => ?_) (fun _ _ h => h) fun _ _ _ => rfl).2.1
    (by decide +kernel)
    (Or.inr (Or.inl ⟨true, "\x7b\"cmd\": \"ls -\"\x7d".toList, by decide +kernel, by
      decide +kernel⟩))
  cases h
  cases p <;> decide +kernel

/-- What was streamed ends behind a comma, and no conversion extends it; or the conversion of the
whole raises, and what was streamed is left open; or a backslash was cut from what it escapes. -/
theorem cut_not_closed : (loads "\x7b\x7d".toList).isSome = true ∧
    (loads (received (some fun _ _ => some "\x7b\x7d".toList) (fun json _ => json)
      (fun prev final => final.drop prev.length)
      ⟨"run".toList, [], "\x7b\"a\": 1,".toList⟩)).isSome = false ∧
    (loads (received (some fun _ p => if p then some "\x7b\x7d".toList else none)
      (fun json _ => json) (fun prev final => final.drop prev.length)
      ⟨"run".toList, [], "\x7b\"a\": 1".toList⟩)).isSome = false ∧
    terminateJsonPrefix ['"', '\\'] = some ['"', '\\', '\\', '"'] ∧
    ∀ quote b, b.all closer = true →
      (loads (['"', '\\'] ++ addition false quote b)).isSome = false := by
  have hterm : terminateJsonPrefix ['"', '\\'] = some ['"', '\\', '\\', '"'] := by decide +kernel
  refine ⟨by decide +kernel, by decide +kernel, by decide +kernel, hterm, fun quote b hb => ?_⟩
  by_contra h
  have hother := terminateJsonPrefix_eq_some.mpr ⟨false, quote, b, hb, rfl, Bool.of_not_eq_false h⟩
  have heq := List.append_cancel_left ((Option.some.inj (hterm.symm.trans hother) :
    ['"', '\\'] ++ ['\\', '"'] = _))
  cases quote with
  | true => cases heq
  | false =>
    obtain rfl : ['\\', '"'] = b := heq
    cases hb

end Ringside.ToolCalls

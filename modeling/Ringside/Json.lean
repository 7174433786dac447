import Mathlib.Data.List.Infix

/-!
# JSON texts

The reader of Python's `json`, on lists of characters: `scanstring`, `_match_number`, `scan_once`,
`JSONDecoder.raw_decode` and `json.loads`, in the order and with the look-ahead that the library
documents.

* `scanOnce` reads one value and leaves the text behind it; its first argument bounds the steps,
  which nesting needs. `rawDecode` gives it enough of them, `loads` wants nothing left but white
  space.
* A number keeps the text it was read from, so no statement depends on the arithmetic of floats. A
  string is its code points: an escape may stand for a lone surrogate, which `Char` has not.
* Of members with one key the last value stands where the first one stood (`setMember`), as in a
  `dict`.
* The interpreter's own limits (nesting, digits of an integer) are not modelled.

`Reads` is the grammar: what a reading of a text leaves behind, for a value and for what is left of
an object or an array. It has no bound on the steps, and inductions are on its derivations.

Results:
* `rawDecode_eq_some`: the reader follows the grammar, in both directions.
* `Reads.append`: what was read does not depend on the text behind it, unless it is a number that
  goes on.
-/

namespace Ringside

/-- A value. -/
inductive Json where
  | null
  | bool (b : Bool)
  | num (literal : List Char)
  | str (text : List Nat)
  | arr (values : List Json)
  | obj (members : List (List Nat × Json))

namespace Json

/-! ## Strings -/

def hexDigit (c : Char) : Option Nat :=
  if 48 ≤ c.toNat ∧ c.toNat ≤ 57 then some (c.toNat - 48)
  else if 97 ≤ c.toNat ∧ c.toNat ≤ 102 then some (c.toNat - 87)
  else if 65 ≤ c.toNat ∧ c.toNat ≤ 70 then some (c.toNat - 55)
  else none

/-- The unit of `\uXXXX`. -/
def hex4 (a b c d : Char) : Option Nat :=
  (hexDigit a).bind fun a => (hexDigit b).bind fun b => (hexDigit c).bind fun c =>
    (hexDigit d).map fun d => ((a * 16 + b) * 16 + c) * 16 + d

/-- The other escapes. -/
def escape (c : Char) : Option Nat :=
  match c with
  | '"' | '\\' | '/' => some c.toNat
  | 'b' => some 8
  | 'f' => some 12
  | 'n' => some 10
  | 'r' => some 13
  | 't' => some 9
  | _ => none

/-- The units of a string, up to its closing quote. -/
def scanUnits : List Char → Option (List Nat × List Char)
  | [] => none
  | '"' :: s => some ([], s)
  | '\\' :: 'u' :: a :: b :: c :: d :: s =>
    (hex4 a b c d).bind fun x => (scanUnits s).map fun r => (x :: r.1, r.2)
  | '\\' :: c :: s => (escape c).bind fun x => (scanUnits s).map fun r => (x :: r.1, r.2)
  | c :: s => if c.toNat < 32 then none else (scanUnits s).map fun r => (c.toNat :: r.1, r.2)

/-- A high surrogate and a low one are one code point. -/
def joinSurrogates : List Nat → List Nat
  | [] => []
  | [x] => [x]
  | x :: y :: s =>
    if 0xd800 ≤ x ∧ x ≤ 0xdbff ∧ 0xdc00 ≤ y ∧ y ≤ 0xdfff then
      (0x10000 + (x - 0xd800) * 0x400 + (y - 0xdc00)) :: joinSurrogates s
    else x :: joinSurrogates (y :: s)

/-- `scanstring`, after the opening quote. -/
def scanString (s : List Char) : Option (List Nat × List Char) :=
  (scanUnits s).map fun r => (joinSurrogates r.1, r.2)

/-! ## Numbers -/

def isDigit (c : Char) : Bool := c.isDigit

/-- The text after the digits of an integer; a leading zero stands alone. -/
def skipInt : List Char → Option (List Char)
  | [] => none
  | '0' :: s => some s
  | c :: s => if isDigit c then some (s.dropWhile isDigit) else none

/-- The text after a fraction, if there is one. -/
def skipFrac : List Char → List Char
  | '.' :: c :: s => if isDigit c then s.dropWhile isDigit else '.' :: c :: s
  | s => s

def skipSign : List Char → List Char
  | '+' :: s => s
  | '-' :: s => s
  | s => s

/-- The text after an exponent, if there is one. -/
def skipExp : List Char → List Char
  | [] => []
  | e :: s =>
    if e = 'e' ∨ e = 'E' then
      match skipSign s with
      | c :: s' => if isDigit c then s'.dropWhile isDigit else e :: s
      | [] => e :: s
    else e :: s

def skipMinus : List Char → List Char
  | '-' :: s => s
  | s => s

/-- The text after a number. -/
def skipNumber (s : List Char) : Option (List Char) :=
  (skipInt (skipMinus s)).map fun s => skipExp (skipFrac s)

/-- `_match_number`. -/
def matchNumber (s : List Char) : Option (Json × List Char) :=
  (skipNumber s).map fun rest => (.num (s.take (s.length - rest.length)), rest)

/-! ## Values -/

def isWs (c : Char) : Bool := c = ' ' || c = '\t' || c = '\n' || c = '\r'

def skipWs (s : List Char) : List Char := s.dropWhile isWs

/-- The words, and what they stand for. -/
def words : List (List Char × Json) :=
  [("null".toList, .null), ("true".toList, .bool true), ("false".toList, .bool false),
    ("NaN".toList, .num "NaN".toList), ("Infinity".toList, .num "Infinity".toList),
    ("-Infinity".toList, .num "-Infinity".toList)]

def scanWord (s : List Char) : Option (Json × List Char) :=
  words.findSome? fun w => (s.dropPrefix? w.1).map fun rest => (w.2, rest)

/-- `d[k] = v`. -/
def setMember (k : List Nat) (v : Json) : List (List Nat × Json) → List (List Nat × Json)
  | [] => [(k, v)]
  | kv :: kvs => if kv.1 = k then (k, v) :: kvs else kv :: setMember k v kvs

def toDict (kvs : List (List Nat × Json)) : List (List Nat × Json) :=
  kvs.foldl (fun d kv => setMember kv.1 kv.2 d) []

mutual

/-- `scan_once`. -/
def scanOnce : Nat → List Char → Option (Json × List Char)
  | 0, _ => none
  | n + 1, s =>
    match s with
    | '"' :: s => (scanString s).map fun r => (.str r.1, r.2)
    | '{' :: s =>
      match skipWs s with
      | '}' :: rest => some (.obj [], rest)
      | s => (members n s).map fun r => (.obj (toDict r.1), r.2)
    | '[' :: s =>
      match skipWs s with
      | ']' :: rest => some (.arr [], rest)
      | s => (elements n s).map fun r => (.arr r.1, r.2)
    | s => (scanWord s).or (matchNumber s)

/-- The members of an object, up to its closing brace. -/
def members : Nat → List Char → Option (List (List Nat × Json) × List Char)
  | 0, _ => none
  | n + 1, s =>
    match s with
    | '"' :: s =>
      (scanString s).bind fun k =>
        match skipWs k.2 with
        | ':' :: s =>
          (scanOnce n (skipWs s)).bind fun v =>
            match skipWs v.2 with
            | '}' :: rest => some ([(k.1, v.1)], rest)
            | ',' :: s => (members n (skipWs s)).map fun r => ((k.1, v.1) :: r.1, r.2)
            | _ => none
        | _ => none
    | _ => none

/-- The elements of an array, up to its closing bracket. -/
def elements : Nat → List Char → Option (List Json × List Char)
  | 0, _ => none
  | n + 1, s =>
    (scanOnce n s).bind fun v =>
      match skipWs v.2 with
      | ']' :: rest => some ([v.1], rest)
      | ',' :: s => (elements n (skipWs s)).map fun r => (v.1 :: r.1, r.2)
      | _ => none

end

/-- `JSONDecoder.raw_decode`. -/
def rawDecode (s : List Char) : Option (Json × List Char) := scanOnce (s.length + 1) s

/-- `json.loads`. -/
def loads (s : List Char) : Option Json :=
  (rawDecode (skipWs s)).bind fun r => if skipWs r.2 = [] then some r.1 else none

/-! ## The grammar

`Reads` is the language itself: rules, and no order in which they are tried. What is read is a
value, or what is left of an object or an array behind its first member; so one induction over
readings covers all three functions of the reader.
-/

/-- What was read: a value, or what is left of an object or of an array. -/
inductive Out where
  | value (v : Json)
  | elements (vs : List Json)
  | members (kvs : List (List Nat × Json))

/-- One reading of a text; the rest is behind it. -/
inductive Reads : Out → List Char → List Char → Prop where
  | str {s x rest} : scanString s = some (x, rest) → Reads (.value (.str x)) ('"' :: s) rest
  | word {w v rest} : (w, v) ∈ words → Reads (.value v) (w ++ rest) rest
  | num {s v rest} : matchNumber s = some (v, rest) → Reads (.value v) s rest
  | emptyObj {s rest} : skipWs s = '}' :: rest → Reads (.value (.obj [])) ('{' :: s) rest
  | obj {s kvs rest} : Reads (.members kvs) (skipWs s) rest →
      Reads (.value (.obj (toDict kvs))) ('{' :: s) rest
  | emptyArr {s rest} : skipWs s = ']' :: rest → Reads (.value (.arr [])) ('[' :: s) rest
  | arr {s vs rest} : Reads (.elements vs) (skipWs s) rest →
      Reads (.value (.arr vs)) ('[' :: s) rest
  | lastMember {s k s₁ s₂ v s₃ rest} : scanString s = some (k, s₁) → skipWs s₁ = ':' :: s₂ →
      Reads (.value v) (skipWs s₂) s₃ → skipWs s₃ = '}' :: rest →
      Reads (.members [(k, v)]) ('"' :: s) rest
  | member {s k s₁ s₂ v s₃ s₄ kvs rest} : scanString s = some (k, s₁) → skipWs s₁ = ':' :: s₂ →
      Reads (.value v) (skipWs s₂) s₃ → skipWs s₃ = ',' :: s₄ →
      Reads (.members kvs) (skipWs s₄) rest →
      Reads (.members ((k, v) :: kvs)) ('"' :: s) rest
  | lastElement {s v s₁ rest} : Reads (.value v) s s₁ → skipWs s₁ = ']' :: rest →
      Reads (.elements [v]) s rest
  | element {s v s₁ s₂ vs rest} : Reads (.value v) s s₁ → skipWs s₁ = ',' :: s₂ →
      Reads (.elements vs) (skipWs s₂) rest → Reads (.elements (v :: vs)) s rest

/-! ## Texts that begin a value -/

/-- A text that a number begins with. -/
def Numeral (s : List Char) : Prop := ∃ c s', isDigit c = true ∧ (s = c :: s' ∨ s = '-' :: c :: s')

theorem skipInt_eq_some {s rest : List Char} (h : skipInt s = some rest) :
    ∃ c s', isDigit c = true ∧ s = c :: s' := by
  unfold skipInt at h
  split at h
  · cases h
  · exact ⟨_, _, rfl, rfl⟩
  · split at h
    · exact ⟨_, _, ‹_›, rfl⟩
    · cases h

theorem numeral_of_matchNumber {s rest : List Char} {v : Json}
    (h : matchNumber s = some (v, rest)) : Numeral s := by
  obtain ⟨r, hr, -⟩ := Option.map_eq_some_iff.mp h
  obtain ⟨r', hr', -⟩ := Option.map_eq_some_iff.mp hr
  obtain ⟨c, s', hc, hs⟩ := skipInt_eq_some hr'
  refine ⟨c, s', hc, ?_⟩
  unfold skipMinus at hs
  split at hs
  · exact Or.inr (by rw [hs])
  · exact Or.inl hs

theorem scanWord_append {w : List Char} {v : Json} (h : (w, v) ∈ words) (rest : List Char) :
    scanWord (w ++ rest) = some (v, rest) := by
  simp only [words, List.mem_cons, Prod.mk.injEq, List.not_mem_nil, or_false] at h
  obtain ⟨rfl, rfl⟩ | ⟨rfl, rfl⟩ | ⟨rfl, rfl⟩ | ⟨rfl, rfl⟩ | ⟨rfl, rfl⟩ | ⟨rfl, rfl⟩ := h <;>
    simp [scanWord, words, List.dropPrefix?]

theorem scanWord_eq_some {s rest : List Char} {v : Json} (h : scanWord s = some (v, rest)) :
    ∃ w, (w, v) ∈ words ∧ s = w ++ rest := by
  obtain ⟨w, hw, hf⟩ := List.exists_of_findSome?_eq_some h
  obtain ⟨r, hr, heq⟩ := Option.map_eq_some_iff.mp hf
  cases heq
  obtain ⟨p, hp, hpw⟩ := List.dropPrefix?_eq_some_iff.mp hr
  exact ⟨w.1, hw, by rw [hp, eq_of_beq hpw]⟩

theorem scanWord_of_numeral {s : List Char} (h : Numeral s) : scanWord s = none := by
  refine Option.eq_none_iff_forall_ne_some.mpr fun ⟨v, rest⟩ hr => ?_
  obtain ⟨w, hw, rfl⟩ := scanWord_eq_some hr
  obtain ⟨c, s', hc, hs⟩ := h
  simp only [words, List.mem_cons, Prod.mk.injEq, List.not_mem_nil, or_false] at hw
  obtain ⟨rfl, -⟩ | ⟨rfl, -⟩ | ⟨rfl, -⟩ | ⟨rfl, -⟩ | ⟨rfl, -⟩ | ⟨rfl, -⟩ := hw <;>
    simp only [String.toList] at hs <;>
    obtain ⟨rfl, -⟩ | ⟨-, rfl, -⟩ := hs <;> cases hc

/-! ## What is left is shorter

Every reading takes at least one character. The reader counts its steps, and this is why as many
steps as there are characters are enough.
-/

theorem length_skipWs (s : List Char) : (skipWs s).length ≤ s.length :=
    (List.dropWhile_sublist _).length_le

theorem length_of_skipWs {s rest : List Char} {c : Char} (h : skipWs s = c :: rest) :
    rest.length < s.length := by
  have := length_skipWs s
  rw [h, List.length_cons] at this
  exact this

theorem length_scanUnits {s : List Char} : ∀ {x rest}, scanUnits s = some (x, rest) →
    rest.length < s.length := by
  fun_induction scanUnits s with
  | case1 => exact fun h => by cases h
  | case2 s =>
    intro x rest h
    cases h
    exact Nat.lt_succ_self _
  | case3 a b c d s ih =>
    intro x rest h
    obtain ⟨u, -, h⟩ := Option.bind_eq_some_iff.mp h
    obtain ⟨⟨units, tail⟩, hr, heq⟩ := Option.map_eq_some_iff.mp h
    cases heq
    have := ih hr
    simp only [List.length_cons]
    omega
  | case4 c s _ ih =>
    intro x rest h
    obtain ⟨u, -, h⟩ := Option.bind_eq_some_iff.mp h
    obtain ⟨⟨units, tail⟩, hr, heq⟩ := Option.map_eq_some_iff.mp h
    cases heq
    have := ih hr
    simp only [List.length_cons]
    omega
  | case5 c s _ _ _ hc => exact fun h => by cases h
  | case6 c s _ _ _ hc ih =>
    intro x rest h
    obtain ⟨⟨units, tail⟩, hr, heq⟩ := Option.map_eq_some_iff.mp h
    cases heq
    have := ih hr
    simp only [List.length_cons]
    omega

theorem length_scanString {s rest : List Char} {x : List Nat} (h : scanString s = some (x, rest)) :
    rest.length < s.length := by
  obtain ⟨r, hr, heq⟩ := Option.map_eq_some_iff.mp h
  cases heq
  exact length_scanUnits (x := r.1) hr

theorem length_skipInt {s rest : List Char} (h : skipInt s = some rest) :
    rest.length < s.length := by
  unfold skipInt at h
  split at h
  · cases h
  · cases h
    exact Nat.lt_succ_self _
  · split at h
    · cases h
      exact Nat.lt_succ_of_le (by
        simpa [List.dropWhile_cons, *] using (List.dropWhile_sublist _).length_le)
    · cases h

theorem length_skipFrac (s : List Char) : (skipFrac s).length ≤ s.length := by
  unfold skipFrac
  split
  · split
    · have := (List.dropWhile_sublist isDigit (l := ‹List Char›)).length_le
      simp only [List.length_cons]
      omega
    · exact le_rfl
  · exact le_rfl

theorem length_skipSign (s : List Char) : (skipSign s).length ≤ s.length := by
  unfold skipSign
  split <;> simp

theorem length_skipExp (s : List Char) : (skipExp s).length ≤ s.length := by
  unfold skipExp
  split
  · exact le_rfl
  · rename_i e s
    split
    · split
      · rename_i c s' hs
        split
        · have hlen := length_skipSign s
          have hdrop := (List.dropWhile_sublist isDigit (l := s')).length_le
          rw [hs, List.length_cons] at hlen
          rw [List.length_cons]
          omega
        · exact le_rfl
      · exact le_rfl
    · exact le_rfl

theorem length_skipMinus (s : List Char) : (skipMinus s).length ≤ s.length := by
  unfold skipMinus
  split <;> simp

theorem length_matchNumber {s rest : List Char} {v : Json} (h : matchNumber s = some (v, rest)) :
    rest.length < s.length := by
  obtain ⟨r, hr, heq⟩ := Option.map_eq_some_iff.mp h
  cases heq
  obtain ⟨r', hr', rfl⟩ := Option.map_eq_some_iff.mp hr
  calc
    (skipExp (skipFrac r')).length ≤ r'.length := (length_skipExp _).trans (length_skipFrac _)
    _ < (skipMinus s).length := length_skipInt hr'
    _ ≤ s.length := length_skipMinus s

theorem Reads.length_lt {o : Out} {s rest : List Char} (h : Reads o s rest) :
    rest.length < s.length := by
  induction h with
  | str h => exact (length_scanString h).trans (Nat.lt_succ_self _)
  | @word w v rest h =>
    have hne : w ≠ [] := by
      rintro rfl
      simp [words] at h
    rw [List.length_append]
    have := List.length_pos_iff.mpr hne
    omega
  | num h => exact length_matchNumber h
  | emptyObj h | emptyArr h => exact (length_of_skipWs h).trans (Nat.lt_succ_self _)
  | @obj s _ _ _ ih | @arr s _ _ _ ih =>
    have := length_skipWs s
    rw [List.length_cons]
    omega
  | @lastMember s k s₁ s₂ v s₃ rest hk hcolon _ hend ih =>
    have h₁ := length_scanString hk
    have h₂ := length_of_skipWs hcolon
    have h₃ := length_skipWs s₂
    have h₄ := length_of_skipWs hend
    rw [List.length_cons]
    omega
  | @member s k s₁ s₂ v s₃ s₄ kvs rest hk hcolon _ hcomma _ ih ih' =>
    have h₁ := length_scanString hk
    have h₂ := length_of_skipWs hcolon
    have h₃ := length_skipWs s₂
    have h₄ := length_of_skipWs hcomma
    have h₅ := length_skipWs s₄
    rw [List.length_cons]
    omega
  | lastElement _ hend ih =>
    have := length_of_skipWs hend
    omega
  | @element s v s₁ s₂ vs rest _ hcomma _ ih ih' =>
    have h₁ := length_of_skipWs hcomma
    have h₂ := length_skipWs s₂
    omega

/-! ## The reader follows the grammar

In one direction a run of the reader is a reading, by induction on its steps. In the other one the
rules are what the reader finds, as no two of them begin alike.
-/

/-- What the reader returns with `n` steps. -/
def Runs (n : Nat) (s rest : List Char) : Out → Prop
  | .value v => scanOnce n s = some (v, rest)
  | .elements vs => elements n s = some (vs, rest)
  | .members kvs => members n s = some (kvs, rest)

theorem reads_of_runs : ∀ {n : Nat} {o : Out} {s rest : List Char}, Runs n s rest o → Reads o s rest
  | 0, .value _, _, _, h | 0, .elements _, _, _, h | 0, .members _, _, _, h => by cases h
  | n + 1, .value v, s, rest, h => by
    simp only [Runs, scanOnce] at h
    split at h
    · obtain ⟨r, hr, heq⟩ := Option.map_eq_some_iff.mp h
      cases heq
      exact .str hr
    · split at h
      · cases h
        exact .emptyObj ‹_›
      · obtain ⟨r, hr, heq⟩ := Option.map_eq_some_iff.mp h
        cases heq
        exact .obj (reads_of_runs (n := n) (o := .members r.1) hr)
    · split at h
      · cases h
        exact .emptyArr ‹_›
      · obtain ⟨r, hr, heq⟩ := Option.map_eq_some_iff.mp h
        cases heq
        exact .arr (reads_of_runs (n := n) (o := .elements r.1) hr)
    · obtain hw | ⟨-, hm⟩ := Option.or_eq_some_iff.mp h
      · obtain ⟨w, hmem, rfl⟩ := scanWord_eq_some hw
        exact .word hmem
      · exact .num hm
  | n + 1, .members kvs, s, rest, h => by
    simp only [Runs, members] at h
    split at h
    · obtain ⟨k, hk, h⟩ := Option.bind_eq_some_iff.mp h
      split at h
      · obtain ⟨v, hv, h⟩ := Option.bind_eq_some_iff.mp h
        have hval := reads_of_runs (n := n) (o := .value v.1) hv
        split at h
        · cases h
          exact .lastMember hk ‹_› hval ‹_›
        · obtain ⟨r, hr, heq⟩ := Option.map_eq_some_iff.mp h
          cases heq
          exact .member hk ‹_› hval ‹_› (reads_of_runs (n := n) (o := .members r.1) hr)
        · cases h
      · cases h
    · cases h
  | n + 1, .elements vs, s, rest, h => by
    simp only [Runs, elements] at h
    obtain ⟨v, hv, h⟩ := Option.bind_eq_some_iff.mp h
    have hval := reads_of_runs (n := n) (o := .value v.1) hv
    split at h
    · cases h
      exact .lastElement hval ‹_›
    · obtain ⟨r, hr, heq⟩ := Option.map_eq_some_iff.mp h
      cases heq
      exact .element hval ‹_› (reads_of_runs (n := n) (o := .elements r.1) hr)
    · cases h

/-- A word or a number begins with none of the characters that the reader looks for first. -/
theorem scanOnce_plain {n : Nat} {s rest : List Char} {v : Json}
    (h : (scanWord s).or (matchNumber s) = some (v, rest)) :
      scanOnce (n + 1) s = some (v, rest) := by
  have hfirst : ∀ c s', s = c :: s' → c ≠ '"' ∧ c ≠ '{' ∧ c ≠ '[' := by
    rintro c s' rfl
    obtain hw | ⟨-, hm⟩ := Option.or_eq_some_iff.mp h
    · obtain ⟨w, hw, heq⟩ := scanWord_eq_some hw
      simp only [words, List.mem_cons, Prod.mk.injEq, List.not_mem_nil, or_false] at hw
      obtain ⟨rfl, -⟩ | ⟨rfl, -⟩ | ⟨rfl, -⟩ | ⟨rfl, -⟩ | ⟨rfl, -⟩ | ⟨rfl, -⟩ := hw <;>
        simp only [String.toList] at heq <;> obtain ⟨rfl, -⟩ := List.cons.inj heq <;> decide
    · obtain ⟨c', s', hc, hs⟩ := numeral_of_matchNumber hm
      obtain hs | hs := hs
      · obtain ⟨rfl, -⟩ := List.cons.inj hs
        refine ⟨?_, ?_, ?_⟩ <;> (rintro rfl; cases hc)
      · obtain ⟨rfl, -⟩ := List.cons.inj hs
        decide
  unfold scanOnce
  split
  · exact absurd rfl (hfirst _ _ rfl).1
  · exact absurd rfl (hfirst _ _ rfl).2.1
  · exact absurd rfl (hfirst _ _ rfl).2.2
  · exact h

/-- Neither a value nor what is left of an object or an array begins with a closing bracket. -/
theorem Reads.head_ne {o : Out} {s rest : List Char} (h : Reads o s rest) :
    ∀ c s', s = c :: s' → c ≠ ']' ∧ c ≠ '}' := by
  induction h with
  | str | emptyObj | obj | emptyArr | arr | lastMember | member =>
    rintro c s' hs
    obtain ⟨rfl, -⟩ := List.cons.inj hs
    decide
  | @word w v rest hw =>
    rintro c s' hs
    simp only [words, List.mem_cons, Prod.mk.injEq, List.not_mem_nil, or_false] at hw
    obtain ⟨rfl, -⟩ | ⟨rfl, -⟩ | ⟨rfl, -⟩ | ⟨rfl, -⟩ | ⟨rfl, -⟩ | ⟨rfl, -⟩ := hw <;>
      simp only [String.toList] at hs <;> obtain ⟨rfl, -⟩ := List.cons.inj hs <;> decide
  | num h =>
    rintro c s' rfl
    obtain ⟨c', s'', hc, hs⟩ := numeral_of_matchNumber h
    obtain hs | hs := hs
    · obtain ⟨rfl, -⟩ := List.cons.inj hs
      constructor <;> (rintro rfl; cases hc)
    · obtain ⟨rfl, -⟩ := List.cons.inj hs
      decide
  | lastElement _ _ ih => exact ih
  | element _ _ _ ih _ => exact ih

/-- The reader takes what the grammar allows, with one step for each character. -/
theorem runs_of_reads {o : Out} {s rest : List Char} (h : Reads o s rest) :
    ∀ {n : Nat}, s.length ≤ n + rest.length → Runs n s rest o := by
  induction h with
  | @str s x rest h =>
    intro n hn
    have := length_scanString h
    obtain _ | n := n
    · simp only [List.length_cons] at hn
      omega
    · simp [Runs, scanOnce, h]
  | @word w v rest hw =>
    intro n hn
    have : rest.length < (w ++ rest).length := (Reads.word hw).length_lt
    obtain _ | n := n
    · omega
    · exact scanOnce_plain (by rw [scanWord_append hw]; rfl)
  | @num s v rest h =>
    intro n hn
    have := length_matchNumber h
    obtain _ | n := n
    · omega
    · exact scanOnce_plain (by
        rw [scanWord_of_numeral (numeral_of_matchNumber h), Option.none_or, h])
  | @emptyObj s rest h | @emptyArr s rest h =>
    intro n hn
    have := length_of_skipWs h
    obtain _ | n := n
    · simp only [List.length_cons] at hn
      omega
    · simp [Runs, scanOnce, h]
  | @obj s kvs rest hr ih =>
    intro n hn
    have hlt := hr.length_lt
    have hws := length_skipWs s
    simp only [List.length_cons] at hn
    obtain _ | n := n
    · omega
    · have hm : members n (skipWs s) = some (kvs, rest) := ih (by omega)
      simp only [Runs, scanOnce]
      split
      · exact absurd rfl (hr.head_ne _ _ ‹_›).2
      · rw [hm]
        rfl
  | @arr s vs rest hr ih =>
    intro n hn
    have hlt := hr.length_lt
    have hws := length_skipWs s
    simp only [List.length_cons] at hn
    obtain _ | n := n
    · omega
    · have hm : elements n (skipWs s) = some (vs, rest) := ih (by omega)
      simp only [Runs, scanOnce]
      split
      · exact absurd rfl (hr.head_ne _ _ ‹_›).1
      · rw [hm]
        rfl
  | @lastMember s k s₁ s₂ v s₃ rest hk hcolon hv hend ih =>
    intro n hn
    have h₁ := length_scanString hk
    have h₂ := length_of_skipWs hcolon
    have h₃ := length_skipWs s₂
    have h₄ := length_of_skipWs hend
    have h₅ := hv.length_lt
    simp only [List.length_cons] at hn
    obtain _ | n := n
    · omega
    · have hval : scanOnce n (skipWs s₂) = some (v, s₃) := ih (by omega)
      simp [Runs, members, hk, hcolon, hval, hend]
  | @member s k s₁ s₂ v s₃ s₄ kvs rest hk hcolon hv hcomma hr ih ih' =>
    intro n hn
    have h₁ := length_scanString hk
    have h₂ := length_of_skipWs hcolon
    have h₃ := length_skipWs s₂
    have h₄ := length_of_skipWs hcomma
    have h₅ := hv.length_lt
    have h₆ := length_skipWs s₄
    have h₇ := hr.length_lt
    simp only [List.length_cons] at hn
    obtain _ | n := n
    · omega
    · have hval : scanOnce n (skipWs s₂) = some (v, s₃) := ih (by omega)
      have hrest : members n (skipWs s₄) = some (kvs, rest) := ih' (by omega)
      simp [Runs, members, hk, hcolon, hval, hcomma, hrest]
  | @lastElement s v s₁ rest hv hend ih =>
    intro n hn
    have h₁ := hv.length_lt
    have h₂ := length_of_skipWs hend
    obtain _ | n := n
    · omega
    · have hval : scanOnce n s = some (v, s₁) := ih (by omega)
      simp [Runs, elements, hval, hend]
  | @element s v s₁ s₂ vs rest hv hcomma hr ih ih' =>
    intro n hn
    have h₁ := hv.length_lt
    have h₂ := length_of_skipWs hcomma
    have h₃ := length_skipWs s₂
    have h₄ := hr.length_lt
    obtain _ | n := n
    · omega
    · have hval : scanOnce n s = some (v, s₁) := ih (by omega)
      have hrest : elements n (skipWs s₂) = some (vs, rest) := ih' (by omega)
      simp [Runs, elements, hval, hcomma, hrest]

/-- **The reader and the grammar**. -/
theorem rawDecode_eq_some {s rest : List Char} {v : Json} : rawDecode s = some (v, rest) ↔
    Reads (.value v) s rest :=
  ⟨fun h => reads_of_runs (o := .value v) h, fun h =>
    runs_of_reads h (n := s.length + 1) (by omega)⟩

/-! ## More text behind

A reading looks behind itself in one case only: a number ends where the next character cannot
continue it. Closing brackets and commas cannot, so what stands inside an object stays read.
-/

theorem dropWhile_append_of_ne_nil {p : Char → Bool} {s : List Char} (h : s.dropWhile p ≠ [])
    (t : List Char) :
    (s ++ t).dropWhile p = s.dropWhile p ++ t := by
  rw [List.dropWhile_append, if_neg (by simpa using h)]

theorem skipWs_append {s rest : List Char} {c : Char} (h : skipWs s = c :: rest) (t : List Char) :
    skipWs (s ++ t) = c :: rest ++ t := by
  unfold skipWs at h ⊢
  rw [dropWhile_append_of_ne_nil (by simp [h]), h]

theorem scanUnits_append {s : List Char} : ∀ {x rest}, scanUnits s = some (x, rest) → ∀ t,
    scanUnits (s ++ t) = some (x, rest ++ t) := by
  fun_induction scanUnits s with
  | case1 => exact fun h => by cases h
  | case2 s =>
    intro x rest h t
    cases h
    rfl
  | case3 a b c d s ih =>
    intro x rest h t
    obtain ⟨u, hu, h⟩ := Option.bind_eq_some_iff.mp h
    obtain ⟨⟨units, tail⟩, hr, heq⟩ := Option.map_eq_some_iff.mp h
    cases heq
    simp [scanUnits, hu, ih hr t]
  | case4 c s hshort ih =>
    intro x rest h t
    obtain ⟨u, hu, h⟩ := Option.bind_eq_some_iff.mp h
    obtain ⟨⟨units, tail⟩, hr, heq⟩ := Option.map_eq_some_iff.mp h
    cases heq
    have hc : c ≠ 'u' := by
      rintro rfl
      cases hu
    simp [scanUnits, hu, hc, ih hr t]
  | case5 c s _ _ _ hc => exact fun h => by cases h
  | case6 c s hquote hescape hpair hc ih =>
    intro x rest h t
    obtain ⟨⟨units, tail⟩, hr, heq⟩ := Option.map_eq_some_iff.mp h
    cases heq
    have hne : c ≠ '\\' := by
      rintro rfl
      cases s with
      | nil => cases hr
      | cons c' s' => exact hpair _ _ rfl rfl
    have hcons : scanUnits (c :: (s ++ t)) =
        if c.toNat < 32 then none else (scanUnits (s ++ t)).map fun r => (c.toNat :: r.1, r.2) :=
      scanUnits.eq_5 _ _ hquote (fun _ _ _ _ _ h => absurd h hne) fun _ _ h => absurd h hne
    rw [List.cons_append, hcons, if_neg hc, ih hr t]
    rfl

theorem scanString_append {s rest : List Char} {x : List Nat} (h : scanString s = some (x, rest))
    (t : List Char) :
    scanString (s ++ t) = some (x, rest ++ t) := by
  obtain ⟨r, hr, heq⟩ := Option.map_eq_some_iff.mp h
  cases heq
  unfold scanString
  rw [scanUnits_append (x := r.1) hr t]
  rfl

/-- A number that ends before the rest goes on with none of these. -/
def ends (rest : List Char) : Prop := ∃ c s, rest = c :: s ∧ isDigit c = false ∧ c ≠ '.' ∧
    c ≠ 'e' ∧ c ≠ 'E'

theorem skipInt_append {s rest : List Char} (h : skipInt s = some rest) (hne : rest ≠ [])
    (t : List Char) :
    skipInt (s ++ t) = some (rest ++ t) := by
  unfold skipInt at h
  split at h
  · cases h
  · cases h
    rfl
  · rename_i c s hzero
    split at h
    · rename_i hc
      cases h
      have hcons : skipInt (c :: (s ++ t)) = if isDigit c then
        some ((s ++ t).dropWhile isDigit) else none :=
        skipInt.eq_3 _ _ hzero
      rw [List.cons_append, hcons, if_pos hc, dropWhile_append_of_ne_nil hne]
    · cases h

theorem ne_nil_of_ends {s : List Char} (h : ends s) : s ≠ [] := by
  obtain ⟨c, s, rfl, -⟩ := h
  exact List.cons_ne_nil _ _

theorem skipSign_append {s s' : List Char} {c : Char} (h : skipSign s = c :: s') (t : List Char) :
    skipSign (s ++ t) = c :: s' ++ t := by
  unfold skipSign at h
  split at h
  · rw [List.cons_append, skipSign, h]
  · rw [List.cons_append, skipSign, h]
  · rename_i hplus hminus
    subst h
    exact skipSign.eq_3 _ (fun _ heq => hplus _ (by rw [(List.cons.inj heq).1]))
      fun _ heq => hminus _ (by rw [(List.cons.inj heq).1])

theorem skipExp_append {s : List Char} (h : ends (skipExp s)) (t : List Char) :
    skipExp (s ++ t) = skipExp s ++ t := by
  cases s with
  | nil => exact absurd rfl (ne_nil_of_ends h)
  | cons e s =>
    rw [List.cons_append]
    unfold skipExp at h ⊢
    by_cases he : e = 'e' ∨ e = 'E'
    · have hnot : ¬ ends (e :: s) := by
        rintro ⟨c, s', heq, -, -, hlower, hupper⟩
        obtain ⟨rfl, -⟩ := List.cons.inj heq
        exact he.elim hlower hupper
      simp only [if_pos he] at h ⊢
      split at h
      · rename_i c s' hs
        rw [skipSign_append hs, List.cons_append]
        split at h
        · rename_i hc
          simp only [if_pos hc]
          exact dropWhile_append_of_ne_nil (ne_nil_of_ends h) t
        · exact absurd h hnot
      · exact absurd h hnot
    · simp only [if_neg he, List.cons_append]

theorem not_ends_skipExp_dot (s : List Char) : ¬ ends (skipExp ('.' :: s)) := by
  rintro ⟨c, s', heq, -, hc, -⟩
  have hexp : skipExp ('.' :: s) = '.' :: s := by
    unfold skipExp
    exact if_neg (by decide)
  obtain ⟨rfl, -⟩ := List.cons.inj (hexp.symm.trans heq)
  exact hc rfl

theorem skipFrac_of_ne {c : Char} (hc : c ≠ '.') (s : List Char) : skipFrac (c :: s) = c :: s :=
  skipFrac.eq_2 _ fun _ _ heq => hc (List.cons.inj heq).1

theorem skipFrac_append {s : List Char} (h : ends (skipExp (skipFrac s))) (t : List Char) :
    skipFrac (s ++ t) = skipFrac s ++ t := by
  cases s with
  | nil => exact absurd rfl (ne_nil_of_ends h)
  | cons e s =>
    by_cases he : e = '.'
    · subst he
      cases s with
      | nil => exact absurd h (not_ends_skipExp_dot _)
      | cons c s =>
        rw [List.cons_append, List.cons_append]
        unfold skipFrac at h ⊢
        by_cases hc : isDigit c = true
        · simp only [if_pos hc] at h ⊢
          refine dropWhile_append_of_ne_nil (fun hnil => ?_) t
          rw [hnil] at h
          exact absurd rfl (ne_nil_of_ends h)
        · simp only [if_neg hc] at h
          exact absurd h (not_ends_skipExp_dot _)
    · rw [List.cons_append, skipFrac_of_ne he, skipFrac_of_ne he, List.cons_append]

theorem skipMinus_append {s : List Char} (h : s ≠ []) (t : List Char) :
    skipMinus (s ++ t) = skipMinus s ++ t := by
  cases s with
  | nil => exact absurd rfl h
  | cons c s =>
    by_cases hc : c = '-'
    · subst hc
      rfl
    · have hother : ∀ s, skipMinus (c :: s) = c :: s := fun s => skipMinus.eq_2 _ fun _ heq =>
        hc (List.cons.inj heq).1
      rw [List.cons_append, hother, hother, List.cons_append]

theorem matchNumber_append {s rest : List Char} {v : Json} (h : matchNumber s = some (v, rest))
    (hends : ends rest)
    (t : List Char) : matchNumber (s ++ t) = some (v, rest ++ t) := by
  have hlen := length_matchNumber h
  have hne : s ≠ [] := by
    rintro rfl
    exact absurd hlen (Nat.not_lt_zero _)
  obtain ⟨r, hr, heq⟩ := Option.map_eq_some_iff.mp h
  obtain ⟨r', hr', rfl⟩ := Option.map_eq_some_iff.mp hr
  obtain ⟨rfl, rfl⟩ := Prod.mk.inj heq
  have hnil : r' ≠ [] := by
    rintro rfl
    exact absurd rfl (ne_nil_of_ends hends)
  have hskip : skipNumber (s ++ t) = some (skipExp (skipFrac r') ++ t) := by
    unfold skipNumber
    rw [skipMinus_append hne, skipInt_append hr' hnil, Option.map_some, skipFrac_append hends,
      skipExp_append hends]
  have htake : (s ++ t).take ((s ++ t).length - (skipExp (skipFrac r') ++ t).length) =
      s.take (s.length - (skipExp (skipFrac r')).length) := by
    rw [List.length_append, List.length_append, Nat.add_sub_add_right,
      List.take_append_of_le_length (Nat.sub_le _ _)]
  unfold matchNumber
  rw [hskip, Option.map_some, htake]

/-- A number stands alone, or before what cannot be part of it. -/
def Out.Delimited (rest : List Char) : Out → Prop
  | .value (.num _) => ends rest
  | _ => True

theorem ends_of_skipWs {s rest : List Char} {c : Char} (h : skipWs s = c :: rest)
    (hc : isDigit c = false ∧ c ≠ '.' ∧ c ≠ 'e' ∧ c ≠ 'E') : ends s := by
  cases s with
  | nil => cases h
  | cons c' s =>
    by_cases hws : isWs c' = true
    · refine ⟨c', s, rfl, ?_⟩
      simp only [isWs, Bool.or_eq_true, decide_eq_true_eq] at hws
      obtain ((rfl | rfl) | rfl) | rfl := hws <;> decide
    · unfold skipWs at h
      rw [List.dropWhile_cons_of_neg hws] at h
      obtain ⟨rfl, -⟩ := List.cons.inj h
      exact ⟨c', s, rfl, hc⟩

theorem delimited_of_ends {rest : List Char} (h : ends rest) (o : Out) : o.Delimited rest := by
  unfold Out.Delimited
  split
  · exact h
  · trivial

theorem Reads.skipWs_append {o : Out} {s rest : List Char} (h : Reads o (skipWs s) rest)
    (t : List Char) :
    skipWs (s ++ t) = skipWs s ++ t := by
  refine dropWhile_append_of_ne_nil (fun hnil => ?_) t
  have hlt := h.length_lt
  unfold skipWs at hlt
  rw [hnil] at hlt
  exact Nat.not_lt_zero _ hlt

/-- **What was read stays read**, whatever text comes behind it. -/
theorem Reads.append {o : Out} {s rest : List Char} (h : Reads o s rest) :
    o.Delimited rest → ∀ t, Reads o (s ++ t) (rest ++ t) := by
  induction h with
  | str h => exact fun _ t => .str (scanString_append h t)
  | @word w v rest hw =>
    intro _ t
    rw [List.append_assoc]
    exact .word hw
  | @num s v rest h =>
    intro hends t
    obtain ⟨r, -, heq⟩ := Option.map_eq_some_iff.mp h
    obtain ⟨rfl, -⟩ := Prod.mk.inj heq
    exact .num (matchNumber_append h hends t)
  | emptyObj h => exact fun _ t => .emptyObj (Json.skipWs_append h t)
  | obj hr ih => exact fun _ t => .obj (hr.skipWs_append t ▸ ih trivial t)
  | emptyArr h => exact fun _ t => .emptyArr (Json.skipWs_append h t)
  | arr hr ih => exact fun _ t => .arr (hr.skipWs_append t ▸ ih trivial t)
  | lastMember hk hcolon hv hend ih =>
    intro _ t
    have hval := ih (delimited_of_ends (ends_of_skipWs hend (by decide)) _) t
    exact .lastMember (scanString_append hk t) (Json.skipWs_append hcolon t)
      (hv.skipWs_append t ▸ hval)
      (Json.skipWs_append hend t)
  | member hk hcolon hv hcomma hr ih ih' =>
    intro _ t
    have hval := ih (delimited_of_ends (ends_of_skipWs hcomma (by decide)) _) t
    exact .member (scanString_append hk t) (Json.skipWs_append hcolon t) (hv.skipWs_append t ▸ hval)
      (Json.skipWs_append hcomma t) (hr.skipWs_append t ▸ ih' trivial t)
  | lastElement _ hend ih =>
    intro _ t
    exact .lastElement (ih (delimited_of_ends (ends_of_skipWs hend (by decide)) _) t)
      (Json.skipWs_append hend t)
  | element _ hcomma hr ih ih' =>
    intro _ t
    exact .element (ih (delimited_of_ends (ends_of_skipWs hcomma (by decide)) _) t)
      (Json.skipWs_append hcomma t)
      (hr.skipWs_append t ▸ ih' trivial t)

end Json

end Ringside

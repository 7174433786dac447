import Ringside.Text
import Mathlib.Tactic

/-!
# Templates

A template is a text in which a dollar sign and a key in braces stand for a value. `pieces` reads it
as characters and references. A text may be substituted, or escaped for a second reader that knows
references and doubled dollar signs.

* A key is a nonempty run of the characters of a class, in which there is no closing brace. A dollar
  sign that starts no reference stands for itself. The class is a parameter, since the two readers
  of a program may know different keys.
* Both readers go from left to right, and past what they matched. They are structural on the text:
  the number of characters to skip is an argument.
* `Piece.escape` doubles a dollar sign and keeps a reference under another name; `resolve` undoes
  the one and looks up the other, and has no value for a reference that is not known.

Results:
* `resolve_escaped`: resolving an escaped template is substituting it, whatever the values hold.
* `splitOn_flatMap`: splitting at a separator commutes with expansions that hold it nowhere else, so
  splitting before substituting is splitting after.
-/

namespace Ringside.Template

/-- A character, or a reference. -/
inductive Piece where
  | char (c : Char)
  | ref (key : List Char)
  deriving DecidableEq

/-- The key of a reference, after its dollar sign. -/
def refAt (isKey : Char → Bool) : List Char → Option (List Char)
  | '{' :: s =>
    match s.dropWhile isKey with
    | '}' :: _ => if s.takeWhile isKey = [] then none else some (s.takeWhile isKey)
    | _ => none
  | _ => none

/-- The pieces of a text after its first `n` characters. -/
def piecesFrom (isKey : Char → Bool) : Nat → List Char → List Piece
  | _, [] => []
  | n + 1, _ :: s => piecesFrom isKey n s
  | 0, c :: s =>
    match if c = '$' then refAt isKey s else none with
    | some key => .ref key :: piecesFrom isKey (key.length + 2) s
    | none => .char c :: piecesFrom isKey 0 s

/-- The pieces of a template. -/
def pieces (isKey : Char → Bool) (s : List Char) : List Piece := piecesFrom isKey 0 s

/-- The references of a template. -/
def refs (isKey : Char → Bool) (s : List Char) : List (List Char) :=
  (pieces isKey s).filterMap fun
    | .char _ => none
    | .ref key => some key

/-- What a piece stands for. -/
def Piece.expand (value : List Char → List Char) : Piece → List Char
  | .char c => [c]
  | .ref key => value key

/-- A piece for the second reader, which knows a key by another name. -/
def Piece.escape (rename : List Char → List Char) : Piece → List Char
  | .char c => if c = '$' then ['$', '$'] else [c]
  | .ref key => '$' :: '{' :: (rename key ++ ['}'])

/-- Substitution. -/
def substitute (isKey : Char → Bool) (value : List Char → List Char) (s : List Char) : List Char :=
  (pieces isKey s).flatMap (Piece.expand value)

/-- The second reader, after the first `n` characters: doubled dollar signs, and references that
must have a value. -/
def resolveFrom (isName : Char → Bool) (env : List Char → Option (List Char)) : Nat → List Char →
    Option (List Char)
  | _, [] => some []
  | n + 1, _ :: s => resolveFrom isName env n s
  | 0, c :: s =>
    if c = '$' ∧ s.head? = some '$' then ('$' :: ·) <$> resolveFrom isName env 1 s
    else
      match if c = '$' then refAt isName s else none with
      | some key =>
        match env key with
        | none => none
        | some value => (value ++ ·) <$> resolveFrom isName env (key.length + 2) s
      | none => (c :: ·) <$> resolveFrom isName env 0 s

/-- The second reader. -/
def resolve (isName : Char → Bool) (env : List Char → Option (List Char)) (s : List Char) :
    Option (List Char) :=
  resolveFrom isName env 0 s

/-! ## Resolving an escaped template -/

section Resolve

variable {isName : Char → Bool} {env : List Char → Option (List Char)}

theorem resolveFrom_drop : ∀ (n : Nat) (s : List Char), resolveFrom isName env n s = resolveFrom
    isName env 0 (s.drop n)
  | 0, _ => rfl
  | _ + 1, [] => rfl
  | n + 1, _ :: s => resolveFrom_drop n s

/-- A reference is read back. -/
theorem refAt_name (hbrace : isName '}' = false) {name : List Char} (hne : name ≠ [])
    (hname : ∀ c ∈ name, isName c = true)
    (rest : List Char) : refAt isName ('{' :: (name ++ '}' :: rest)) = some name := by
  have htake : (name ++ '}' :: rest).takeWhile isName = name := by
    rw [List.takeWhile_append_of_pos hname, List.takeWhile_cons_of_neg (by simp [hbrace]),
      List.append_nil]
  have hdrop : (name ++ '}' :: rest).dropWhile isName = '}' :: rest := by
    rw [List.dropWhile_append_of_pos hname, List.dropWhile_cons_of_neg (by simp [hbrace])]
  unfold refAt
  simp only [hdrop, htake]
  rw [if_neg hne]

/-- **Resolving what was escaped** gives what substituting gives. -/
theorem resolve_escaped (hbrace : isName '}' = false) {rename value : List Char → List Char} :
    ∀ {ps : List Piece},
    (∀ key, .ref key ∈ ps → rename key ≠ [] ∧ (∀ c ∈ rename key, isName c = true) ∧
    env (rename key) = some (value key)) →
      resolve isName env (ps.flatMap (Piece.escape rename)) = some (ps.flatMap (Piece.expand value))
  | [], _ => rfl
  | .char c :: ps, h => by
    have hrest : resolve isName env (ps.flatMap (Piece.escape rename)) =
      some (ps.flatMap (Piece.expand value)) :=
      resolve_escaped hbrace fun key hkey => h key (List.mem_cons_of_mem _ hkey)
    unfold resolve at hrest ⊢
    rw [List.flatMap_cons, List.flatMap_cons]
    by_cases hc : c = '$'
    · subst hc
      simp [Piece.escape, Piece.expand, resolveFrom, hrest]
    · simp [Piece.escape, Piece.expand, resolveFrom, hc, hrest]
  | .ref key :: ps, h => by
    obtain ⟨hne, hname, henv⟩ := h key List.mem_cons_self
    have hrest : resolve isName env (ps.flatMap (Piece.escape rename)) =
      some (ps.flatMap (Piece.expand value)) :=
      resolve_escaped hbrace fun key hkey => h key (List.mem_cons_of_mem _ hkey)
    unfold resolve at hrest ⊢
    rw [List.flatMap_cons, List.flatMap_cons]
    have hread := refAt_name hbrace hne hname (ps.flatMap (Piece.escape rename))
    have hdrop : (rename key ++ '}' :: ps.flatMap (Piece.escape rename)).drop
      ((rename key).length + 1) = ps.flatMap (Piece.escape rename) := by simp
    simp only [Piece.escape, Piece.expand, List.cons_append, List.append_assoc, List.nil_append,
      resolveFrom, List.head?_cons, if_true, hread, henv]
    rw [if_neg (by simp), resolveFrom_drop, hdrop, hrest]
    rfl

end Resolve

/-! ## Splitting -/

section Split

variable {α β : Type} [DecidableEq α] [DecidableEq β]

theorem splitOn_append {sep : β} : ∀ {l : List β}, sep ∉ l → ∀ rest : List β,
    (l ++ rest).splitOn sep = (rest.splitOn sep).modifyHead (l ++ ·)
  | [], _, rest => by
    rw [List.nil_append]
    cases rest.splitOn sep <;> rfl
  | c :: l, h, rest => by
    rw [List.mem_cons, not_or] at h
    rw [List.cons_append, List.splitOn_cons_eq_if_modifyHead, if_neg (by simpa using Ne.symm h.1),
      splitOn_append h.2 rest]
    cases rest.splitOn sep <;> rfl

/-- **Splitting an expansion** is expanding what is split. -/
theorem splitOn_flatMap {f : α → List β} {sep : β} {d : α} (hd : f d = [sep]) : ∀ {l : List α},
    (∀ a ∈ l, a ≠ d → sep ∉ f a) → (l.flatMap f).splitOn sep = (l.splitOn d).map (·.flatMap f)
  | [], _ => by simp
  | a :: l, h => by
    have hrest : (l.flatMap f).splitOn sep = (l.splitOn d).map (·.flatMap f) :=
      splitOn_flatMap hd fun b hb => h b (List.mem_cons_of_mem _ hb)
    rw [List.flatMap_cons, List.splitOn_cons_eq_if_modifyHead]
    by_cases ha : a = d
    · subst ha
      rw [hd, if_pos (by simp), List.singleton_append, List.splitOn_cons_eq_if_modifyHead,
        if_pos (by simp), hrest]
      rfl
    · rw [if_neg (by simpa using ha), splitOn_append (h a List.mem_cons_self ha), hrest]
      cases l.splitOn d <;> simp

theorem mem_of_mem_splitOn {d : α} : ∀ {l q : List α}, q ∈ l.splitOn d → ∀ a ∈ q, a ∈ l
  | [], q, hq, a, ha => by
    rw [List.splitOn_nil, List.mem_singleton] at hq
    rw [hq] at ha
    cases ha
  | b :: l, q, hq, a, ha => by
    rw [List.splitOn_cons_eq_if_modifyHead] at hq
    split_ifs at hq with hb
    · rcases List.mem_cons.mp hq with rfl | hq
      · cases ha
      · exact List.mem_cons_of_mem _ (mem_of_mem_splitOn hq a ha)
    · cases hsplit : l.splitOn d with
      | nil => exact absurd hsplit (List.splitOn_ne_nil _ _)
      | cons r rs =>
        have hr : r ∈ l.splitOn d := hsplit ▸ List.mem_cons_self
        rw [hsplit, List.modifyHead_cons] at hq
        rcases List.mem_cons.mp hq with rfl | hq
        · rcases List.mem_cons.mp ha with rfl | ha
          · exact List.mem_cons_self
          · exact List.mem_cons_of_mem _ (mem_of_mem_splitOn hr a ha)
        · exact List.mem_cons_of_mem _ (mem_of_mem_splitOn
            (hsplit ▸ List.mem_cons_of_mem _ hq) a ha)

end Split

/-! ## What has no references -/

section Plain

variable {isKey : Char → Bool} {rename value : List Char → List Char}

theorem mem_refs {s key : List Char} : key ∈ refs isKey s ↔ .ref key ∈ pieces isKey s := by
  unfold refs
  rw [List.mem_filterMap]
  constructor
  · rintro ⟨p, hp, hkey⟩
    cases p with
    | char c => cases hkey
    | ref k =>
      cases hkey
      exact hp
  · exact fun h => ⟨_, h, rfl⟩

/-- Without a dollar sign every piece is a character. -/
theorem pieces_plain : ∀ {s : List Char}, '$' ∉ s → pieces isKey s = s.map .char
  | [], _ => rfl
  | c :: s, h => by
    rw [List.mem_cons, not_or] at h
    have hrest : pieces isKey s = s.map .char := pieces_plain h.2
    unfold pieces at hrest ⊢
    rw [piecesFrom, if_neg (Ne.symm h.1), hrest, List.map_cons]

theorem refs_plain {s : List Char} (h : '$' ∉ s) : refs isKey s = [] := by
  refine List.eq_nil_iff_forall_not_mem.mpr fun key hkey => ?_
  rw [mem_refs, pieces_plain h] at hkey
  obtain ⟨c, -, hc⟩ := List.mem_map.mp hkey
  cases hc

/-- Without references nothing is substituted. -/
theorem substitute_of_refs : ∀ {s : List Char}, refs isKey s = [] → substitute isKey value s = s
  | [], _ => rfl
  | c :: s, h => by
    have hnone : (if c = '$' then refAt isKey s else none) = none := by
      cases hkey : if c = '$' then refAt isKey s else none with
      | none => rfl
      | some key =>
        unfold refs pieces at h
        rw [piecesFrom, hkey] at h
        cases h
    have hrest : refs isKey s = [] := by
      unfold refs pieces at h ⊢
      rwa [piecesFrom, hnone] at h
    have hs := substitute_of_refs hrest
    unfold substitute pieces at hs ⊢
    rw [piecesFrom, hnone]
    exact congrArg (c :: ·) hs

theorem substitute_plain {s : List Char} (h : '$' ∉ s) : substitute isKey value s = s :=
    substitute_of_refs (refs_plain h)

theorem escape_plain {s : List Char} (h : '$' ∉ s) :
    (pieces isKey s).flatMap (Piece.escape rename) = s := by
  rw [pieces_plain h, List.flatMap_map]
  have hself : ∀ c ∈ s, Piece.escape rename (.char c) = [c] :=
    fun c hc => if_neg (ne_of_mem_of_not_mem hc h)
  rw [List.flatMap_congr hself, List.flatMap_singleton']

/-- An escaped text without a dollar sign is a text of its own. -/
theorem expand_plain : ∀ {ps : List Piece}, '$' ∉ ps.flatMap (Piece.escape rename) →
    ps.flatMap (Piece.expand value) = ps.flatMap (Piece.escape rename)
  | [], _ => rfl
  | .char c :: ps, h => by
    rw [List.flatMap_cons, List.mem_append, not_or] at h
    have hc : c ≠ '$' := by
      rintro rfl
      exact h.1 (by simp [Piece.escape])
    rw [List.flatMap_cons, List.flatMap_cons, expand_plain h.2]
    simp [Piece.escape, Piece.expand, hc]
  | .ref key :: ps, h => by
    rw [List.flatMap_cons, List.mem_append, not_or] at h
    exact absurd (by simp [Piece.escape]) h.1

/-- What stands before a separator, where it has no dollar sign, stands there after the
substitution. -/
theorem partition_escape {sep : Char} (hsep : sep ≠ '$') :
    ∀ {ps : List Piece} {before after : List Char},
    Text.partition sep (ps.flatMap (Piece.escape rename)) = some (before, after) → '$' ∉ before →
      ∃ qs : List Piece, after = qs.flatMap (Piece.escape rename) ∧ (∀ p ∈ qs, p ∈ ps) ∧
        Text.partition sep (ps.flatMap (Piece.expand value)) =
        some (before, qs.flatMap (Piece.expand value))
  | [], _, _, h, _ => by cases h
  | .ref key :: ps, _, _, h, hbefore => by
    rw [List.flatMap_cons] at h
    simp only [Piece.escape, List.cons_append, Text.partition, if_neg hsep.symm] at h
    obtain ⟨kv, -, hkv⟩ := Option.map_eq_some_iff.mp h
    obtain ⟨rfl, -⟩ := Prod.mk.inj hkv
    exact absurd List.mem_cons_self hbefore
  | .char c :: ps, before, after, h, hbefore => by
    rw [List.flatMap_cons] at h
    by_cases hdollar : c = '$'
    · subst hdollar
      simp only [Piece.escape, if_true, List.cons_append, Text.partition, if_neg hsep.symm] at h
      obtain ⟨kv, -, hkv⟩ := Option.map_eq_some_iff.mp h
      obtain ⟨rfl, -⟩ := Prod.mk.inj hkv
      exact absurd List.mem_cons_self hbefore
    · simp only [Piece.escape, if_neg hdollar, List.singleton_append, Text.partition] at h
      rw [List.flatMap_cons]
      simp only [Piece.expand, List.singleton_append, Text.partition]
      by_cases hc : c = sep
      · rw [if_pos hc] at h ⊢
        cases h
        exact ⟨ps, rfl, fun p hp => List.mem_cons_of_mem _ hp, rfl⟩
      · rw [if_neg hc] at h ⊢
        obtain ⟨⟨k, w⟩, hkw, heq⟩ := Option.map_eq_some_iff.mp h
        cases heq
        obtain ⟨qs, hw, hqs, hvalue⟩ := partition_escape hsep hkw fun hk =>
          hbefore (List.mem_cons_of_mem _ hk)
        exact ⟨qs, hw, fun p hp => List.mem_cons_of_mem _ (hqs p hp), by rw [hvalue]; rfl⟩

end Plain

end Ringside.Template

import Ringside.Dict

/-!
# Splitting a compound delta (`streaming_events.py`)

Model of `split_delta`, with `resolve_target_state` and `needs_transition` of the event processor
that reads its pieces. `split_delta` takes a chat delta apart, so that the processor gets one kind
of thing at a time: first the fragments that continue the open call, then reasoning, content and the
calls that are new.

* `splitDelta` has the source's branches: a delta that is a `Single` is passed on as it is, else the
  fragments are grouped by index (`groups`, a dictionary in insertion order) and every group becomes
  one piece.
* `role` and what a piece has beside its three fields are not modelled; `tool_calls=None` takes the
  branch of `[]`.
* The processor keeps the state and the index of the current call. The events it emits are not
  modelled: the statements are about when a piece would make it leave the call.
* A stream says which call a fragment belongs to: one with a name opens a call, one without
  continues the open one (`Follows`, `Stream`). Text that the processor would answer with a
  transition closes the open call (`textCloses`).
* `OneCall` is the case the grouping by index is made for: in a delta an index stands for one call.

Results:
* `splitDelta_eq`: the pieces of a delta in closed form, continuations, reasoning, content, new
  calls.
* `splitDelta_spec`: nothing is lost, doubled or out of order, and every index is in one piece.
* `tracked_splitDelta`, `tracked_pieces`: over a whole stream no fragment of the open call comes
  after a piece that would close it.
* `split_in_time` has both.
* `tail_after_text`: it does come after, where one index stands for two calls, the open one's tail
  and a new one; the source groups them by design.
-/

namespace Ringside.SplitDelta

/-! ## The source -/

structure DeltaFunctionCall where
  name : Option String
  arguments : Option String
  deriving DecidableEq

structure DeltaToolCall where
  index : Option Int
  id : Option String
  type : Option String
  function : Option DeltaFunctionCall
  deriving DecidableEq

structure DeltaMessage where
  reasoning : Option String
  content : Option String
  toolCalls : List DeltaToolCall
  deriving DecidableEq

/-- `tc.function is not None and tc.function.name is not None`. -/
def DeltaToolCall.named (tc : DeltaToolCall) : Bool :=
    (tc.function.bind DeltaFunctionCall.name).isSome

/-- `groups.setdefault(tc.index, []).append(tc)` for every fragment. -/
def groups (tcs : List DeltaToolCall) : Dict (Option Int) (List DeltaToolCall) :=
  tcs.foldl (fun d tc => d.set tc.index ((d.get? tc.index).getD [] ++ [tc])) Dict.empty

/-- `DeltaMessage(tool_calls=tcs)`. -/
def toolPiece (tcs : List DeltaToolCall) : DeltaMessage := ⟨none, none, tcs⟩

/-- The test for a delta that is passed on as it is. -/
def Single (delta : DeltaMessage) : Prop :=
  delta.reasoning.isSome.toNat + delta.content.isSome.toNat + (!delta.toolCalls.isEmpty).toNat ≤ 1 ∧
    (delta.toolCalls = [] ∨ (delta.toolCalls.filterMap DeltaToolCall.index).eraseDups.length ≤ 1)

instance decidableSingle (delta : DeltaMessage) : Decidable (Single delta) :=
    inferInstanceAs (Decidable (_ ∧ _))

/-- `split_delta`. -/
def splitDelta (delta : DeltaMessage) : List DeltaMessage :=
  if Single delta then [delta]
  else
    let values := (groups delta.toolCalls).values
    let continuations := (values.filter fun tcs => !tcs.any DeltaToolCall.named).map toolPiece
    let newCalls := (values.filter fun tcs => tcs.any DeltaToolCall.named).map toolPiece
    let deltas := continuations ++ (if delta.reasoning.isSome then
      [⟨delta.reasoning, none, []⟩] else []) ++
      (if delta.content.isSome then [⟨none, delta.content, []⟩] else []) ++ newCalls
    if deltas = [] then [delta] else deltas

/-- `_StateType`. -/
inductive StateType where
  | none
  | content
  | reasoning
  | toolCall
  deriving DecidableEq

/-- `resolve_target_state`. -/
def resolveTargetState (delta : DeltaMessage) : StateType × Option DeltaToolCall :=
  match delta.toolCalls.head?.filter (·.function.isSome) with
  | some tc => (.toolCall, some tc)
  | none =>
    if delta.reasoning.isSome then (.reasoning, none)
    else if delta.content.getD "" ≠ "" then (.content, none)
    else (.none, none)

/-- `needs_transition`, with the state of the processor. -/
def needsTransition (currentState : StateType) (toolCallIndex : Option Int) (target : StateType)
    (toolCall : Option DeltaToolCall) :
    Bool :=
  if currentState ≠ target then true
  else match toolCall, toolCallIndex with
    | some tc, some i => target = .toolCall && tc.index.isSome && (tc.index ≠ some i)
    | _, _ => false

/-! ## The groups

`groups` is a dictionary in order of insertion. It is the list of the indices in the order of their
first fragments, each with its fragments, in whatever order the fragments of different indices come.
-/

variable {tcs pre block : List DeltaToolCall} {k : Option Int}

/-- The fragments of one index. -/
def ofIndex (k : Option Int) (tcs : List DeltaToolCall) : List DeltaToolCall :=
    tcs.filter fun tc => tc.index = k

/-- The indices in the order of their first fragments. -/
def indices (tcs : List DeltaToolCall) : List (Option Int) :=
    (tcs.map DeltaToolCall.index).eraseDups

theorem mem_indices : k ∈ indices tcs ↔ ∃ tc ∈ tcs, tc.index = k := by
  rw [indices, List.mem_eraseDups, List.mem_map]

theorem eraseDups_snoc {κ : Type} [BEq κ] [LawfulBEq κ] (l : List κ) (x : κ) [Decidable (x ∈ l)] :
    (l ++ [x]).eraseDups = if x ∈ l then l.eraseDups else l.eraseDups ++ [x] := by
  rw [List.eraseDups_append]
  by_cases h : x ∈ l <;> simp [List.removeAll, h, List.eraseDups_cons]

theorem indices_snoc (tcs : List DeltaToolCall) (tc : DeltaToolCall) :
    indices (tcs ++ [tc]) = if tc.index ∈ indices tcs then indices tcs
    else indices tcs ++ [tc.index] := by
  rw [indices, List.map_append, List.map_singleton, eraseDups_snoc]
  simp only [indices, List.mem_eraseDups]

theorem nodup_indices (tcs : List DeltaToolCall) : (indices tcs).Nodup := by
  induction tcs using List.reverseRecOn with
  | nil => exact List.nodup_nil
  | append_singleton tcs tc ih =>
    rw [indices_snoc]
    split_ifs with h
    · exact ih
    · exact ih.append (List.nodup_singleton _) (by simpa using h)

@[simp]
theorem ofIndex_append : ofIndex k (pre ++ block) = ofIndex k pre ++ ofIndex k block :=
    List.filter_append ..

theorem ofIndex_of_notMem (h : k ∉ indices tcs) : ofIndex k tcs = [] := by
  rw [ofIndex, List.filter_eq_nil_iff]
  intro tc htc
  rw [decide_eq_true_eq]
  exact fun hk => h (mem_indices.mpr ⟨tc, htc, hk⟩)

theorem ofIndex_self (h : ∀ tc ∈ tcs, tc.index = k) : ofIndex k tcs = tcs :=
  List.filter_eq_self.mpr fun tc htc => decide_eq_true (h tc htc)

/-- The groups, in the order of their first fragments. -/
theorem groups_items (tcs : List DeltaToolCall) :
    (groups tcs).items = (indices tcs).map fun k => (k, ofIndex k tcs) := by
  induction tcs using List.reverseRecOn with
  | nil => rfl
  | append_singleton tcs tc ih =>
    have hkeys : (groups tcs).keys = indices tcs := by
      rw [Dict.keys, ih, List.map_map]
      exact List.map_id _
    rw [groups, List.foldl_append, List.foldl_cons, List.foldl_nil, ← groups,
      indices_snoc, Dict.set]
    by_cases h : tc.index ∈ indices tcs
    · have hget : (groups tcs).get? tc.index = some (ofIndex tc.index tcs) :=
        Dict.mem_items.mp (ih ▸ List.mem_map.mpr ⟨_, h, rfl⟩)
      rw [dif_pos (hkeys ▸ h), if_pos h, hget]
      simp only [ih, List.map_map]
      refine List.map_congr_left fun k _ => ?_
      by_cases hk : k = tc.index
      · simp [hk, ofIndex]
      · simp [hk, ofIndex, Ne.symm hk]
    · rw [dif_neg (hkeys ▸ h), if_neg h, Dict.get?_eq_none.mpr (hkeys ▸ h)]
      simp only [ih, List.map_append, List.map_singleton]
      congr 1
      · refine List.map_congr_left fun k hk => ?_
        have hne : tc.index ≠ k := fun heq => h (heq ▸ hk)
        simp [ofIndex, hne]
      · rw [ofIndex_append, ofIndex_of_notMem h]
        simp [ofIndex]

theorem groups_values (tcs : List DeltaToolCall) : (groups tcs).values = (indices tcs).map fun k =>
    ofIndex k tcs := by
  rw [Dict.values, groups_items, List.map_map]
  rfl

/-! ## The pieces of one delta

A group either opens a call, when one of its fragments has a name, or continues one. The output is
the continuations, the text, and the new calls.
-/

section Pieces

variable {delta : DeltaMessage}

/-- The group of an index holds a fragment with a name. -/
def Opens (delta : DeltaMessage) (k : Option Int) : Bool :=
    (ofIndex k delta.toolCalls).any DeltaToolCall.named

/-- The piece of an index. -/
def piece (delta : DeltaMessage) (k : Option Int) : DeltaMessage :=
    toolPiece (ofIndex k delta.toolCalls)

def reasoningPieces (delta : DeltaMessage) : List DeltaMessage :=
  if delta.reasoning.isSome then [⟨delta.reasoning, none, []⟩] else []

def contentPieces (delta : DeltaMessage) : List DeltaMessage :=
  if delta.content.isSome then [⟨none, delta.content, []⟩] else []

def continuations (delta : DeltaMessage) : List (Option Int) :=
    (indices delta.toolCalls).filter fun k => !Opens delta k

def newCalls (delta : DeltaMessage) : List (Option Int) :=
    (indices delta.toolCalls).filter (Opens delta)

/-- The pieces of a delta that is taken apart. -/
theorem splitDelta_eq (h : ¬ Single delta) : splitDelta delta = (continuations delta).map
    (piece delta) ++
    (reasoningPieces delta ++ contentPieces delta) ++ (newCalls delta).map (piece delta) := by
  have hfilter : ∀ p : List DeltaToolCall → Bool,
    (((groups delta.toolCalls).values.filter p).map toolPiece) =
      ((indices delta.toolCalls).filter fun k => p (ofIndex k delta.toolCalls)).map
      (piece delta) := by
    intro p
    rw [groups_values, List.filter_map, List.map_map]
    rfl
  rw [splitDelta, if_neg h]
  simp only [hfilter]
  rw [if_neg, ← List.append_assoc]
  · rfl
  · -- a delta without pieces has no field that is set
    intro hnil
    simp only [List.append_eq_nil_iff, List.map_eq_nil_iff, List.filter_eq_nil_iff] at hnil
    obtain ⟨⟨⟨hcont, hreasoning⟩, hcontent⟩, hnew⟩ := hnil
    have hreasoning' : delta.reasoning.isSome = false := by simpa using hreasoning
    have hcontent' : delta.content.isSome = false := by simpa using hcontent
    have htools : delta.toolCalls = [] := by
      refine List.eq_nil_iff_forall_not_mem.mpr fun tc htc => ?_
      have hk := mem_indices.mpr ⟨tc, htc, rfl⟩
      have hno := hnew _ hk
      exact hcont _ hk (by simpa using hno)
    exact h ⟨by simp [hreasoning', hcontent', htools], Or.inl htools⟩

theorem mem_newCalls {k : Option Int} : k ∈ newCalls delta ↔ k ∈ indices delta.toolCalls ∧
    Opens delta k = true := List.mem_filter

theorem mem_continuations {k : Option Int} :
    k ∈ continuations delta ↔ k ∈ indices delta.toolCalls ∧ Opens delta k = false := by
  rw [continuations, List.mem_filter, Bool.not_eq_true']

/-! ### Nothing lost, nothing twice, nothing out of order

Each property is shown of the groups first, by induction on the fragments, and carried to the pieces
by `splitDelta_eq`.
-/

/-- How many kinds of things a delta carries. -/
def kinds (p : DeltaMessage) : Nat := p.reasoning.isSome.toNat + p.content.isSome.toNat +
    (!p.toolCalls.isEmpty).toNat

/-- The classes of pieces, in the order of their output: continuations, reasoning, content, new
calls. -/
def rank (p : DeltaMessage) : Nat :=
  if p.toolCalls ≠ [] then if p.toolCalls.any DeltaToolCall.named then 3 else 0
  else if p.reasoning.isSome then 1 else 2

/-- Where the first fragment of a piece's index stands in the delta. -/
def firstAt (delta p : DeltaMessage) : Nat :=
  (delta.toolCalls.map DeltaToolCall.index).idxOf (p.toolCalls.head?.bind DeltaToolCall.index)

/-- `p` comes before `q`: by the class, then by the first fragment. -/
def Before (delta p q : DeltaMessage) : Prop := rank p < rank q ∨ rank p = rank q ∧
    firstAt delta p < firstAt delta q

/-- What the pieces of a delta are. -/
structure Split (delta : DeltaMessage) (pieces : List DeltaMessage) : Prop where
  /-- Every piece carries one kind of thing. -/
  single : ∀ p ∈ pieces, kinds p ≤ 1
  reasoning : pieces.filterMap DeltaMessage.reasoning = delta.reasoning.toList
  content : pieces.filterMap DeltaMessage.content = delta.content.toList
  tools : (pieces.flatMap DeltaMessage.toolCalls).Perm delta.toolCalls
  /-- The fragments of an index are in one piece, as they were. -/
  together : ∀ k, ∃ before p after, pieces = before ++ p :: after ∧
    ofIndex k p.toolCalls = ofIndex k delta.toolCalls ∧
    ∀ q ∈ before ++ after, ofIndex k q.toolCalls = []
  /-- The classes are in order, and each has its groups in the order of their first fragments. -/
  ordered : pieces.Pairwise (Before delta)

theorem indices_pairwise (tcs : List DeltaToolCall) : (indices tcs).Pairwise fun a b =>
    (tcs.map DeltaToolCall.index).idxOf a < (tcs.map DeltaToolCall.index).idxOf b := by
  induction tcs using List.reverseRecOn with
  | nil => exact List.Pairwise.nil
  | append_singleton tcs tc ih =>
    have hold : ∀ a ∈ indices tcs, ((tcs ++ [tc]).map DeltaToolCall.index).idxOf a =
      (tcs.map DeltaToolCall.index).idxOf a ∧
        (tcs.map DeltaToolCall.index).idxOf a < tcs.length := by
      intro a ha
      rw [indices, List.mem_eraseDups] at ha
      rw [List.map_append, List.idxOf_append_of_mem ha]
      exact ⟨rfl, by simpa using List.idxOf_lt_length_of_mem ha⟩
    have hsame : (indices tcs).Pairwise fun a b => ((tcs ++ [tc]).map DeltaToolCall.index).idxOf a <
        ((tcs ++ [tc]).map DeltaToolCall.index).idxOf b :=
      ih.imp_of_mem fun ha hb h => by rwa [(hold _ ha).1, (hold _ hb).1]
    rw [indices_snoc]
    split_ifs with h
    · exact hsame
    · refine List.pairwise_append.mpr ⟨hsame, List.pairwise_singleton .., fun a ha b hb => ?_⟩
      rw [List.mem_singleton] at hb
      have hnew : tc.index ∉ tcs.map DeltaToolCall.index := fun hm => h (List.mem_eraseDups.mpr hm)
      rw [(hold a ha).1, hb, List.map_append, List.idxOf_append_of_notMem hnew, List.length_map]
      exact (hold a ha).2.trans_le (Nat.le_add_right _ _)

/-- The groups hold every fragment once. -/
theorem flatMap_ofIndex_perm {ks : List (Option Int)} (hks : ks.Nodup)
    (h : ∀ tc ∈ tcs, tc.index ∈ ks) :
    (ks.flatMap fun k => ofIndex k tcs).Perm tcs := by
  induction ks generalizing tcs with
  | nil =>
    rw [List.eq_nil_iff_forall_not_mem.mpr fun tc htc => absurd (h tc htc) List.not_mem_nil]
    rfl
  | cons k ks ih =>
    obtain ⟨hk, hks⟩ := List.nodup_cons.mp hks
    -- the groups of the other indices are those of the other fragments
    have hother : ∀ k' ∈ ks, ofIndex k' tcs = ofIndex k' (tcs.filter fun tc =>
      !decide (tc.index = k)) := by
      intro k' hk'
      rw [ofIndex, ofIndex, List.filter_filter]
      refine List.filter_congr fun tc _ => ?_
      by_cases heq : tc.index = k'
      · have hne : k' ≠ k := fun h => hk (h ▸ hk')
        simp [heq, hne]
      · simp [heq]
    rw [List.flatMap_cons, List.flatMap_congr hother]
    refine ((ih hks fun tc htc => ?_).append_left _).trans
      (List.filter_append_perm (fun tc : DeltaToolCall => decide (tc.index = k)) tcs)
    obtain ⟨htc, hne⟩ := List.mem_filter.mp htc
    exact (List.mem_cons.mp (h tc htc)).resolve_left (by simpa using hne)

theorem mem_textPieces {p : DeltaMessage} (h : p ∈ reasoningPieces delta ++ contentPieces delta) :
    p.toolCalls = [] := by
  unfold reasoningPieces contentPieces at h
  split_ifs at h <;> simp at h
  · obtain rfl | rfl := h <;> rfl
  · rw [h]
  · rw [h]

theorem flatMap_textPieces :
    (reasoningPieces delta ++ contentPieces delta).flatMap DeltaMessage.toolCalls = [] :=
  List.flatMap_eq_nil_iff.mpr fun _ => mem_textPieces

theorem piece_toolCalls (k : Option Int) : (piece delta k).toolCalls = ofIndex k
    delta.toolCalls := rfl

theorem head_piece {k : Option Int} (h : k ∈ indices delta.toolCalls) :
    ∃ tc, (piece delta k).toolCalls.head? = some tc ∧ tc.index = k := by
  obtain ⟨tc, htc, hk⟩ := mem_indices.mp h
  have hmem : tc ∈ ofIndex k delta.toolCalls := List.mem_filter.mpr ⟨htc, decide_eq_true hk⟩
  obtain ⟨tc', htc'⟩ := Option.ne_none_iff_exists'.mp
    (mt List.head?_eq_none_iff.mp (List.ne_nil_of_mem hmem))
  exact ⟨tc', htc', of_decide_eq_true (List.mem_filter.mp (List.mem_of_mem_head? htc')).2⟩

theorem firstAt_piece {k : Option Int} (h : k ∈ indices delta.toolCalls) :
    firstAt delta (piece delta k) = (delta.toolCalls.map DeltaToolCall.index).idxOf k := by
  obtain ⟨tc, htc, hk⟩ := head_piece h
  rw [firstAt, htc, Option.bind_some, hk]

theorem rank_piece {k : Option Int} (h : k ∈ indices delta.toolCalls) :
    rank (piece delta k) = if Opens delta k then 3 else 0 := by
  obtain ⟨tc, htc, -⟩ := head_piece h
  rw [rank, if_pos fun hnil => by rw [hnil] at htc; cases htc]
  rfl

theorem before_irrefl (p : DeltaMessage) : ¬ Before delta p p :=
    fun h => h.elim (lt_irrefl _) fun h => lt_irrefl _ h.2

theorem before_pieces {p : Option Int → Bool} {r : Nat}
    (h : ∀ k ∈ (indices delta.toolCalls).filter p, rank (piece delta k) = r) :
    (((indices delta.toolCalls).filter p).map (piece delta)).Pairwise (Before delta) := by
  rw [List.pairwise_map]
  refine ((indices_pairwise delta.toolCalls).filter p).imp_of_mem fun {a b} ha hb hab =>
    Or.inr ⟨?_, ?_⟩
  · rw [h a ha, h b hb]
  · rwa [firstAt_piece (List.mem_of_mem_filter ha), firstAt_piece (List.mem_of_mem_filter hb)]

theorem rank_continuation {k : Option Int} (h : k ∈ continuations delta) :
    rank (piece delta k) = 0 := by
  rw [rank_piece (mem_continuations.mp h).1, (mem_continuations.mp h).2]
  rfl

theorem rank_newCall {k : Option Int} (h : k ∈ newCalls delta) : rank (piece delta k) = 3 := by
  rw [rank_piece (mem_newCalls.mp h).1, (mem_newCalls.mp h).2]
  rfl

theorem rank_textPiece {p : DeltaMessage} (h : p ∈ reasoningPieces delta ++ contentPieces delta) :
    rank p = 1 ∨ rank p = 2 := by
  rw [rank, if_neg (not_not.mpr (mem_textPieces h))]
  split_ifs
  · exact Or.inl rfl
  · exact Or.inr rfl

theorem before_textPieces : (reasoningPieces delta ++ contentPieces delta).Pairwise
    (Before delta) := by
  unfold reasoningPieces contentPieces
  split_ifs with hreasoning <;> simp
  exact Or.inl (by simp [rank, hreasoning])

theorem ordered_splitDelta (h : ¬ Single delta) : (splitDelta delta).Pairwise (Before delta) := by
  rw [splitDelta_eq h]
  refine List.pairwise_append.mpr ⟨List.pairwise_append.mpr ⟨before_pieces fun k =>
    rank_continuation, before_textPieces, ?_⟩, before_pieces fun k => rank_newCall, ?_⟩
  · intro p hp q hq
    obtain ⟨k, hk, rfl⟩ := List.mem_map.mp hp
    have := rank_textPiece hq
    have := rank_continuation hk
    exact Or.inl (by omega)
  · intro p hp q hq
    obtain ⟨k, hk, rfl⟩ := List.mem_map.mp hq
    have := rank_newCall hk
    refine Or.inl ?_
    rcases List.mem_append.mp hp with hp | hp
    · obtain ⟨k', hk', rfl⟩ := List.mem_map.mp hp
      have := rank_continuation hk'
      omega
    · have := rank_textPiece hp
      omega

theorem mem_splitDelta (h : ¬ Single delta) {p : DeltaMessage} : p ∈ splitDelta delta ↔
    (∃ k ∈ indices delta.toolCalls, piece delta k = p) ∨ p ∈ reasoningPieces delta ++
    contentPieces delta := by
  rw [splitDelta_eq h, List.mem_append, List.mem_append, List.mem_map, List.mem_map]
  constructor
  · rintro ((⟨k, hk, rfl⟩ | hp) | ⟨k, hk, rfl⟩)
    · exact Or.inl ⟨k, (mem_continuations.mp hk).1, rfl⟩
    · exact Or.inr hp
    · exact Or.inl ⟨k, (mem_newCalls.mp hk).1, rfl⟩
  · rintro (⟨k, hk, rfl⟩ | hp)
    · cases hopens : Opens delta k with
      | false => exact Or.inl (Or.inl ⟨k, mem_continuations.mpr ⟨hk, hopens⟩, rfl⟩)
      | true => exact Or.inr ⟨k, mem_newCalls.mpr ⟨hk, hopens⟩, rfl⟩
    · exact Or.inl (Or.inr hp)

theorem ofIndex_ofIndex_of_ne {k k' : Option Int} (h : k' ≠ k) :
    ofIndex k (ofIndex k' tcs) = [] := by
  rw [ofIndex, ofIndex, List.filter_filter, List.filter_eq_nil_iff]
  intro tc _
  by_cases heq : tc.index = k <;> simp [heq, h.symm]

theorem splitDelta_ne_nil (delta : DeltaMessage) : splitDelta delta ≠ [] := by
  intro hnil
  unfold splitDelta at hnil
  obtain ⟨-, h⟩ | ⟨-, h⟩ := ite_eq_iff.mp hnil
  · exact List.cons_ne_nil _ _ h
  · obtain ⟨-, h⟩ | ⟨hne, h⟩ := ite_eq_iff.mp h
    · exact List.cons_ne_nil _ _ h
    · exact hne h

theorem together_splitDelta (h : ¬ Single delta) (k : Option Int) : ∃ before p after,
    splitDelta delta = before ++ p :: after ∧
    ofIndex k p.toolCalls = ofIndex k delta.toolCalls ∧ ∀ q ∈ before ++ after,
    ofIndex k q.toolCalls = [] := by
  -- a piece of another index or of text holds nothing of `k`
  have hother : ∀ q ∈ splitDelta delta, q ≠ piece delta k → ofIndex k q.toolCalls = [] := by
    intro q hq hne
    obtain ⟨k', -, rfl⟩ | htext := (mem_splitDelta h).mp hq
    · exact ofIndex_ofIndex_of_ne fun heq => hne (heq ▸ rfl)
    · rw [mem_textPieces htext]
      rfl
  by_cases hk : k ∈ indices delta.toolCalls
  · obtain ⟨before, after, heq⟩ := List.append_of_mem ((mem_splitDelta h).mpr (Or.inl ⟨k, hk, rfl⟩))
    have hsorted := ordered_splitDelta h
    rw [heq, List.pairwise_append, List.pairwise_cons] at hsorted
    refine ⟨before, piece delta k, after, heq, ?_, fun q hq => hother q ?_ fun hself => ?_⟩
    · rw [piece_toolCalls, ofIndex, ofIndex, List.filter_filter]
      simp
    · rw [heq]
      rcases List.mem_append.mp hq with hq | hq
      · exact List.mem_append_left _ hq
      · exact List.mem_append_right _ (List.mem_cons_of_mem _ hq)
    · subst hself
      rcases List.mem_append.mp hq with hq | hq
      · exact before_irrefl _ (hsorted.2.2 _ hq _ (List.mem_cons_self ..))
      · exact before_irrefl _ (hsorted.2.1.1 _ hq)
  · obtain ⟨p, after, heq⟩ := List.exists_cons_of_ne_nil (splitDelta_ne_nil delta)
    have hnil : ∀ q ∈ splitDelta delta, ofIndex k q.toolCalls = [] := by
      intro q hq
      obtain ⟨k', hk', rfl⟩ | htext := (mem_splitDelta h).mp hq
      · exact ofIndex_ofIndex_of_ne fun heq => hk (heq ▸ hk')
      · rw [mem_textPieces htext]
        rfl
    refine ⟨[], p, after, heq, ?_, fun q hq => hnil q (heq ▸ List.mem_cons_of_mem _ hq)⟩
    rw [ofIndex_of_notMem hk, hnil p (heq ▸ List.mem_cons_self ..)]

theorem filterMap_pieces {β : Type} (f : DeltaMessage → Option β)
    (hf : ∀ tcs, f (toolPiece tcs) = none) (h : ¬ Single delta) :
    (splitDelta delta).filterMap f =
      (reasoningPieces delta ++ contentPieces delta).filterMap f := by
  have hnone : ∀ ks : List (Option Int), (ks.map (piece delta)).filterMap f = [] := fun ks =>
    List.filterMap_eq_nil_iff.mpr fun p hp => by
      obtain ⟨k, -, rfl⟩ := List.mem_map.mp hp
      exact hf _
  rw [splitDelta_eq h, List.filterMap_append, List.filterMap_append, hnone, hnone, List.nil_append,
    List.append_nil]

/-- **Taking a delta apart** loses nothing, doubles nothing and keeps the order. -/
theorem splitDelta_spec (delta : DeltaMessage) : Split delta (splitDelta delta) := by
  by_cases h : Single delta
  · have heq : splitDelta delta = [delta] := if_pos h
    rw [heq]
    refine ⟨fun p hp => ?_, ?_, ?_, by simp, fun k => ⟨[], delta, [], rfl, rfl, by simp⟩,
      List.pairwise_singleton ..⟩
    · rw [List.mem_singleton.mp hp]
      exact h.1
    · cases hr : delta.reasoning <;> simp [hr]
    · cases hc : delta.content <;> simp [hc]
  · refine ⟨fun p hp => ?_, ?_, ?_, ?_, together_splitDelta h, ordered_splitDelta h⟩
    · obtain ⟨k, -, rfl⟩ | htext := (mem_splitDelta h).mp hp
      · exact Nat.le_trans (Nat.le_of_eq (Nat.zero_add _)) (Bool.toNat_le _)
      · rw [reasoningPieces, contentPieces] at htext
        split_ifs at htext with hr hc hc <;> simp at htext
        · obtain rfl | rfl := htext
          · simp [kinds, Bool.toNat_le]
          · simp [kinds, Bool.toNat_le]
        · simp [htext, kinds, Bool.toNat_le]
        · simp [htext, kinds, Bool.toNat_le]
    · rw [filterMap_pieces _ (fun _ => rfl) h]
      cases hr : delta.reasoning <;> cases hc :
        delta.content <;> simp [reasoningPieces, contentPieces, hr, hc]
    · rw [filterMap_pieces _ (fun _ => rfl) h]
      cases hr : delta.reasoning <;> cases hc :
        delta.content <;> simp [reasoningPieces, contentPieces, hr, hc]
    · have hgroups : ∀ ks : List (Option Int),
        (ks.map (piece delta)).flatMap DeltaMessage.toolCalls =
          ks.flatMap fun k => ofIndex k delta.toolCalls := fun ks => List.flatMap_map ..
      rw [splitDelta_eq h, List.flatMap_append, List.flatMap_append, flatMap_textPieces,
        List.append_nil, hgroups, hgroups, ← List.flatMap_append]
      refine ((List.Perm.flatMap_right _ ?_).trans
        (flatMap_ofIndex_perm (nodup_indices _) fun tc htc =>
        mem_indices.mpr ⟨tc, htc, rfl⟩))
      exact List.perm_append_comm.trans (List.filter_append_perm (Opens delta) _)

end Pieces

/-! ## Streams

The processor closes a tool call when a piece of text or a call of another index reaches it. What a
stream must be like for that not to come too early is said on the deltas, before they are taken
apart: only the open call is continued without a name. The induction is on the deltas, with the open
call as the state.
-/

/-- The open call behind a fragment, `none` when no call is open: a name opens the call of its
index. -/
def opened (c : Option (Option Int)) (tc : DeltaToolCall) : Option (Option Int) := if tc.named then
    some tc.index else c

/-- Fragments without a name continue the call that is open. -/
def Follows : Option (Option Int) → List DeltaToolCall → Prop
  | _, [] => True
  | c, tc :: tcs => (tc.named = false → c = some tc.index) ∧ Follows (opened c tc) tcs

instance decidableFollows : ∀ c tcs, Decidable (Follows c tcs)
  | _, [] => .isTrue trivial
  | c, tc :: tcs => have := decidableFollows (opened c tc) tcs; inferInstanceAs (Decidable (_ ∧ _))

/-- The text of a delta would end a call. -/
def textCloses (delta : DeltaMessage) : Bool := delta.reasoning.isSome || delta.content.getD "" ≠ ""

/-- The open call behind a delta: what it opens comes after its text. -/
def after (c : Option (Option Int)) (delta : DeltaMessage) : Option (Option Int) :=
  if textCloses delta ∧ ¬ delta.toolCalls.any DeltaToolCall.named then
    none else delta.toolCalls.foldl opened c

/-- Deltas of which only the open call is continued without a name. -/
def Stream : Option (Option Int) → List DeltaMessage → Prop
  | _, [] => True
  | c, delta :: deltas => Follows c delta.toolCalls ∧ Stream (after c delta) deltas

instance decidableStream : ∀ c deltas, Decidable (Stream c deltas)
  | _, [] => .isTrue trivial
  | c, delta :: deltas =>
    have := decidableStream (after c delta) deltas; inferInstanceAs (Decidable (_ ∧ _))

/-- In each delta an index stands for one call: no two calls that it opens have the same, nor does
one have the index of the call that is open before it. -/
def OneCall : Option (Option Int) → List DeltaMessage → Prop
  | _, [] => True
  | c, delta :: deltas =>
    (c.toList ++ (delta.toolCalls.filter DeltaToolCall.named).map DeltaToolCall.index).Nodup ∧
      OneCall (after c delta) deltas

/-- A piece for which the processor would close the tool call `k`. -/
def Closes (k : Option Int) (p : DeltaMessage) : Prop := (resolveTargetState p).1 ≠ .none ∧
  needsTransition .toolCall k (resolveTargetState p).1 (resolveTargetState p).2 = true

instance decidableCloses (k : Option Int) (p : DeltaMessage) : Decidable (Closes k p) :=
    inferInstanceAs (Decidable (_ ∧ _))

/-- The open call, unless a piece closes it. -/
def closed (c : Option (Option Int)) (p : DeltaMessage) : Option (Option Int) :=
    c.filter fun k => ¬ Closes k p

/-- Pieces that reach the processor while the call they continue is open and not closed by a piece
before them. -/
def Tracked : Option (Option Int) → List DeltaMessage → Prop
  | _, [] => True
  | c, p :: ps =>
    Follows (closed c p) p.toolCalls ∧ Tracked (p.toolCalls.foldl opened (closed c p)) ps

instance decidableTracked : ∀ c ps, Decidable (Tracked c ps)
  | _, [] => .isTrue trivial
  | c, p :: ps =>
    have := decidableTracked (p.toolCalls.foldl opened (closed c p)) ps
    inferInstanceAs (Decidable (_ ∧ _))

section Streams

variable {c : Option (Option Int)} {delta p : DeltaMessage} {ps qs : List DeltaMessage}

/-- The open call behind a list of pieces. -/
def trackEnd (c : Option (Option Int)) (ps : List DeltaMessage) : Option (Option Int) :=
  ps.foldl (fun c p => p.toolCalls.foldl opened (closed c p)) c

theorem tracked_append {c' c'' : Option (Option Int)} (hps : Tracked c ps ∧ trackEnd c ps = c')
    (hqs : Tracked c' qs ∧ trackEnd c' qs = c'') : Tracked c (ps ++ qs) ∧
      trackEnd c (ps ++ qs) = c'' := by
  obtain ⟨hps, rfl⟩ := hps
  refine ⟨?_, (List.foldl_append ..).trans hqs.2⟩
  replace hqs := hqs.1
  induction ps generalizing c with
  | nil => exact hqs
  | cons p ps ih => exact ⟨hps.1, ih hps.2 hqs⟩

theorem resolve_toolPiece (tc : DeltaToolCall) (rest : List DeltaToolCall) :
    resolveTargetState (toolPiece (tc :: rest)) =
    if tc.function.isSome then (.toolCall, some tc) else (.none, none) := by
  rw [resolveTargetState, toolPiece, List.head?_cons, Option.filter_some]
  by_cases hf : tc.function.isSome <;> simp [hf]

/-- The fragments of a piece count for the open call as if the piece had not closed it. -/
theorem follows_toolPiece (hne : tcs ≠ []) (h : Follows c tcs) :
    Follows (closed c (toolPiece tcs)) tcs ∧
    tcs.foldl opened (closed c (toolPiece tcs)) = tcs.foldl opened c := by
  obtain ⟨tc, rest, rfl⟩ := List.exists_cons_of_ne_nil hne
  rcases hnamed : tc.named with _ | _
  · -- a piece that starts without a name continues the call, and the indices agree
    have hc := h.1 hnamed
    have hclosed : closed c (toolPiece (tc :: rest)) = c := by
      subst hc
      rw [closed, Option.filter_some, if_pos]
      rw [decide_eq_true_eq]
      rintro ⟨htarget, hneeds⟩
      rw [resolve_toolPiece] at htarget hneeds
      split_ifs at htarget hneeds with hf
      · cases hi : tc.index <;> simp [needsTransition, hi] at hneeds
      · exact htarget rfl
    rw [hclosed]
    exact ⟨h, rfl⟩
  · have hopened : ∀ c', opened c' tc = some tc.index := fun c' => by rw [opened, if_pos hnamed]
    refine ⟨⟨fun hno => absurd (hnamed.symm.trans hno) (by decide), ?_⟩, ?_⟩
    · rw [hopened, ← hopened c]
      exact h.2
    · rw [List.foldl_cons, List.foldl_cons, hopened, hopened]

theorem closed_text (htools : p.toolCalls = []) : closed c p = if textCloses p then
    none else c := by
  have hcloses : ∀ k, Closes k p ↔ textCloses p = true := by
    intro k
    rw [Closes, resolveTargetState, htools, List.head?_nil, Option.filter_none]
    cases hr : p.reasoning.isSome <;> by_cases hc : p.content.getD "" =
      "" <;> simp [textCloses, hr, hc, needsTransition]
  cases c with
  | none => simp [closed]
  | some k => by_cases h : textCloses p <;> simp [closed, hcloses, h, Option.filter_some]

/-- The fragments of one call from its name on. -/
def Block (k : Option Int) (b : List DeltaToolCall) : Prop :=
  ∃ tc rest, b = tc :: rest ∧ (tc.named = true ∧ tc.index = k) ∧ ∀ u ∈ rest,
    u.named = false ∧ u.index = k

/-- The fragments of a delta are a tail of the open call, then one block for each call that it
opens. -/
theorem follows_blocks (h : Follows c tcs) : ∃ (tail : List DeltaToolCall)
    (blocks : List (Option Int × List DeltaToolCall)),
    tcs = tail ++ blocks.flatMap Prod.snd ∧ (∀ u ∈ tail, u.named = false ∧ c = some u.index) ∧
      (∀ kb ∈ blocks, Block kb.1 kb.2) ∧ (tcs.filter DeltaToolCall.named).map DeltaToolCall.index =
      blocks.map Prod.fst := by
  induction tcs generalizing c with
  | nil => exact ⟨[], [], rfl, by simp, by simp, rfl⟩
  | cons tc tcs ih =>
    obtain ⟨tail, blocks, heq, htail, hblocks, hnames⟩ := ih h.2
    rcases hnamed : tc.named with _ | _
    · refine ⟨tc :: tail, blocks, by rw [heq]; rfl, ?_, hblocks, by simpa [hnamed] using hnames⟩
      have hc : opened c tc = c := if_neg (by simp [hnamed])
      rw [hc] at htail
      exact List.forall_mem_cons.mpr ⟨⟨hnamed, h.1 hnamed⟩, htail⟩
    · have hc : opened c tc = some tc.index := if_pos hnamed
      rw [hc] at htail
      refine ⟨[], (tc.index, tc :: tail) :: blocks, by simp [heq], by simp, ?_, by
        simp [hnamed, hnames]⟩
      exact List.forall_mem_cons.mpr ⟨⟨tc, tail, rfl, ⟨hnamed, rfl⟩, fun u hu =>
        ⟨(htail u hu).1, (Option.some.inj (htail u hu).2).symm⟩⟩, hblocks⟩

theorem Block.index {b : List DeltaToolCall} (h : Block k b) {u : DeltaToolCall} (hu : u ∈ b) :
    u.index = k := by
  obtain ⟨tc, rest, rfl, ⟨-, htc⟩, hrest⟩ := h
  rcases List.mem_cons.mp hu with rfl | hu
  · exact htc
  · exact (hrest u hu).2

theorem Block.ne_nil {b : List DeltaToolCall} (h : Block k b) : b ≠ [] := by
  obtain ⟨tc, rest, rfl, -⟩ := h
  exact List.cons_ne_nil _ _

/-- From the name on a call is open. -/
theorem Block.follows {b : List DeltaToolCall} (h : Block k b) (c : Option (Option Int)) :
    Follows c b ∧ b.foldl opened c = some k := by
  obtain ⟨tc, rest, rfl, ⟨hnamed, rfl⟩, hrest⟩ := h
  have hopened : opened c tc = some tc.index := if_pos hnamed
  have hrun : Follows (some tc.index) rest ∧ rest.foldl opened (some tc.index) = some tc.index := by
    clear hopened
    generalize tc.index = k at hrest
    induction rest with
    | nil => exact ⟨trivial, rfl⟩
    | cons u rest ih =>
      obtain ⟨⟨hu, hk⟩, hrest⟩ := List.forall_mem_cons.mp hrest
      have hopened : opened (some k) u = some k := if_neg (by simp [hu])
      rw [Follows, List.foldl_cons, hopened]
      exact ⟨⟨fun _ => by rw [hk], (ih hrest).1⟩, (ih hrest).2⟩
  rw [Follows, List.foldl_cons, hopened]
  exact ⟨⟨fun hno => absurd (hnamed.symm.trans hno) (by decide), hrun.1⟩, hrun.2⟩

theorem indices_append {b : List DeltaToolCall} (hb : b ≠ []) (hk : ∀ u ∈ b, u.index = k)
    (hnew : k ∉ indices pre) :
    indices (pre ++ b) = indices pre ++ [k] := by
  induction b using List.reverseRecOn with
  | nil => exact absurd rfl hb
  | append_singleton b u ih =>
    have hu : u.index = k := hk u (by simp)
    rw [← List.append_assoc, indices_snoc, hu]
    by_cases hnil : b = []
    · rw [hnil, List.append_nil, if_neg hnew]
    · rw [ih hnil fun v hv => hk v (by simp [hv]), if_pos (by simp)]

/-- The groups of a tail and of blocks of different calls are the tail and the blocks. -/
theorem groups_blocks {tail : List DeltaToolCall} {blocks : List (Option Int × List DeltaToolCall)}
    (hblocks : ∀ kb ∈ blocks, Block kb.1 kb.2) (hnd : (indices tail ++ blocks.map Prod.fst).Nodup) :
    indices (tail ++ blocks.flatMap Prod.snd) = indices tail ++ blocks.map Prod.fst ∧
      (∀ k ∈ indices tail, ofIndex k (tail ++ blocks.flatMap Prod.snd) = ofIndex k tail) ∧
        ∀ kb ∈ blocks, ofIndex kb.1 (tail ++ blocks.flatMap Prod.snd) = kb.2 := by
  induction blocks using List.reverseRecOn with
  | nil => simp
  | append_singleton blocks kb ih =>
    have hkb : Block kb.1 kb.2 := hblocks kb (by simp)
    rw [List.map_append, ← List.append_assoc] at hnd
    obtain ⟨hnd, -, hnew⟩ := List.nodup_append.mp hnd
    obtain ⟨hindices, htail, hgroups⟩ := ih (fun kb' h => hblocks kb' (by simp [h])) hnd
    have hnew' : kb.1 ∉ indices (tail ++ blocks.flatMap Prod.snd) := fun hmem =>
      hnew kb.1 (hindices ▸ hmem) kb.1 (by simp) rfl
    have hlast : ∀ k ∈ indices (tail ++ blocks.flatMap Prod.snd), ofIndex k kb.2 = [] := by
      intro k hk
      rw [ofIndex, List.filter_eq_nil_iff]
      intro u hu
      rw [decide_eq_true_eq, hkb.index hu]
      exact fun heq => hnew' (heq ▸ hk)
    rw [List.flatMap_append, List.flatMap_singleton, ← List.append_assoc]
    refine ⟨?_, fun k hk => ?_, fun kb' hmem => ?_⟩
    · rw [indices_append hkb.ne_nil (fun _ => hkb.index) hnew', hindices, List.map_append,
        List.append_assoc]
      rfl
    · rw [ofIndex_append, htail k hk, hlast k (by rw [hindices]; exact List.mem_append_left _ hk),
        List.append_nil]
    · rw [ofIndex_append]
      rcases List.mem_append.mp hmem with hmem | hmem
      · have hin : kb'.1 ∈ indices (tail ++ blocks.flatMap Prod.snd) := by
          rw [hindices]
          exact List.mem_append_right _ (List.mem_map.mpr ⟨kb', hmem, rfl⟩)
        rw [hgroups kb' hmem, hlast _ hin, List.append_nil]
      · rw [List.mem_singleton.mp hmem, ofIndex_of_notMem hnew', List.nil_append]
        exact ofIndex_self fun _ => hkb.index

theorem tracked_toolPiece (hne : tcs ≠ []) (h : Follows c tcs) :
    Tracked c [toolPiece tcs] ∧ trackEnd c [toolPiece tcs] = tcs.foldl opened c :=
  ⟨⟨(follows_toolPiece hne h).1, trivial⟩, (follows_toolPiece hne h).2⟩

theorem tracked_blocks {blocks : List (Option Int × List DeltaToolCall)}
    (h : ∀ kb ∈ blocks, Block kb.1 kb.2)
    (c : Option (Option Int)) : Tracked c (blocks.map fun kb => toolPiece kb.2) ∧
      trackEnd c (blocks.map fun kb => toolPiece kb.2) =
        (blocks.flatMap Prod.snd).foldl opened c := by
  induction blocks generalizing c with
  | nil => exact ⟨trivial, rfl⟩
  | cons kb blocks ih =>
    obtain ⟨hkb, h⟩ := List.forall_mem_cons.mp h
    rw [List.flatMap_cons, List.foldl_append]
    exact tracked_append (tracked_toolPiece hkb.ne_nil (hkb.follows c).1) (ih h _)

/-- Text carries no fragment and closes the open call or leaves it. -/
theorem tracked_textPieces : Tracked c (reasoningPieces delta ++ contentPieces delta) ∧
    trackEnd c (reasoningPieces delta ++ contentPieces delta) = if textCloses delta then
    none else c := by
  have hclosed : ∀ (c : Option (Option Int)) (r t : Option String), closed c ⟨r, t, []⟩ =
      if textCloses ⟨r, t, []⟩ then none else c := fun c r t => closed_text rfl
  unfold reasoningPieces contentPieces
  cases hr : delta.reasoning <;> cases hc : delta.content <;>
    simp [Tracked, trackEnd, Follows, hclosed, textCloses, hr, hc]

/-- Fragments of the open call that have no name leave it open. -/
theorem follows_tail (h : ∀ u ∈ tcs, u.named = false ∧ c = some u.index) : Follows c tcs ∧
    tcs.foldl opened c = c := by
  induction tcs with
  | nil => exact ⟨trivial, rfl⟩
  | cons u tcs ih =>
    obtain ⟨⟨hu, hc⟩, h⟩ := List.forall_mem_cons.mp h
    have hopened : opened c u = c := if_neg (by simp [hu])
    rw [Follows, List.foldl_cons, hopened]
    exact ⟨⟨fun _ => hc, (ih h).1⟩, (ih h).2⟩

theorem indices_of_all {k : Option Int} (hne : tcs ≠ []) (h : ∀ u ∈ tcs, u.index = k) :
    indices tcs = [k] :=
  @indices_append [] _ _ hne h List.not_mem_nil

/-- **One delta**: its pieces reach the processor in time, and leave the call open that the delta
does. -/
theorem tracked_splitDelta (hfollows : Follows c delta.toolCalls)
    (hnd : (c.toList ++ (delta.toolCalls.filter DeltaToolCall.named).map
      DeltaToolCall.index).Nodup) :
    Tracked c (splitDelta delta) ∧ trackEnd c (splitDelta delta) = after c delta := by
  by_cases h : Single delta
  · -- the delta is its only piece
    have heq : splitDelta delta = [delta] := if_pos h
    rw [heq]
    by_cases htools : delta.toolCalls = []
    · refine ⟨⟨by rw [htools]; trivial, trivial⟩, ?_⟩
      rw [trackEnd, List.foldl_cons, List.foldl_nil, htools, List.foldl_nil, closed_text htools,
        after, htools]
      simp
    · have hdelta : delta = toolPiece delta.toolCalls := by
        have hkinds := h.1
        have hone : (!delta.toolCalls.isEmpty).toNat = 1 := by simpa using htools
        obtain ⟨reasoning, content, toolCalls⟩ := delta
        cases reasoning <;> cases content <;> simp [hone] at hkinds
        rfl
      obtain ⟨htracked, hend⟩ := tracked_toolPiece htools hfollows
      rw [← hdelta] at htracked hend
      refine ⟨htracked, hend.trans ?_⟩
      rw [after, if_neg]
      rw [hdelta]
      rintro ⟨htext, -⟩
      cases htext
  · obtain ⟨tail, blocks, htcs, htail, hblocks, hnames⟩ := follows_blocks hfollows
    rw [hnames] at hnd
    -- the tail has the index of the open call
    have hindices : ∀ k ∈ indices tail, c = some k := by
      intro k hk
      obtain ⟨u, hu, rfl⟩ := mem_indices.mp hk
      exact (htail u hu).2
    have hnd' : (indices tail ++ blocks.map Prod.fst).Nodup := by
      obtain ⟨-, hfst, hne⟩ := List.nodup_append.mp hnd
      exact List.nodup_append.mpr ⟨nodup_indices _, hfst, fun k hk =>
        hne k (by rw [hindices k hk]; simp)⟩
    obtain ⟨hall, htailgroups, hgroups⟩ := groups_blocks hblocks hnd'
    rw [← htcs] at hall htailgroups hgroups
    have hnoname : ∀ k ∈ indices tail, Opens delta k = false := by
      intro k hk
      rw [Opens, htailgroups k hk, List.any_eq_false]
      intro u hu
      rw [(htail u (List.mem_of_mem_filter hu)).1]
      decide
    have hname : ∀ k ∈ blocks.map Prod.fst, Opens delta k = true := by
      intro k hk
      obtain ⟨kb, hkb, rfl⟩ := List.mem_map.mp hk
      obtain ⟨tc, rest, hb, ⟨hnamed, -⟩, -⟩ := hblocks kb hkb
      rw [Opens, hgroups kb hkb, hb, List.any_cons, hnamed, Bool.true_or]
    have hcont : continuations delta = indices tail := by
      rw [continuations, hall, List.filter_append, List.filter_eq_self.mpr fun k hk => by
        rw [hnoname k hk]; rfl,
        List.filter_eq_nil_iff.mpr fun k hk => by rw [hname k hk]; decide, List.append_nil]
    have hnew : newCalls delta = blocks.map Prod.fst := by
      rw [newCalls, hall, List.filter_append, List.filter_eq_nil_iff.mpr fun k hk => by
        rw [hnoname k hk]; decide, List.filter_eq_self.mpr hname, List.nil_append]
    have hnewpieces : (newCalls delta).map (piece delta) = blocks.map fun kb => toolPiece kb.2 := by
      rw [hnew, List.map_map]
      exact List.map_congr_left fun kb hkb => congrArg toolPiece (hgroups kb hkb)
    have hcontpieces : Tracked c ((continuations delta).map (piece delta)) ∧
        trackEnd c ((continuations delta).map (piece delta)) = c := by
      rw [hcont]
      by_cases hnil : tail = []
      · rw [hnil]
        exact ⟨trivial, rfl⟩
      · obtain ⟨u, hu⟩ := List.exists_mem_of_ne_nil _ hnil
        have hself : ∀ v ∈ tail, v.index = u.index := fun v hv =>
          Option.some.inj ((htail v hv).2.symm.trans (htail u hu).2)
        rw [indices_of_all hnil hself, List.map_singleton, piece,
          htailgroups _ (mem_indices.mpr ⟨u, hu, rfl⟩), ofIndex_self hself]
        obtain ⟨htracked, hend⟩ := tracked_toolPiece hnil (follows_tail htail).1
        exact ⟨htracked, hend.trans (follows_tail htail).2⟩
    rw [splitDelta_eq h, hnewpieces]
    refine tracked_append (tracked_append hcontpieces tracked_textPieces)
      ⟨(tracked_blocks hblocks _).1, (tracked_blocks hblocks _).2.trans ?_⟩
    -- what the delta opens last is open, else what its text leaves
    rw [after, htcs, List.foldl_append, (follows_tail htail).2]
    cases blocks with
    | nil =>
      have hnone : tail.any DeltaToolCall.named = false := by
        rw [List.any_eq_false]
        intro u hu
        rw [(htail u hu).1]
        decide
      simp [hnone]
    | cons kb blocks =>
      have hkb := hblocks kb (List.mem_cons_self ..)
      have hany : (tail ++ (kb :: blocks).flatMap Prod.snd).any DeltaToolCall.named = true := by
        obtain ⟨tc, rest, hb, ⟨hnamed, -⟩, -⟩ := hkb
        simp [hb, hnamed]
      have hlast : ∀ c, ((kb :: blocks).flatMap Prod.snd).foldl opened c =
        (blocks.flatMap Prod.snd).foldl opened (some kb.1) := by
        intro c
        rw [List.flatMap_cons, List.foldl_append, (hkb.follows c).2]
      rw [hany, hlast, hlast]
      simp

/-- **No fragment comes too late.** The pieces of a stream, one delta after the other, continue only
a call that no piece before them has closed. -/
theorem tracked_pieces {deltas : List DeltaMessage} (h : Stream c deltas)
    (hone : OneCall c deltas) :
    Tracked c (deltas.flatMap splitDelta) := by
  induction deltas generalizing c with
  | nil => trivial
  | cons delta deltas ih =>
    exact (tracked_append (tracked_splitDelta h.1 hone.1) ⟨ih h.2 hone.2, rfl⟩).1

end Streams

/-- **Splitting deltas.** The pieces of a delta hold everything once, an index in one piece, the
classes and groups in order; and the pieces of a stream continue only calls that are still open. -/
theorem split_in_time : (∀ delta, Split delta (splitDelta delta)) ∧
    ∀ deltas, Stream none deltas → OneCall none deltas → Tracked none (deltas.flatMap splitDelta) :=
  ⟨splitDelta_spec, fun _ => tracked_pieces⟩

/-- A call is open under no index; then its tail, some text and a new call under no index come in
one delta. -/
def lateTail : List DeltaMessage :=
  [⟨none, none, [⟨none, some "call_1", some "function", some ⟨some "inspect", some "[1"⟩⟩]⟩,
    ⟨none, some "Done.", [⟨none, none, none, some ⟨none, some "]"⟩⟩,
      ⟨none, some "call_2", some "function", some ⟨some "inspect", some "[]"⟩⟩]⟩]

/-- The text closes the call before its tail: the tail went with the group of the new call. -/
theorem tail_after_text : ¬ ∀ deltas, Stream none deltas →
    Tracked none (deltas.flatMap splitDelta) := fun h =>
  absurd (h lateTail (by decide)) (by decide)

end Ringside.SplitDelta

import Ringside.MixedSplit.Marker

/-!
# The token spans of a mixed step (`models-glm5next-nvidia-kda.py.patch`)

A mixed step verifies the drafts of some requests and prefills others. The metadata builder splits
its tokens with a stable argsort of their mask, and the layer gathers both groups. When each group
is one range of tokens, `_glm_contiguous_mixed_spans` gives the layer two slices instead.

* A row of the batch may have no tokens: the padding at its end, or a request that is skipped.
* The builder is not in this tree; its index sets are those its caller's comments state
  (`tokenMask`, `argsort`). Its row mask is `Row.spec`.
* `contiguousMixedSpans` has the loop over the rows with its early returns; it is `none` where the
  source returns none.
* A tensor is its token axis, a list of whatever a token has.

Results:
* `mergeSort_eq_groups`: a stable sort of a mask lists one group and then the other, each in the
  order of the tokens.
* `runs_of_one_change`: a list that changes once is one run and another.
* `tokenMask_of_spans`: with spans, the mask of the tokens is one run and another.
* `contiguous_spans_exact`: the slices are the gathered groups; where a group's tokens are not
  consecutive there are no spans.
-/

namespace Ringside.MixedSplit

/-- A row of the batch: a request, and the number of its drafts, negative for none. -/
structure Row extends Request where
  drafts : Int

/-- `query_start_loc_cpu` of a batch. -/
def rowStarts (batch : List Row) : List Int := queryStarts (batch.map Row.toRequest)

/-- The elements at the places of a mask. -/
def select {α : Type*} (xs : List α) (mask : List Bool) : List α :=
    ((xs.zip mask).filter (·.2)).map (·.1)

/-- `_glm_contiguous_mixed_spans`. -/
def contiguousMixedSpans (starts : List Int) (prefilling : List Bool) (drafts : List Int)
    (numActualTokens numSpecDecodeTokens : Int) (recoverssm : Bool) : Option (Int × Int) :=
  let queryLens := List.zipWith (· - ·) starts.tail starts
  let active := queryLens.map fun n => decide (0 < n)
  let specMask := drafts.map fun n => decide (0 ≤ n)
  let specMask :=
    if recoverssm then List.zipWith or specMask (List.zipWith and (prefilling.map not) active)
      else specMask
  let activeSpec := select specMask active
  if activeSpec.length < 2 ∨ (List.zipWith bne activeSpec.tail activeSpec).count true ≠ 1 then none
  else
    let numQueryTokens := starts.getLast?.getD 0
    let numSpecTokens := (select queryLens specMask).sum
    if numQueryTokens ≠ numActualTokens ∨ numSpecTokens ≠ numSpecDecodeTokens then none
    else if activeSpec.head?.getD false then some (0, numSpecTokens)
    else some (numQueryTokens - numSpecTokens, 0)

/-- The speculative rows: those with drafts, under RecoverSSM every row with tokens that is not
prefilling. -/
def Row.spec (recoverssm : Bool) (r : Row) : Bool :=
  decide (0 ≤ r.drafts) || (recoverssm && (!r.prefilling && decide (0 < r.queryLen)))

/-- `repeat_interleave` of the row mask: the mask of the tokens. -/
def tokenMask (recoverssm : Bool) (batch : List Row) : List Bool :=
  rowPhases (batch.map fun r => ⟨r.spec recoverssm, r.queryLen⟩)

/-- The stable `argsort` of a mask. -/
def argsort (mask : List Bool) : List Nat :=
  (List.range mask.length).mergeSort fun i j => decide (mask.getD i false ≤ mask.getD j false)

/-- `non_spec_token_indx`. -/
def nonSpecTokenIndx (mask : List Bool) : List Nat := (argsort mask).take (mask.count false)

/-- `spec_token_indx`. -/
def specTokenIndx (mask : List Bool) : List Nat := (argsort mask).drop (mask.count false)

/-- `index_select`; `none` where an index is out of range. -/
def indexSelect {α : Type*} (xs : List α) (idx : List Nat) : Option (List α) :=
    idx.mapM fun i => xs[i]?

/-- `xs[start : start + n]`, of a start that is not negative. -/
def slice {α : Type*} (xs : List α) (start : Int) (n : Nat) : List α := (xs.drop start.toNat).take n

/-- Consecutive tokens. -/
def OneRange (idx : List Nat) : Prop := ∃ a, idx = List.range' a idx.length

/-! ## The index sets -/

section Argsort

variable {α : Type*} (key : α → Bool)

/-- A list sorted by a Boolean key is its one group and then its other. -/
theorem sorted_eq_groups {l : List α} (h : l.Pairwise fun a b => key a ≤ key b) :
    l = (l.filter fun a => key a == false) ++ l.filter fun a => key a == true := by
  induction l with
  | nil => rfl
  | cons a l ih =>
    obtain ⟨ha, hl⟩ := List.pairwise_cons.mp h
    cases hk : key a with
    | false => simpa [List.filter_cons, hk] using ih hl
    | true =>
      have hall : ∀ b ∈ l, key b = true := fun b hb => ha b hb hk
      rw [List.filter_eq_nil_iff.mpr, List.filter_eq_self.mpr]
      · rfl
      · exact List.forall_mem_cons.mpr ⟨by simp [hk], fun b hb => by simp [hall b hb]⟩
      · exact List.forall_mem_cons.mpr ⟨by simp [hk], fun b hb => by simp [hall b hb]⟩

/-- **A stable sort by a Boolean key lists the one group and then the other**, each in its order. -/
theorem mergeSort_eq_groups (l : List α) :
    (l.mergeSort fun a b => decide (key a ≤ key b)) =
      (l.filter fun a => key a == false) ++ l.filter fun a => key a == true := by
  have htrans : ∀ a b c : α, decide (key a ≤ key b) = true → decide (key b ≤ key c) = true →
      decide (key a ≤ key c) = true := by
    simp only [decide_eq_true_eq]
    exact fun _ _ _ => le_trans
  have htotal : ∀ a b : α, (decide (key a ≤ key b) || decide (key b ≤ key a)) = true := by
    simp only [Bool.or_eq_true, decide_eq_true_eq]
    exact fun a b => le_total _ _
  have hperm := List.mergeSort_perm l fun a b => decide (key a ≤ key b)
  have hgroup : ∀ v, (l.filter fun a => key a == v) =
      (l.mergeSort fun a b => decide (key a ≤ key b)).filter fun a => key a == v := by
    intro v
    -- a group is sorted already, so it stays a sublist; and it has all the elements with its key
    have hsorted : (l.filter fun a => key a == v).Pairwise fun a b =>
      decide (key a ≤ key b) = true := by
      refine List.pairwise_of_forall_mem_list fun a ha b hb => ?_
      rw [List.mem_filter, beq_iff_eq] at ha hb
      rw [ha.2, hb.2]
      exact decide_eq_true le_rfl
    have hstable := (List.sublist_mergeSort htrans htotal hsorted List.filter_sublist).filter
      fun a => key a == v
    rw [List.filter_filter, List.filter_congr (q := fun a => key a == v) fun a _ =>
      Bool.and_self _] at hstable
    exact hstable.eq_of_length (hperm.filter _).length_eq.symm
  rw [hgroup, hgroup]
  refine sorted_eq_groups key ?_
  simpa using List.pairwise_mergeSort htrans htotal l

end Argsort

/-- The tokens of one group, in their order. -/
def tokensOf (mask : List Bool) (v : Bool) : List Nat :=
  (List.range mask.length).filter fun i => mask.getD i false == v

/-- The tokens of a mask that is one run and another. -/
theorem tokensOf_runs (v : Bool) (m n : Nat) :
    tokensOf (List.replicate m v ++ List.replicate n (!v)) v = List.range' 0 m ∧
      tokensOf (List.replicate m v ++ List.replicate n (!v)) (!v) = List.range' m n := by
  have hrange : List.range (List.replicate m v ++ List.replicate n (!v)).length = List.range' 0 m ++
    List.range' m n := by
    rw [List.length_append, List.length_replicate, List.length_replicate, List.range_eq_range',
      ← List.range'_append_1, Nat.zero_add]
  have hleft :
      ∀ i ∈ List.range' 0 m, (List.replicate m v ++ List.replicate n (!v)).getD i false = v := by
    intro i hi
    have hlt : i < m := by simpa using hi
    rw [List.getD, List.getElem?_append_left (by simpa using hlt), List.getElem?_replicate,
      if_pos hlt, Option.getD_some]
  have hright :
      ∀ i ∈ List.range' m n, (List.replicate m v ++ List.replicate n (!v)).getD i false = !v := by
    intro i hi
    obtain ⟨hle, hlt⟩ := List.mem_range'_1.mp hi
    rw [List.getD, List.getElem?_append_right (by simpa using hle), List.getElem?_replicate,
      List.length_replicate, if_pos (by omega), Option.getD_some]
  unfold tokensOf
  rw [hrange, List.filter_append, List.filter_append, List.filter_eq_self.mpr fun i hi => by
    rw [hleft i hi, beq_self_eq_true],
    List.filter_eq_nil_iff.mpr fun i hi => by rw [hright i hi]; simp,
    List.filter_eq_nil_iff.mpr fun i hi => by rw [hleft i hi]; simp,
    List.filter_eq_self.mpr fun i hi => by rw [hright i hi, beq_self_eq_true]]
  exact ⟨List.append_nil _, rfl⟩

/-- Both index sets of a mask that is one run and another are ranges. -/
theorem indx_runs {mask : List Bool} {v : Bool} {m n : Nat}
    (h : mask = List.replicate m v ++ List.replicate n (!v)) :
    specTokenIndx mask = (if v then List.range' 0 m else List.range' m n) ∧
      nonSpecTokenIndx mask = if v then List.range' m n else List.range' 0 m := by
  have hsort : argsort mask = tokensOf mask false ++ tokensOf mask true := mergeSort_eq_groups _ _
  have hruns := tokensOf_runs v m n
  rw [← h] at hruns
  have hcount : mask.count false = (tokensOf mask false).length := by
    cases v with
    | false => rw [hruns.1, h]; simp [List.count_replicate]
    | true => rw [show tokensOf mask false = _ from hruns.2, h]; simp [List.count_replicate]
  rw [specTokenIndx, nonSpecTokenIndx, hsort, hcount, List.drop_left, List.take_left]
  cases v
  · exact ⟨hruns.2, hruns.1⟩
  · exact hruns

/-! ## What the spans say of the batch -/

section Batch

variable {recoverssm : Bool} {batch : List Row}

theorem select_map {α β : Type*} (f : α → β) (p : α → Bool) (xs : List α) :
    select (xs.map f) (xs.map p) = (xs.filter p).map f := by
  induction xs with
  | nil => rfl
  | cons x xs ih =>
    unfold select at ih ⊢
    cases h : p x <;> simp [h, ih]

/-- The differences of the starts are the query lengths. -/
theorem diff_rowStarts (batch : List Row) :
    List.zipWith (· - ·) (rowStarts batch).tail (rowStarts batch) = batch.map fun r =>
    (r.queryLen : Int) := by
  have hgen : ∀ (batch : List Request) (s : Int), List.zipWith (· - ·)
      (batch.scanl (fun s r => s + (r.queryLen : Int)) s).tail
        (batch.scanl (fun s r => s + (r.queryLen : Int)) s) =
      batch.map fun r => (r.queryLen : Int) := by
    intro batch
    induction batch with
    | nil => intro s; rfl
    | cons r rest ih =>
      intro s
      cases rest with
      | nil => simp
      | cons r' rest =>
        have h := ih (s + r.queryLen)
        simp only [List.scanl_cons, List.tail_cons, List.zipWith_cons_cons, List.map_cons] at h ⊢
        rw [← h, add_sub_cancel_left]
  rw [rowStarts, queryStarts, hgen, List.map_map]
  rfl

theorem getLast_rowStarts (batch : List Row) :
    (rowStarts batch).getLast?.getD 0 = tokens (batch.map Row.toRequest) := by
  have hlen : (rowStarts batch).length = (batch.map Row.toRequest).length + 1 :=
    List.length_scanl ..
  rw [List.getLast?_eq_getElem?, hlen, Nat.add_sub_cancel, ← List.getD]
  rw [rowStarts, getD_queryStarts le_rfl, List.take_length]

theorem length_tokenMask : (tokenMask recoverssm batch).length =
    tokens (batch.map Row.toRequest) := by
  rw [tokenMask, length_rowPhases, tokens, tokens, List.map_map, List.map_map]
  rfl

/-- The tokens of the speculative rows. -/
theorem count_tokenMask : ((tokenMask recoverssm batch).count true : Int) =
    ((batch.filter (·.spec recoverssm)).map fun r => (r.queryLen : Int)).sum := by
  induction batch with
  | nil => rfl
  | cons r rest ih =>
    have hcons : tokenMask recoverssm (r :: rest) =
        List.replicate r.queryLen (r.spec recoverssm) ++ tokenMask recoverssm rest := rfl
    rw [hcons, List.count_append, Nat.cast_add, ih]
    cases h : r.spec recoverssm <;> simp [h, List.count_replicate]

/-- Rows without tokens do not show in the mask. -/
theorem tokenMask_active : tokenMask recoverssm batch = tokenMask recoverssm
    (batch.filter (0 < ·.queryLen)) := by
  induction batch with
  | nil => rfl
  | cons r rest ih =>
    have hcons : ∀ l, tokenMask recoverssm (r :: l) =
        List.replicate r.queryLen (r.spec recoverssm) ++ tokenMask recoverssm l := fun _ => rfl
    rcases Nat.eq_zero_or_pos r.queryLen with h | h
    · simp [hcons, h, ← ih]
    · simp [hcons, h, ih]

/-- Rows of one kind. -/
theorem tokenMask_kind {v : Bool} (h : ∀ r ∈ batch, r.spec recoverssm = v) :
    tokenMask recoverssm batch = List.replicate (tokenMask recoverssm batch).length v := by
  refine List.eq_replicate_iff.mpr ⟨rfl, fun x hx => ?_⟩
  obtain ⟨q, hq, hx⟩ := List.mem_flatMap.mp hx
  obtain ⟨r, hr, rfl⟩ := List.mem_map.mp hq
  rw [(List.mem_replicate.mp hx).2]
  exact h r hr

/-- **A list that changes once is one run and another.** -/
theorem runs_of_one_change {l : List Bool} (h : (List.zipWith bne l.tail l).count true = 1) :
    ∃ v m n, l = List.replicate (m + 1) v ++ List.replicate (n + 1) (!v) := by
  have hnone : ∀ (l : List Bool) (v : Bool), (List.zipWith bne l (v :: l)).count true = 0 →
      l = List.replicate l.length v := by
    intro l
    induction l with
    | nil => intro v _; rfl
    | cons a l ih =>
      intro v h
      rw [List.zipWith_cons_cons, List.count_cons] at h
      obtain rfl : a = v := by
        by_contra hne
        rw [if_pos (by simpa using hne)] at h
        omega
      rw [List.length_cons, List.replicate_succ, ← ih a (by omega)]
  induction l with
  | nil => cases h
  | cons v l ih =>
    cases l with
    | nil => cases h
    | cons a l =>
      rw [List.tail_cons, List.zipWith_cons_cons, List.count_cons] at h
      by_cases hav : a = v
      · -- no change yet
        subst hav
        obtain ⟨v, m, n, hl⟩ := ih (by simpa using h)
        obtain ⟨rfl, -⟩ := List.cons.inj hl
        exact ⟨a, m + 1, n, congrArg (a :: ·) hl⟩
      · -- the change: none after it
        rw [if_pos (by simpa using hav)] at h
        have ha : a = !v := by cases a <;> cases v <;> simp_all
        refine ⟨v, 0, l.length, ?_⟩
        rw [hnone l a (by omega), ha]
        simp [List.replicate_succ]

/-- **With spans, the mask of the tokens is one run and another**, of as many tokens as the metadata
counts. -/
theorem tokenMask_of_spans {numActualTokens numSpecDecodeTokens s ns : Int}
    (h : contiguousMixedSpans (rowStarts batch) (batch.map fun r => r.prefilling)
      (batch.map Row.drafts) numActualTokens
      numSpecDecodeTokens recoverssm = some (s, ns)) :
    ∃ v m n, tokenMask recoverssm batch = List.replicate m v ++ List.replicate n (!v) ∧
      numSpecDecodeTokens = (tokenMask recoverssm batch).count true ∧
      (s, ns) = if v then ((0 : Int), (m : Int)) else ((m : Int), 0) := by
  -- the code's masks are maps over the batch
  have hactive : (batch.map fun r => (r.queryLen : Int)).map (fun n => decide (0 < n)) =
      batch.map fun r => decide (0 < r.queryLen) := by simp
  have hspec : (if recoverssm then
    List.zipWith or ((batch.map Row.drafts).map fun n => decide (0 ≤ n))
      (List.zipWith and ((batch.map fun r => r.prefilling).map not) (batch.map fun r =>
        decide (0 < r.queryLen)))
      else (batch.map Row.drafts).map fun n => decide (0 ≤ n)) = batch.map
        (Row.spec recoverssm) := by
    cases recoverssm <;> simp [Row.spec, List.zipWith_map, List.zipWith_self, Function.comp_def]
  unfold contiguousMixedSpans at h
  simp only [diff_rowStarts, hactive, hspec, select_map, getLast_rowStarts, ← count_tokenMask] at h
  split_ifs at h with hone hcount hhead
  all_goals
    rw [not_or, not_lt, not_not] at hone
    rw [not_or, not_not, not_not] at hcount
    -- the active rows are of one kind and then of the other
    obtain ⟨v, a, b, hruns⟩ := runs_of_one_change hone.2
    obtain ⟨A, B, hsplit, hA, hB⟩ := List.map_eq_append_iff.mp hruns
    have hkind : ∀ {rows : List Row} {k : Nat} {v : Bool}, rows.map (Row.spec recoverssm) =
      List.replicate k v → ∀ r ∈ rows, r.spec recoverssm = v :=
      fun hrows r hr => List.eq_of_mem_replicate (hrows ▸ List.mem_map_of_mem hr)
    have hmask : tokenMask recoverssm batch =
        List.replicate (tokenMask recoverssm A).length v ++
        List.replicate (tokenMask recoverssm B).length (!v) := by
      rw [tokenMask_active, hsplit, ← tokenMask_kind (hkind hA), ← tokenMask_kind (hkind hB)]
      simp only [tokenMask, List.map_append, rowPhases_append]
    have hhead' : v = ((batch.filter fun r => decide (0 < r.queryLen)).map
      (Row.spec recoverssm)).head?.getD false := by
      rw [hruns]
      rfl
    have htokens : tokens (batch.map Row.toRequest) =
        (tokenMask recoverssm A).length + (tokenMask recoverssm B).length := by
      rw [← @length_tokenMask recoverssm, hmask]
      simp
    refine ⟨v, _, _, hmask, hcount.2.symm, ?_⟩
    have hspecs : (tokenMask recoverssm batch).count true =
        if v then (tokenMask recoverssm A).length else (tokenMask recoverssm B).length := by
      rw [hmask]
      cases v <;> simp [List.count_replicate]
    rw [← Option.some_inj.mp h, hspecs]
  · rw [hhead'.trans hhead]
    rfl
  · rw [htokens, hhead'.trans (Bool.eq_false_iff.mpr hhead)]
    simp

/-- Gathering consecutive tokens takes a slice. -/
theorem indexSelect_range' {α : Type*} {xs : List α} {a n : Nat} (h : a + n ≤ xs.length) :
    indexSelect xs (List.range' a n) = some ((xs.drop a).take n) := by
  induction n generalizing a with
  | zero => simp [indexSelect]
  | succ n ih =>
    have ha : a < xs.length := by omega
    have hrest := ih (a := a + 1) (by omega)
    unfold indexSelect at hrest ⊢
    rw [List.range'_succ, List.mapM_cons, hrest, List.getElem?_eq_getElem ha,
      List.drop_eq_getElem_cons ha, List.take_succ_cons]
    rfl

/-- **The slices are the gathered groups**, token for token, for every token axis that has the
batch's tokens; when a group's tokens are not consecutive there are no slices. -/
theorem contiguous_spans_exact (recoverssm : Bool) (batch : List Row)
    (numActualTokens numSpecDecodeTokens : Int) :
    let mask := tokenMask recoverssm batch
    let spans := contiguousMixedSpans (rowStarts batch) (batch.map fun r => r.prefilling)
      (batch.map Row.drafts)
        numActualTokens numSpecDecodeTokens recoverssm
    (∀ s ns, spans = some (s, ns) → ∀ {α : Type*} (xs : List α), mask.length ≤ xs.length →
      indexSelect xs (specTokenIndx mask) = some (slice xs s numSpecDecodeTokens.toNat) ∧
        indexSelect xs (nonSpecTokenIndx mask) = some (slice xs ns (mask.count false))) ∧
      (¬ (OneRange (specTokenIndx mask) ∧ OneRange (nonSpecTokenIndx mask)) → spans = none) := by
  intro mask spans
  constructor
  · intro s ns hspans α xs hxs
    obtain ⟨v, m, n, hmask, hspec, hstart⟩ := tokenMask_of_spans hspans
    have hlen : mask.length = m + n := by
      rw [show mask = _ from hmask]
      simp
    rw [hspec, Int.toNat_natCast, (indx_runs hmask).1, (indx_runs hmask).2, slice, slice]
    rw [show mask = _ from hmask]
    cases v <;> obtain ⟨rfl, rfl⟩ := Prod.mk.inj hstart <;>
      simp [hmask, List.count_replicate, indexSelect_range', show m + n ≤ xs.length by
        omega, show m ≤ xs.length by omega]
  · intro hno
    cases hspans : spans with
    | none => rfl
    | some out =>
      obtain ⟨v, m, n, hmask, -, -⟩ := tokenMask_of_spans hspans
      have hrange : ∀ a k, OneRange (List.range' a k) := fun a k => ⟨a, by rw [List.length_range']⟩
      refine absurd ?_ hno
      rw [(indx_runs hmask).1, (indx_runs hmask).2]
      cases v <;> exact ⟨hrange _ _, hrange _ _⟩

end Batch

/-- Two verified requests of three tokens, one skipped, a prefill of four and padding. -/
def mixedStep : List Row := [⟨⟨false, 3⟩, 2⟩, ⟨⟨true, 0⟩, -1⟩, ⟨⟨false, 3⟩, 2⟩, ⟨⟨true, 4⟩, -1⟩,
    ⟨⟨false, 0⟩, -1⟩]

theorem mixedStep_spans : ∀ {α : Type} (xs : List α), 10 ≤ xs.length →
    indexSelect xs (specTokenIndx (tokenMask true mixedStep)) = some (slice xs 0 6) ∧
      indexSelect xs (nonSpecTokenIndx (tokenMask true mixedStep)) = some (slice xs 6 4) :=
  (contiguous_spans_exact true mixedStep 10 6).1 0 6 (by decide)

end Ringside.MixedSplit

import Mathlib.Data.List.Infix
import Mathlib.Tactic

/-!
# Logprob entries of displayed text (`content_logprobs.py`)

Model of `content_logprob_span`. It looks for a piece of displayed content in the raw text and
returns the entries whose tokens make it up, with the cursor from which the next piece is looked
for. Displayed content may leave out markers of the raw text, and a token may straddle the border of
two pieces; then no entries are the right answer.

* A text is a list over any alphabet, an entry anything with a token, so nothing depends on what a
  character or an entry is. `content=None` takes the branch of the empty text.
* `find` is `str.find`, `none` for its `-1`. A negative `start` counts from the end, as `str.find`
  has it (`sliceStart`).
* `scan` is the loop over the entries, with its variables `lo`, `hi` and the tokens read.
* Between two calls the raw text may change in any way; the list of entries only grows (`Behind`).
  This is more than the callers do.

Results:
* `scan_spec`: where the loop stops and what it leaves.
* `span_cases`: what a call returns, nothing or the one slice that spells the content.
* `span_sound`, `span_complete`: a slice is returned for a unique occurrence between token
  boundaries, and for nothing else.
* `spans_laid`: the slices of a sequence of items lie apart and in order, from any first cursor.
* `spans_never_shifted`: the three together.
-/

namespace Ringside.ContentLogprobs

variable {α ε : Type}

/-! ## The source -/

section Source

variable [DecidableEq α]

/-- `content` stands in `raw` at `pos`. -/
def OccursAt (raw content : List α) (pos : Nat) : Prop := pos ≤ raw.length ∧
    content <+: raw.drop pos

instance decidableOccursAt (raw content : List α) (pos : Nat) :
    Decidable (OccursAt raw content pos) :=
  inferInstanceAs (Decidable (_ ∧ _))

/-- The position that `start` means in `raw`. -/
def sliceStart (raw : List α) (start : Int) : Nat :=
    (if start < 0 then raw.length + start else start).toNat

/-- `raw.find(content, start)`, `none` for `-1`. -/
def find (raw content : List α) (start : Int) : Option Nat :=
  (List.range (raw.length + 1)).find? fun pos => sliceStart raw start ≤ pos ∧
    OccursAt raw content pos

variable (token : ε → List α)

/-- The loop over the entries: `lo`, `hi` and the tokens read. -/
def scan (pos stop : Nat) : Nat → Nat → Option Nat → List (List α) → List ε →
    Option Nat × Option Nat × List (List α)
  | _, _, lo, pre, [] => (lo, none, pre)
  | index, offset, lo, pre, entry :: entries =>
    let lo := if offset = pos ∧ lo = none then some index else lo
    let pre := pre ++ [token entry]
    let offset := offset + (token entry).length
    if offset = stop then (lo, some (index + 1), pre)
      else scan pos stop (index + 1) offset lo pre entries

/-- `content_logprob_span`: the slice and the cursor. -/
def contentLogprobSpan (raw content : List α) (entries : List ε) (start : Int) : List ε × Int :=
  if content = [] ∨ entries = [] then ([], start)
  else match find raw content start with
    | none => ([], start)
    | some pos =>
      if (find raw content (pos + 1)).isSome then ([], start)
      else
        let stop := pos + content.length
        match scan token pos stop 0 0 none [] entries with
        | (some lo, some hi, pre) =>
          if pre.flatten ≠ raw.take stop then ([], stop)
          else
            let selected := (entries.take hi).drop lo
            if selected.flatMap token ≠ content then ([], stop) else (selected, stop)
        | _ => ([], stop)

/-- A piece of content with the raw text and the entries of its moment. -/
structure Item (α ε : Type) where
  raw : List α
  content : List α
  entries : List ε

/-- The slices of a sequence of items, each looked for from the cursor that the one before returned.
-/
def spans : Int → List (Item α ε) → List (List ε)
  | _, [] => []
  | start, item :: items =>
    let r := contentLogprobSpan token item.raw item.content item.entries start
    r.1 :: spans r.2 items

end Source

/-! ## The search

The source looks for a first occurrence and for a second one behind it. Together they say whether
there is exactly one.
-/

section Search

theorem sliceStart_natCast (raw : List α) (n : Nat) : sliceStart raw n = n := by
  rw [sliceStart, if_neg (by omega), Int.toNat_natCast]

variable [DecidableEq α] {raw content : List α} {start : Int} {pos : Nat}

/-- `pos` is the only occurrence at or after `start`. -/
def Unique (raw content : List α) (start : Int) (pos : Nat) : Prop :=
  (sliceStart raw start ≤ pos ∧ OccursAt raw content pos) ∧ ∀ q, sliceStart raw start ≤ q →
    OccursAt raw content q → q = pos

theorem find_eq_some : find raw content start = some pos ↔
    (sliceStart raw start ≤ pos ∧ OccursAt raw content pos) ∧
      ∀ q < pos, sliceStart raw start ≤ q → ¬ OccursAt raw content q := by
  rw [find, List.find?_range_eq_some]
  simp only [decide_eq_true_eq, List.mem_range, Bool.not_eq_eq_eq_not, Bool.not_true,
    decide_eq_false_iff_not, not_and]
  exact ⟨fun ⟨hpos, _, hq⟩ => ⟨hpos, hq⟩, fun ⟨hpos, hq⟩ => ⟨hpos, Nat.lt_succ_of_le hpos.2.1, hq⟩⟩

theorem find_eq_none : find raw content start = none ↔ ∀ q, sliceStart raw start ≤ q →
    ¬ OccursAt raw content q := by
  rw [find, List.find?_eq_none]
  simp only [List.mem_range, decide_eq_true_eq, not_and]
  exact ⟨fun h q hq hocc => h q (Nat.lt_succ_of_le hocc.1) hq hocc, fun h q _ => h q⟩

/-- The two searches of the source. -/
theorem unique_iff : Unique raw content start pos ↔
    find raw content start = some pos ∧ (find raw content (pos + 1)).isSome = false := by
  have hnext : sliceStart raw ((pos : Int) + 1) = pos + 1 := sliceStart_natCast raw (pos + 1)
  rw [Option.isSome_eq_false_iff, Option.isNone_iff_eq_none, find_eq_some, find_eq_none, hnext]
  constructor
  · rintro ⟨hpos, huniq⟩
    exact ⟨⟨hpos, fun q hlt hq hocc => hlt.ne (huniq q hq hocc)⟩, fun q hgt hocc => by
      have := huniq q (by omega) hocc; omega⟩
  · rintro ⟨⟨hpos, hbefore⟩, hafter⟩
    refine ⟨hpos, fun q hq hocc => ?_⟩
    rcases lt_trichotomy q pos with hlt | heq | hgt
    · exact absurd hocc (hbefore q hlt hq)
    · exact heq
    · exact absurd hocc (hafter q hgt)

end Search

/-! ## Token boundaries

Tokens that carry no text make boundaries that coincide; the loop takes the first one at a position.
-/

section Boundaries

variable {token : ε → List α} {entries : List ε} {pos stop : Nat}

/-- The length of the first `k` tokens. -/
def bound (token : ε → List α) (entries : List ε) (k : Nat) : Nat :=
    ((entries.take k).flatMap token).length

theorem bound_mono {j k : Nat} (h : j ≤ k) : bound token entries j ≤ bound token entries k := by
  have hpre : entries.take j <+: entries.take k := List.take_prefix_take_left h
  obtain ⟨rest, hrest⟩ := hpre
  rw [bound, bound, ← hrest, List.flatMap_append, List.length_append]
  exact Nat.le_add_right _ _

theorem bound_succ {done rest : List ε} {entry : ε} (h : entries = done ++ entry :: rest) :
    bound token entries (done.length + 1) =
      bound token entries done.length + (token entry).length := by
  subst h
  simp [bound, List.take_append, List.take_of_length_le]

/-- Entries that were added later do not move a boundary. -/
theorem bound_of_isPrefix {entries' : List ε} (h : entries <+: entries') {k : Nat}
    (hk : k ≤ entries.length) :
    bound token entries' k = bound token entries k := by
  obtain ⟨rest, rfl⟩ := h
  rw [bound, bound, List.take_append_of_le_length hk]

/-- The first boundary at `pos` among the first `n`. -/
def firstAt (token : ε → List α) (entries : List ε) (pos n : Nat) : Option Nat :=
  (List.range n).find? fun k => bound token entries k = pos

theorem firstAt_succ (n : Nat) : firstAt token entries pos (n + 1) =
    if bound token entries n = pos ∧ firstAt token entries pos n = none then
      some n else firstAt token entries pos n := by
  unfold firstAt
  rw [List.range_succ, List.find?_append]
  cases (List.range n).find? fun k => bound token entries k = pos with
  | some k => simp
  | none => by_cases h : bound token entries n = pos <;> simp [h]

variable (token pos stop) in
/-- **The loop** stops behind the first boundary at `stop`; `lo` is the first boundary at `pos` that
it passed. -/
theorem scan_spec {done rest : List ε} (h : entries = done ++ rest) :
    ∃ m, (done.length ≤ m ∧ m ≤ entries.length) ∧
    (∀ k, done.length < k → k < m → bound token entries k ≠ stop) ∧
    scan token pos stop done.length (bound token entries done.length)
        (firstAt token entries pos done.length) (done.map token) rest =
      (firstAt token entries pos m, if done.length < m ∧ bound token entries m = stop then
        some m else none, (entries.take m).map token) ∧
    (done.length < m ∧ bound token entries m = stop ∨ m = entries.length) := by
  induction rest generalizing done with
  | nil =>
    obtain rfl : entries = done := by simpa using h
    exact ⟨entries.length, ⟨le_rfl, le_rfl⟩, fun k hk hk' => absurd hk hk'.not_gt, by
      simp [scan], Or.inr rfl⟩
  | cons entry rest ih =>
    have hnext : entries = (done ++ [entry]) ++ rest := by simpa using h
    have hle := congrArg List.length hnext
    rw [List.length_append] at hle
    have hlen : (done ++ [entry]).length = done.length + 1 := by simp
    rw [scan, ← firstAt_succ, ← bound_succ h]
    by_cases hstop : bound token entries (done.length + 1) = stop
    · refine ⟨done.length + 1, ⟨by omega, by omega⟩, fun k hk hk' => absurd hk' (by omega), ?_,
        Or.inl ⟨by omega, hstop⟩⟩
      rw [if_pos hstop, if_pos ⟨by omega, hstop⟩, ← hlen, hnext, List.take_left, List.map_append]
      rfl
    · obtain ⟨m, ⟨hm, hm'⟩, hbetween, heq, hend⟩ := ih hnext
      rw [hlen, List.map_append] at heq
      rw [hlen] at hm hbetween hend
      refine ⟨m, ⟨by omega, hm'⟩, fun k hk hk' => ?_, ?_, hend.imp_left fun h => ⟨by omega, h.2⟩⟩
      · obtain rfl | hgt := Nat.eq_or_lt_of_le hk
        · exact hstop
        · exact hbetween k hgt hk'
      · rw [if_neg hstop]
        refine heq.trans ?_
        congr 2
        have hne : bound token entries m = stop → m ≠ done.length + 1 := fun h hm => hstop (hm ▸ h)
        exact if_congr ⟨fun h => ⟨by omega, h.2⟩, fun h => ⟨by have := hne h.2; omega, h.2⟩⟩ rfl rfl

end Boundaries

/-! ## One piece of content -/

section Span

variable {token : ε → List α} {raw content : List α} {entries : List ε} {start : Int}
    {pos lo hi : Nat}

/-- Entries `lo` to `hi` spell the content at `pos`: their ends are the first boundaries at its
ends, and the tokens up to there are the raw text. -/
structure Slice (token : ε → List α) (raw content : List α) (entries : List ε)
    (pos lo hi : Nat) : Prop where
  hi_le : hi ≤ entries.length
  lo_eq : bound token entries lo = pos
  lo_first : ∀ k < lo, bound token entries k ≠ pos
  hi_eq : bound token entries hi = pos + content.length
  hi_first : ∀ k < hi, bound token entries k ≠ pos + content.length
  text : (entries.take hi).flatMap token = raw.take (pos + content.length)

theorem Slice.lo_lt (h : Slice token raw content entries pos lo hi)
    (hcontent : content ≠ []) : lo < hi := by
  by_contra hge
  have hmono := (bound_mono (not_lt.mp hge) : bound token entries hi ≤ bound token entries lo)
  have hpos := List.length_pos_iff.mpr hcontent
  have hlo := h.lo_eq
  have hhi := h.hi_eq
  omega

theorem Slice.before (h : Slice token raw content entries pos lo hi) (hcontent : content ≠ []) :
    (entries.take lo).flatMap token = raw.take pos := by
  obtain ⟨rest, hrest⟩ : entries.take lo <+: entries.take hi :=
    List.take_prefix_take_left (h.lo_lt hcontent).le
  have hpre : (entries.take lo).flatMap token <+: raw.take (pos + content.length) :=
    ⟨rest.flatMap token, by rw [← h.text, ← hrest, List.flatMap_append]⟩
  rw [List.prefix_iff_eq_take.mp hpre, show ((entries.take lo).flatMap token).length =
    pos from h.lo_eq, List.take_take, Nat.min_eq_left (Nat.le_add_right _ _)]

theorem Slice.take_eq (h : Slice token raw content entries pos lo hi) (hcontent : content ≠ []) :
    entries.take hi = entries.take lo ++ (entries.take hi).drop lo := by
  conv_lhs => rw [← List.take_append_drop lo (entries.take hi), List.take_take,
    Nat.min_eq_left (h.lo_lt hcontent).le]

theorem Slice.selected (h : Slice token raw content entries pos lo hi) (hcontent : content ≠ [])
    (hocc : OccursAt raw content pos) : ((entries.take hi).drop lo).flatMap token = content := by
  have htext := h.text
  rw [h.take_eq hcontent, List.flatMap_append, h.before hcontent, List.take_add,
    List.append_cancel_left_eq] at htext
  rw [htext]
  exact (List.prefix_iff_eq_take.mp hocc.2).symm

/-- First boundaries exist where boundaries do. -/
theorem Slice.of_boundaries {a b : Nat} (ha : (entries.take a).flatMap token = raw.take pos)
    (hb : (entries.take b).flatMap token = raw.take (pos + content.length))
    (hocc : OccursAt raw content pos) :
    ∃ lo hi, Slice token raw content entries pos lo hi := by
  have hlen := hocc.2.length_le
  rw [List.length_drop] at hlen
  have ha' : ∃ k, bound token entries k = pos :=
    ⟨a, by rw [bound, ha, List.length_take, min_eq_left hocc.1]⟩
  have hb' : ∃ k, bound token entries k = pos + content.length :=
    ⟨b, by rw [bound, hb, List.length_take, min_eq_left (by have := hocc.1; omega)]⟩
  have hb_len : bound token entries b = pos + content.length := by
    rw [bound, hb, List.length_take, min_eq_left (by have := hocc.1; omega)]
  have hle : Nat.find hb' ≤ b := Nat.find_min' hb' hb_len
  have hfind : Nat.find hb' ≤ entries.length := by
    by_contra hgt
    refine Nat.find_min hb' (not_le.mp hgt) ?_
    rw [← Nat.find_spec hb', bound, bound, List.take_length,
      List.take_of_length_le (not_le.mp hgt).le]
  refine ⟨Nat.find ha', Nat.find hb', hfind, Nat.find_spec ha', fun k hk => Nat.find_min ha' hk,
    Nat.find_spec hb', fun k hk => Nat.find_min hb' hk, ?_⟩
  have hpre : (entries.take (Nat.find hb')).flatMap token <+: (entries.take b).flatMap token := by
    obtain ⟨rest, hrest⟩ : entries.take (Nat.find hb') <+: entries.take b :=
      List.take_prefix_take_left hle
    exact ⟨rest.flatMap token, by rw [← List.flatMap_append, hrest]⟩
  rw [hb] at hpre
  rw [List.prefix_iff_eq_take.mp hpre, show ((entries.take (Nat.find hb')).flatMap token).length =
    pos + content.length from
    Nat.find_spec hb', List.take_take, min_self]

variable (token raw pos entries) in
/-- The loop over all entries finds a slice if there is one. -/
theorem scan_eq (hcontent : content ≠ []) :
    (∃ lo hi, scan token pos (pos + content.length) 0 0 none [] entries =
    (some lo, some hi, (entries.take hi).map token) ∧
      ((entries.take hi).flatMap token = raw.take (pos + content.length) →
      Slice token raw content entries pos lo hi) ∧
        ∀ lo' hi', Slice token raw content entries pos lo' hi' → hi' = hi) ∨
      ((∀ pre, ∀ lo hi, scan token pos (pos + content.length) 0 0 none [] entries ≠
        (some lo, some hi, pre)) ∧
        ∀ lo hi, ¬ Slice token raw content entries pos lo hi) := by
  have hpos := List.length_pos_iff.mpr hcontent
  have hzero : bound token entries 0 ≠ pos + content.length := by
    rw [bound, List.take_zero, List.flatMap_nil, List.length_nil]
    omega
  obtain ⟨m, ⟨-, hm⟩, hbetween, heq, hend⟩ := scan_spec token pos (pos + content.length)
    (show entries = [] ++ entries from rfl)
  have hfirst : ∀ k < m, bound token entries k ≠ pos + content.length := fun k hk =>
    k.eq_zero_or_pos.elim (fun h => h ▸ hzero) fun h => hbetween k h hk
  change scan token pos (pos + content.length) 0 0 none [] entries = _ at heq
  -- a slice ends where the loop does
  have hslice : ∀ lo hi, Slice token raw content entries pos lo hi → hi = m := by
    intro lo hi h
    rcases lt_trichotomy hi m with hlt | heq | hgt
    · exact absurd h.hi_eq (hfirst hi hlt)
    · exact heq
    · obtain ⟨-, hstop⟩ | hlen := hend
      · exact absurd hstop (h.hi_first m hgt)
      · have := h.hi_le
        omega
  by_cases hhi : 0 < m ∧ bound token entries m = pos + content.length
  · rw [List.length_nil, if_pos hhi] at heq
    cases hlo : firstAt token entries pos m with
    | some lo =>
      rw [hlo] at heq
      rw [firstAt, List.find?_range_eq_some] at hlo
      obtain ⟨hloeq, -, hlofirst⟩ := hlo
      exact Or.inl ⟨lo, m, heq, fun htext => ⟨hm, by simpa using hloeq, fun k hk => by
        simpa using hlofirst k hk, hhi.2, hfirst, htext⟩, hslice⟩
    | none =>
      refine Or.inr ⟨fun pre lo hi h => by simp [heq, hlo] at h, fun lo hi h => ?_⟩
      rw [firstAt, List.find?_eq_none] at hlo
      have hlt := h.lo_lt hcontent
      rw [hslice lo hi h] at hlt
      exact hlo lo (List.mem_range.mpr hlt) (by simpa using h.lo_eq)
  · rw [List.length_nil, if_neg hhi] at heq
    refine Or.inr ⟨fun pre lo hi h => by simp [heq] at h, fun lo hi h => hhi ?_⟩
    have hlt := h.lo_lt hcontent
    have hstop := h.hi_eq
    rw [hslice lo hi h] at hlt hstop
    exact ⟨by omega, hstop⟩

variable [DecidableEq α]

variable (token raw content entries start) in
/-- **What a call returns**: nothing for content that does not stand at one position; else the slice
there, or nothing, and the cursor behind the content. -/
theorem span_cases :
    (content = [] ∨ entries = [] ∨ ∀ pos, ¬ Unique raw content start pos) ∧
        contentLogprobSpan token raw content entries start = ([], start) ∨
      content ≠ [] ∧ ∃ pos, Unique raw content start pos ∧
        ((∃ lo hi, Slice token raw content entries pos lo hi ∧
        contentLogprobSpan token raw content entries start =
            ((entries.take hi).drop lo, ((pos + content.length : Nat) : Int))) ∨
          (∀ lo hi, ¬ Slice token raw content entries pos lo hi) ∧
            contentLogprobSpan token raw content entries start =
            ([], ((pos + content.length : Nat) : Int))) := by
  unfold contentLogprobSpan
  by_cases hempty : content = [] ∨ entries = []
  · exact Or.inl ⟨hempty.imp_right Or.inl, if_pos hempty⟩
  rw [if_neg hempty]
  push Not at hempty
  cases hfind : find raw content start with
  | none =>
    refine Or.inl ⟨Or.inr (Or.inr fun pos h => ?_), rfl⟩
    rw [(unique_iff.mp h).1] at hfind
    cases hfind
  | some pos =>
    dsimp only
    by_cases hagain : (find raw content (pos + 1)).isSome
    · refine Or.inl ⟨Or.inr (Or.inr fun pos' h => ?_), if_pos hagain⟩
      obtain ⟨hfind', hnone⟩ := unique_iff.mp h
      rw [hfind, Option.some.injEq] at hfind'
      rw [hfind', hnone] at hagain
      cases hagain
    · rw [if_neg hagain]
      have hu : Unique raw content start pos := unique_iff.mpr ⟨hfind, by simpa using hagain⟩
      refine Or.inr ⟨hempty.1, pos, hu, ?_⟩
      obtain ⟨lo, hi, heq, hslice, hend⟩ | ⟨hnot, hnone⟩ := scan_eq token raw entries pos hempty.1
      · rw [heq]
        dsimp only
        rw [← List.flatMap_def]
        by_cases htext : (entries.take hi).flatMap token = raw.take (pos + content.length)
        · have hs := hslice htext
          refine Or.inl ⟨lo, hi, hs, ?_⟩
          rw [if_neg (not_not.mpr htext), if_neg (not_not.mpr (hs.selected hempty.1 hu.1.2))]
        · refine Or.inr ⟨fun lo' hi' h => htext ?_, if_pos htext⟩
          rw [← hend lo' hi' h]
          exact h.text
      · refine Or.inr ⟨hnone, ?_⟩
        split
        · rename_i lo hi pre heq
          exact absurd heq (hnot pre lo hi)
        · rfl

/-- A slice that is returned is the one occurrence's. -/
theorem span_sound (h : (contentLogprobSpan token raw content entries start).1 ≠ []) :
    ∃ pos, Unique raw content start pos ∧ ∃ before after,
      entries = before ++ (contentLogprobSpan token raw content entries start).1 ++ after ∧
        before.flatMap token = raw.take pos ∧
        (contentLogprobSpan token raw content entries start).1.flatMap token = content := by
  obtain ⟨-, heq⟩ | ⟨hcontent, pos, hu, ⟨lo, hi, hs, heq⟩ | ⟨-, heq⟩⟩ :=
    span_cases token raw content entries start
  · exact absurd (congrArg Prod.fst heq) h
  · rw [heq]
    refine ⟨pos, hu, entries.take lo, entries.drop hi, ?_, hs.before hcontent,
      hs.selected hcontent hu.1.2⟩
    rw [← hs.take_eq hcontent, List.take_append_drop]
  · exact absurd (congrArg Prod.fst heq) h

/-- A slice is returned where the one occurrence starts and ends between tokens. -/
theorem span_complete (hu : Unique raw content start pos) {a b : Nat}
    (ha : (entries.take a).flatMap token = raw.take pos)
    (hb : (entries.take b).flatMap token = raw.take (pos + content.length)) :
    ∃ before after, entries = before ++ (contentLogprobSpan token raw content entries
      start).1 ++ after ∧
      before.flatMap token = raw.take pos ∧
      (contentLogprobSpan token raw content entries start).1.flatMap token = content := by
  obtain ⟨hnone, heq⟩ | ⟨hcontent, pos', hu', ⟨lo, hi, hs, heq⟩ | ⟨hnone, heq⟩⟩ :=
    span_cases token raw content entries start
  · -- the empty content, or no token that could spell it
    have hempty : content = [] := by
      obtain hempty | rfl | hnot := hnone
      · exact hempty
      · obtain ⟨lo, hi, hs⟩ := Slice.of_boundaries ha hb hu.1.2
        have hstop := hs.hi_eq
        rw [bound, List.take_nil, List.flatMap_nil, List.length_nil] at hstop
        exact List.length_eq_zero_iff.mp (by omega)
      · exact absurd hu (hnot pos)
    rw [heq]
    exact ⟨entries.take a, entries.drop a, by simp, ha, hempty ▸ rfl⟩
  · obtain rfl : pos = pos' := hu'.2 pos hu.1.1 hu.1.2
    rw [heq]
    refine ⟨entries.take lo, entries.drop hi, ?_, hs.before hcontent, hs.selected hcontent hu.1.2⟩
    rw [← hs.take_eq hcontent, List.take_append_drop]
  · obtain rfl : pos = pos' := hu'.2 pos hu.1.1 hu.1.2
    obtain ⟨lo, hi, hs⟩ := Slice.of_boundaries ha hb hu.1.2
    exact absurd hs (hnone lo hi)

end Span

/-! ## A sequence of items

The cursor only grows, and a slice is looked for behind it. Entries that arrive later do not move a
boundary that was there.
-/

section Sequence

variable {token : ε → List α}

/-- The slices lie in the items' entries one behind the other, none before entry `n`. -/
def Laid : Nat → List (Item α ε) → List (List ε) → Prop
  | _, [], [] => True
  | n, item :: items, selected :: rest => ∃ lo hi, (n ≤ lo ∧ lo ≤ hi ∧ hi ≤ item.entries.length) ∧
      selected = (item.entries.take hi).drop lo ∧ Laid hi items rest
  | _, _, _ => False

/-- The cursor stands behind the first `n` entries of every item to come, and the last of them has a
token. -/
structure Behind (token : ε → List α) (start : Int) (n : Nat) (item : Item α ε) : Prop where
  le : n ≤ item.entries.length
  first : ∀ k < n, bound token item.entries k < bound token item.entries n
  cursor : bound token item.entries n ≤ sliceStart item.raw start

variable [DecidableEq α] {item item' : Item α ε} {start : Int} {n : Nat}

/-- One item: its slice lies behind the cursor, and the next cursor behind the slice. -/
theorem span_behind (h : Behind token start n item) :
    ∃ lo hi, (n ≤ lo ∧ lo ≤ hi ∧ hi ≤ item.entries.length) ∧
    (contentLogprobSpan token item.raw item.content item.entries start).1 =
    (item.entries.take hi).drop lo ∧
      ∀ item', item.entries <+: item'.entries → Behind token start n item' →
        Behind token (contentLogprobSpan token item.raw item.content item.entries start).2
          hi item' := by
  obtain ⟨-, heq⟩ | ⟨hcontent, pos, hu, hslice⟩ :=
    span_cases token item.raw item.content item.entries start
  · rw [heq]
    exact ⟨n, n, ⟨le_rfl, le_rfl, h.le⟩, by simp, fun _ _ h' => h'⟩
  have hcursor := h.cursor.trans hu.1.1
  obtain ⟨lo, hi, hs, heq⟩ | ⟨-, heq⟩ := hslice
  · rw [heq]
    refine ⟨lo, hi, ⟨?_, (hs.lo_lt hcontent).le, hs.hi_le⟩, rfl, fun item' hpre _ => ?_⟩
    · -- an entry before `n` ends before the cursor
      by_contra hlt
      have := h.first lo (not_le.mp hlt)
      have := hs.lo_eq
      omega
    · refine ⟨hs.hi_le.trans hpre.length_le, fun k hk => ?_, ?_⟩
      · rw [bound_of_isPrefix hpre (hk.le.trans hs.hi_le),
          bound_of_isPrefix hpre hs.hi_le, hs.hi_eq]
        exact lt_of_le_of_ne (hs.hi_eq ▸ bound_mono hk.le) (hs.hi_first k hk)
      · rw [bound_of_isPrefix hpre hs.hi_le, hs.hi_eq, sliceStart_natCast]
  · rw [heq]
    refine ⟨n, n, ⟨le_rfl, le_rfl, h.le⟩, by simp, fun item' hpre h' => ⟨h'.le, h'.first, ?_⟩⟩
    rw [bound_of_isPrefix hpre h.le, sliceStart_natCast]
    omega

theorem laid_of_behind {items : List (Item α ε)}
    (hgrow : items.Pairwise fun a b => a.entries <+: b.entries)
    (h : ∀ item ∈ items, Behind token start n item) : Laid n items (spans token start items) := by
  induction items generalizing start n with
  | nil => trivial
  | cons item items ih =>
    obtain ⟨hpre, hgrow⟩ := List.pairwise_cons.mp hgrow
    obtain ⟨lo, hi, hle, heq, hnext⟩ := span_behind (h item (List.mem_cons_self ..))
    exact ⟨lo, hi, hle, heq, ih hgrow fun item' hmem =>
      hnext item' (hpre item' hmem) (h item' (List.mem_cons_of_mem _ hmem))⟩

/-- **The slices of a sequence lie apart and in order**, from any first cursor. -/
theorem spans_laid {items : List (Item α ε)}
    (hgrow : items.Pairwise fun a b => a.entries <+: b.entries) :
    Laid 0 items (spans token start items) :=
  laid_of_behind hgrow fun _ _ => ⟨Nat.zero_le _, fun _ hk => absurd hk (Nat.not_lt_zero _),
    by simp [bound]⟩

end Sequence

/-! ## The three laws together -/

/-- **Spans are never shifted.** A slice that is returned spells the content where it stands in the
raw text and nowhere else; it is returned whenever the only occurrence starts and ends between
tokens; and slices of a sequence lie apart and in order. -/
theorem spans_never_shifted {α ε : Type} [DecidableEq α] (token : ε → List α) :
    (∀ raw content entries start, (contentLogprobSpan token raw content entries start).1 ≠ [] →
      ∃ pos, Unique raw content start pos ∧ ∃ before after,
        entries = before ++ (contentLogprobSpan token raw content entries start).1 ++ after ∧
          before.flatMap token = raw.take pos ∧
            (contentLogprobSpan token raw content entries start).1.flatMap token = content) ∧
      (∀ raw content entries start pos, Unique raw content start pos →
        (∃ a b, (entries.take a).flatMap token = raw.take pos ∧
          (entries.take b).flatMap token = raw.take (pos + content.length)) →
        ∃ before after, entries = before ++ (contentLogprobSpan token raw content entries
          start).1 ++ after ∧
          before.flatMap token = raw.take pos ∧
            (contentLogprobSpan token raw content entries start).1.flatMap token = content) ∧
      ∀ (items : List (Item α ε)) start, (items.Pairwise fun a b => a.entries <+: b.entries) →
        Laid 0 items (spans token start items) :=
  ⟨fun _ _ _ _ h => span_sound h, fun _ _ _ _ _ hu ⟨_, _, ha, hb⟩ => span_complete hu ha hb,
    fun _ _ h => spans_laid h⟩

/-- A reasoning span, two tokens of text and a stop token. -/
example : contentLogprobSpan (fun s : String => s.toList) "<think>a</think>Hello world".toList
    "Hello world".toList
    ["<think>", "a", "</think>", "Hello", " world", "<|user|>"] 0 =
      (["Hello", " world"], 27) := by decide

end Ringside.ContentLogprobs

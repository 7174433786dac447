import Mathlib.Data.List.Induction
import Mathlib.Tactic

/-!
# Rotating service queues

A queue is served by moving everything that was served behind everything that was not, both in their
old order (`rotate`), and it is refilled by dropping what left and appending what is new (`refill`).
Both keep the position of an entry from growing, and serving something ahead of an entry makes it
smaller.

* `ahead` and `behind` are what stands before and after an entry, so a position is the length of a
  list and can be filtered.
* Whether an entry was served is a Boolean function of the entry: a round may serve any of them, and
  none.

Results:
* `ahead_rotate`, `behind_rotate`: an entry that was not served keeps its order with the others that
  were not, and goes ahead of those that were.
* `ahead_refill`, `behind_refill`: who stays keeps its order, and newcomers stand behind.
* `head_filter_ahead`, `head_filter_of_ahead`: the first entry of a kind stands ahead of every other
  one of the kind.
* `length_filter_lt`: serving one of a list makes what is left of it shorter.
-/

namespace Ringside.Queue

variable {α : Type*} [DecidableEq α]

/-- The queue after the entries that satisfy `served` were served. -/
def rotate (served : α → Bool) (q : List α) : List α :=
  q.filter (fun a => !served a) ++ q.filter served

/-- The queue of the entries that are still present, followed by the newcomers. -/
def refill (present : List α) (q : List α) : List α :=
  q.filter (fun a => a ∈ present) ++
    present.filter fun a => a ∉ q.filter fun b => b ∈ present

omit [DecidableEq α] in
theorem mem_rotate {served : α → Bool} {q : List α} {a : α} : a ∈ rotate served q ↔ a ∈ q := by
  unfold rotate
  rw [List.mem_append, List.mem_filter, List.mem_filter]
  cases served a <;> simp

theorem mem_refill {present q : List α} {a : α} : a ∈ refill present q ↔ a ∈ present := by
  simp only [refill, List.mem_append, List.mem_filter, decide_eq_true_eq]
  tauto

omit [DecidableEq α] in
theorem nodup_rotate {served : α → Bool} {q : List α} (h : q.Nodup) : (rotate served q).Nodup := by
  refine List.Nodup.append (h.filter _) (h.filter _) fun a ha hb => ?_
  have h1 := (List.mem_filter.mp ha).2
  have h2 := (List.mem_filter.mp hb).2
  simp [h2] at h1

omit [DecidableEq α] in
theorem length_rotate (served : α → Bool) (q : List α) : (rotate served q).length = q.length := by
  unfold rotate
  rw [List.length_append, Nat.add_comm, ← List.length_eq_length_filter_add]

theorem nodup_refill {present q : List α} (hp : present.Nodup) (hq : q.Nodup) :
    (refill present q).Nodup := by
  refine List.Nodup.append (hq.filter _) (hp.filter _) fun a ha hb => ?_
  have := (List.mem_filter.mp hb).2
  simp only [decide_eq_true_eq] at this
  exact this ha

/-- A queue refilled from a present list without repetition is no longer than that list. -/
theorem length_refill_le {present q : List α} (hp : present.Nodup) (hq : q.Nodup) :
    (refill present q).length ≤ present.length :=
  ((nodup_refill hp hq).subperm fun _ ha => mem_refill.mp ha).length_le

/-! ## Positions -/

/-- What stands ahead of the first `t` of the queue. -/
def ahead (q : List α) (t : α) : List α := q.takeWhile fun a => a ≠ t

/-- What stands behind the first `t` of the queue. -/
def behind (q : List α) (t : α) : List α := (q.dropWhile fun a => a ≠ t).tail

theorem ahead_split {pre post : List α} {t : α} (h : t ∉ pre) :
    ahead (pre ++ t :: post) t = pre := by
  unfold ahead
  rw [List.takeWhile_append_of_pos fun a ha => by
    simpa using fun hat : a = t => h (hat ▸ ha)]
  simp

theorem behind_split {pre post : List α} {t : α} (h : t ∉ pre) :
    behind (pre ++ t :: post) t = post := by
  unfold behind
  rw [List.dropWhile_append_of_pos fun a ha => by
    simpa using fun hat : a = t => h (hat ▸ ha)]
  simp

/-- A queue that holds `t` splits at it. -/
theorem split_at {q : List α} {t : α} (h : t ∈ q) :
    q = ahead q t ++ t :: behind q t ∧ t ∉ ahead q t := by
  obtain ⟨pre, post, hq, hpre⟩ := List.eq_append_cons_of_mem h
  rw [hq, ahead_split hpre, behind_split hpre]
  exact ⟨rfl, hpre⟩

theorem length_split {q : List α} {t : α} (h : t ∈ q) :
    (ahead q t).length + (behind q t).length + 1 = q.length := by
  have := congrArg List.length (split_at h).1
  rw [List.length_append, List.length_cons] at this
  omega

section Split

variable {q : List α} {t : α} (h : t ∈ q)
include h

omit h in
theorem rotate_split {served : α → Bool} (h : t ∈ q) (hs : served t = false) :
    rotate served q = (ahead q t).filter (fun a => !served a) ++ t ::
      ((behind q t).filter (fun a => !served a) ++ q.filter served) := by
  obtain ⟨hq, -⟩ := split_at h
  unfold rotate
  conv_lhs => rw [hq]
  rw [List.filter_append, List.filter_cons_of_pos (by simp [hs]), List.append_assoc,
    List.cons_append, ← hq]

/-- What was not served keeps its place ahead of an entry that was not served either. -/
theorem ahead_rotate {served : α → Bool} (hs : served t = false) :
    ahead (rotate served q) t = (ahead q t).filter fun a => !served a := by
  rw [rotate_split h hs, ahead_split fun hm => (split_at h).2 (List.mem_of_mem_filter hm)]

theorem behind_rotate {served : α → Bool} (hs : served t = false) :
    behind (rotate served q) t =
      (behind q t).filter (fun a => !served a) ++ q.filter served := by
  rw [rotate_split h hs, behind_split fun hm => (split_at h).2 (List.mem_of_mem_filter hm)]

omit h in
theorem refill_split {present : List α} (h : t ∈ q) (hp : t ∈ present) :
    refill present q = (ahead q t).filter (fun a => a ∈ present) ++ t ::
      ((behind q t).filter (fun a => a ∈ present) ++
        present.filter fun a => a ∉ q.filter fun b => b ∈ present) := by
  obtain ⟨hq, -⟩ := split_at h
  have hfil : q.filter (fun a => a ∈ present) = (ahead q t).filter (fun a => a ∈ present) ++ t ::
      (behind q t).filter (fun a => a ∈ present) := by
    conv_lhs => rw [hq]
    rw [List.filter_append, List.filter_cons_of_pos (by simpa using hp)]
  unfold refill
  rw [← List.cons_append, ← List.append_assoc, ← hfil]

/-- Newcomers never enter ahead of an entry that stays. -/
theorem ahead_refill {present : List α} (hp : t ∈ present) :
    ahead (refill present q) t = (ahead q t).filter fun a => a ∈ present := by
  rw [refill_split h hp, ahead_split fun hm => (split_at h).2 (List.mem_of_mem_filter hm)]

theorem behind_refill {present : List α} (hp : t ∈ present) :
    behind (refill present q) t = (behind q t).filter (fun a => a ∈ present) ++
      present.filter fun a => a ∉ q.filter fun b => b ∈ present := by
  rw [refill_split h hp, behind_split fun hm => (split_at h).2 (List.mem_of_mem_filter hm)]

/-- The first entry with a property stands ahead of `t`, or is `t`, or everything ahead of `t`
lacks the property and so does `t`. -/
theorem head_filter_mem {P : α → Bool} {f : α} {rest : List α} (hf : q.filter P = f :: rest) :
    f ∈ ahead q t ∨ f = t ∨ f ∈ behind q t := by
  have : f ∈ q := List.mem_of_mem_filter (hf ▸ List.mem_cons_self)
  rw [(split_at h).1, List.mem_append, List.mem_cons] at this
  exact this

/-- When `t` has the property, the first entry that has it is `t` or stands ahead of it. -/
theorem head_filter_ahead {P : α → Bool} (ht : P t = true) :
    ∃ f rest, q.filter P = f :: rest ∧ (f ∈ ahead q t ∨ f = t) := by
  have hq := (split_at h).1
  have hfil : q.filter P = (ahead q t).filter P ++ t :: (behind q t).filter P := by
    conv_lhs => rw [hq]
    rw [List.filter_append, List.filter_cons_of_pos ht]
  cases hp : (ahead q t).filter P with
  | nil => exact ⟨t, _, by rw [hfil, hp]; rfl, Or.inr rfl⟩
  | cons f rest =>
    refine ⟨f, _, by rw [hfil, hp]; rfl, Or.inl ?_⟩
    exact List.mem_of_mem_filter (hp ▸ List.mem_cons_self)

/-- When something ahead of `t` has the property, so does the first entry that has it. -/
theorem head_filter_of_ahead {P : α → Bool} {f g : α} {rest : List α}
    (hf : q.filter P = f :: rest) (hg : g ∈ ahead q t) (hP : P g = true) : f ∈ ahead q t := by
  have hfil : q.filter P = (ahead q t).filter P ++ (t :: behind q t).filter P := by
    conv_lhs => rw [(split_at h).1]
    rw [List.filter_append]
  cases hp : (ahead q t).filter P with
  | nil => exact absurd (hp ▸ List.mem_filter.mpr ⟨hg, hP⟩) List.not_mem_nil
  | cons e l =>
    rw [hfil, hp, List.cons_append] at hf
    rw [← (List.cons.inj hf).1]
    exact List.mem_of_mem_filter (hp ▸ List.mem_cons_self)

end Split

omit [DecidableEq α] in
/-- Dropping an entry with a property makes the entries that have it fewer. -/
theorem length_filter_lt {P Q : α → Bool} {l : List α} (hPQ : ∀ a ∈ l, P a = true → Q a = true)
    {f : α} (hf : f ∈ l) (hq : Q f = true) (hp : P f = false) :
    (l.filter P).length < (l.filter Q).length := by
  have : l.filter P = (l.filter Q).filter P := by
    rw [List.filter_filter]
    refine List.filter_congr fun a ha => ?_
    cases hP : P a with
    | false => simp
    | true => simp [hPQ a ha hP]
  rw [this, List.length_filter_lt_length_iff_exists]
  exact ⟨f, List.mem_filter.mpr ⟨hf, hq⟩, by simp [hp]⟩

end Ringside.Queue

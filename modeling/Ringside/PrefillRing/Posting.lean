import Ringside.PrefillRing.Protocol

/-!
# The proxy of one rank: its queue, its send queue and its completions

The proxy takes the calls of its queue in order, one cursor for each direction, posts their steps to
the send queue of the direction's queue pair, and drains completions. This file has what is true of
one rank's proxy whatever the kernels and the neighbours do.

* A direction is at step `step` of call `cur` while it is busy, and at the end of all its calls
  before `head` when it is not. `begun` counts the step in `post_step` too: its source has been
  found ready.
* The queue has `qCap` places and the ring of posted steps `itemRing`. A place holds its entry until
  it is used, because the host waits for room and `post_step` for completions.
* `data` and `flagged` count the entries whose chunk and whose flag have been written; `done` lags
  behind them.

Results:
* `ProxyInv`: the steps posted are the steps of the calls taken, in order; a queue place or a ring
  place holds its entry until it is used; `sendDone` counts the staged steps among those completed.
* `proxyInv_*`: every event of a proxy or a queue pair keeps it.
-/

namespace Ringside.PrefillRing.Protocol

open Ringside.Run Ringside.Merge Ringside.Segments

variable {R : Ring} {P : Proxy}

/-- The queue, the send queue and the completions of one proxy agree with the calls. -/
structure ProxyInv (R : Ring) (P : Proxy) : Prop where
  queued_le : P.queued ≤ R.count
  head_le : ∀ d, P.head d ≤ P.queued
  queue_room : P.queued ≤ min (P.head .fwd) (P.head .bwd) + qCap
  queue : ∀ i, min (P.head .fwd) (P.head .bwd) ≤ i → i < P.queued → P.queue (i % qCap) = i
  cur : ∀ d, P.busy d = true →
    P.cur d + 1 = P.head d ∧ P.step d ≤ (R.calls (P.cur d)).steps d
  cursor : ∀ d, P.posted d =
    if P.busy d then R.stepAt d (P.cur d) (P.step d) else R.stepAt d (P.head d) 0
  posting : ∀ d, P.posting = some d →
    P.busy d = true ∧ P.step d < (R.calls (P.cur d)).steps d
  wqe : ∀ d, ∀ i < P.posted d, (P.wqe d i).2 < (R.calls (P.wqe d i).1).steps d ∧
    R.stepAt d (P.wqe d i).1 (P.wqe d i).2 = i ∧ (P.wqe d i).1 < P.head d
  done_le : ∀ d, P.done d ≤ P.flagged d
  flagged_le : ∀ d, P.flagged d ≤ P.data d
  data_le : ∀ d, P.data d ≤ P.posted d
  data_le_succ : ∀ d, P.data d ≤ P.flagged d + 1
  ring_room : ∀ d, P.posted d ≤ P.done d + (itemRing - 1)
  ring : ∀ d i, P.done d ≤ i → i < P.posted d → P.ring d (i % itemRing) =
    if (P.wqe d i).2 < (R.calls (P.wqe d i).1).staged d then
      some (R.stageAt d (P.wqe d i).1 (P.wqe d i).2)
    else none
  sendDone : ∀ d c j, j < (R.calls c).staged d →
    (R.stageAt d c j < P.sendDone d ↔ R.stepAt d c j < P.done d)

/-- The steps whose source has been found ready. -/
def begun (P : Proxy) (d : Dir) : Nat := if P.posting = some d then P.posted d + 1 else P.posted d

theorem posted_le_begun (d : Dir) : P.posted d ≤ begun P d := by
  unfold begun
  split <;> omega

theorem stepAt_lt {d : Dir} {c s c' s' : Nat} (hs : s < (R.calls c).steps d)
    (hs' : s' < (R.calls c').steps d) :
    R.stepAt d c s < R.stepAt d c' s' ↔ c < c' ∨ (c = c' ∧ s < s') :=
  place_lt_place hs hs'

theorem stepAt_inj {d : Dir} {c s c' s' : Nat} (hs : s < (R.calls c).steps d)
    (hs' : s' < (R.calls c').steps d) (h : R.stepAt d c s = R.stepAt d c' s') : c = c' ∧ s = s' :=
  @place_inj (fun c => (R.calls c).steps d) _ _ _ _ hs hs' h

theorem stageAt_lt {d : Dir} {c s c' s' : Nat} (hs : s < (R.calls c).staged d)
    (hs' : s' < (R.calls c').staged d) :
    R.stageAt d c s < R.stageAt d c' s' ↔ c < c' ∨ (c = c' ∧ s < s') :=
  place_lt_place hs hs'

theorem stageAt_inj {d : Dir} {c s c' s' : Nat} (hs : s < (R.calls c).staged d)
    (hs' : s' < (R.calls c').staged d) (h : R.stageAt d c s = R.stageAt d c' s') :
    c = c' ∧ s = s' :=
  @place_inj (fun c => (R.calls c).staged d) _ _ _ _ hs hs' h

theorem posting_step (hP : ProxyInv R P) {d : Dir} (h : P.posting = some d) :
    P.posted d = R.stepAt d (P.cur d) (P.step d) := by
  rw [hP.cursor d, if_pos (hP.posting d h).1]

theorem proxyInv_init : ProxyInv R ((World.init R).proxy 0) where
  queued_le := Nat.zero_le _
  head_le _ := le_rfl
  queue_room := Nat.zero_le _
  queue i _ h := absurd h (Nat.not_lt_zero i)
  cur d h := absurd h Bool.false_ne_true
  cursor _ := rfl
  posting d h := by simp [World.init] at h
  wqe d i h := absurd h (Nat.not_lt_zero i)
  done_le _ := le_rfl
  flagged_le _ := le_rfl
  data_le _ := le_rfl
  data_le_succ _ := Nat.zero_le _
  ring_room _ := Nat.zero_le _
  ring d i _ h := absurd h (Nat.not_lt_zero i)
  sendDone d c j _ := by simp [World.init]

/-! ## The queue of calls -/

theorem proxyInv_enqueue (hP : ProxyInv R P) (h : P.queued < R.count)
    (hroom : P.queued - min (P.head .fwd) (P.head .bwd) < qCap) : ProxyInv R P.enqueue :=
  { hP with
    queued_le := h
    head_le := fun d => (hP.head_le d).trans (Nat.le_succ _)
    queue_room := by
      have := hP.head_le .fwd
      simp only [Proxy.enqueue]
      omega
    queue := by
      intro i hlo hhi
      simp only [Proxy.enqueue] at hlo hhi ⊢
      rcases Nat.lt_succ_iff_lt_or_eq.mp hhi with hlt | rfl
      · -- an older call's place is another one
        have hne : i % qCap ≠ P.queued % qCap := by
          unfold qCap at hroom ⊢
          omega
        rw [if_neg hne]
        exact hP.queue i hlo hlt
      · rw [if_pos rfl] }

theorem proxyInv_take (hP : ProxyInv R P) {d : Dir} (hpost : P.posting = none)
    (hb : P.busy d = false) (h : P.head d < P.queued) : ProxyInv R (P.take d) := by
  have hq := hP.queue_room
  have hcur : P.queue (P.head d % qCap) = P.head d :=
    hP.queue _ (by cases d <;> simp) h
  have hmin : min (P.head .fwd) (P.head .bwd) ≤
      min ((P.take d).head .fwd) ((P.take d).head .bwd) := by
    cases d <;> simp [Proxy.take, Function.update]
  refine { hP with
    head_le := ?_
    queue_room := hq.trans (Nat.add_le_add_right hmin _)
    queue := fun i hlo hhi => hP.queue i (hmin.trans hlo) hhi
    cur := ?_
    cursor := ?_
    posting := fun d' h' => by simp [Proxy.take, hpost] at h'
    wqe := ?_ }
  · intro d'
    simp only [Proxy.take, Function.update_apply]
    split
    · exact h
    · exact hP.head_le d'
  · intro d'
    simp only [Proxy.take, Function.update_apply]
    split
    · rename_i he
      subst he
      intro _
      exact ⟨by rw [hcur], Nat.zero_le _⟩
    · exact hP.cur d'
  · intro d'
    have hc := hP.cursor d'
    simp only [Proxy.take, Function.update_apply]
    split
    · rename_i he
      subst he
      rw [if_pos rfl, hcur, hc, hb]
      rfl
    · exact hc
  · intro d' i hi
    obtain ⟨h1, h2, h3⟩ := hP.wqe d' i hi
    refine ⟨h1, h2, ?_⟩
    simp only [Proxy.take, Function.update_apply]
    split
    · rename_i he
      subst he
      exact Nat.lt_succ_of_lt h3
    · exact h3

theorem proxyInv_leave (hP : ProxyInv R P) {d : Dir} (hpost : P.posting = none)
    (hb : P.busy d = true) (h : (R.calls (P.cur d)).steps d ≤ P.step d) :
    ProxyInv R (P.leave d) := by
  refine { hP with
    cur := ?_
    cursor := ?_
    posting := fun d' h' => by simp [Proxy.leave, hpost] at h' }
  · intro d' hb'
    simp only [Proxy.leave, Function.update_apply] at hb'
    split at hb'
    · simp at hb'
    · exact hP.cur d' hb'
  · intro d'
    have hc := hP.cursor d'
    simp only [Proxy.leave, Function.update_apply]
    split
    · rename_i he
      subst he
      obtain ⟨h1, h2⟩ := hP.cur d' hb
      rw [hc, if_pos hb, if_neg (by simp), ← h1, le_antisymm h2 h]
      exact @place_len (fun c => (R.calls c).steps d') _
    · exact hc

theorem proxyInv_begin (hP : ProxyInv R P) {d : Dir} (hb : P.busy d = true)
    (h : P.step d < (R.calls (P.cur d)).steps d) : ProxyInv R (P.begin d) :=
  { hP with
    posting := fun d' h' => by
      obtain rfl := Option.some.inj (show some d = some d' from h')
      exact ⟨hb, h⟩ }

/-! ## The send queue -/

theorem proxyInv_post (hP : ProxyInv R P) {d : Dir} (hpost : P.posting = some d)
    (h : P.posted d - P.done d < itemRing - 1) : ProxyInv R (P.post R d) := by
  obtain ⟨hb, hs⟩ := hP.posting d hpost
  have hpos := posting_step hP hpost
  have hdone : P.done d ≤ P.posted d := ((hP.done_le d).trans (hP.flagged_le d)).trans
    (hP.data_le d)
  refine { hP with
    cur := ?_
    cursor := ?_
    posting := fun d' h' => by simp [Proxy.post] at h'
    wqe := ?_
    data_le := ?_
    ring_room := ?_
    ring := ?_ }
  · intro d' hb'
    simp only [Proxy.post, Function.update_apply] at hb' ⊢
    split
    · rename_i he
      subst he
      exact ⟨(hP.cur d' hb').1, hs⟩
    · exact hP.cur d' hb'
  · intro d'
    have hc := hP.cursor d'
    simp only [Proxy.post, Function.update_apply]
    split
    · rename_i he
      subst he
      rw [if_pos hb, hpos]
      rfl
    · exact hc
  · intro d' i hi
    simp only [Proxy.post, Function.update_apply] at hi ⊢
    by_cases he : d' = d ∧ i = P.posted d
    · obtain ⟨rfl, rfl⟩ := he
      rw [if_pos ⟨rfl, rfl⟩]
      exact ⟨hs, hpos.symm, by have := (hP.cur d' hb).1; omega⟩
    · rw [if_neg he]
      refine hP.wqe d' i ?_
      split at hi
      · rename_i hd
        exact lt_of_le_of_ne (by rw [hd]; omega) fun h => he ⟨hd, by rw [h, hd]⟩
      · exact hi
  · intro d'
    simp only [Proxy.post, Function.update_apply]
    split
    · rename_i he
      subst he
      exact (hP.data_le d').trans (Nat.le_succ _)
    · exact hP.data_le d'
  · intro d'
    simp only [Proxy.post, Function.update_apply]
    split
    · rename_i he
      subst he
      omega
    · exact hP.ring_room d'
  · intro d' i hlo hhi
    simp only [Proxy.post, Function.update_apply] at hlo hhi ⊢
    by_cases hd : d' = d
    · subst hd
      rw [if_pos rfl] at hhi
      simp only [true_and]
      rcases Nat.lt_succ_iff_lt_or_eq.mp hhi with hlt | rfl
      · -- an older entry's place is another one
        have hne : i % itemRing ≠ P.posted d' % itemRing := by
          unfold itemRing at h ⊢
          omega
        have hni : i ≠ P.posted d' := by omega
        simp only [if_neg hne, if_neg hni]
        exact hP.ring d' i hlo hlt
      · rw [if_pos rfl, if_pos rfl]
    · simp only [hd, false_and, if_false] at hhi ⊢
      exact hP.ring d' i hlo hhi

theorem proxyInv_drain (hP : ProxyInv R P) {d : Dir} (h : P.done d < P.flagged d) :
    ProxyInv R (P.drain d) := by
  have hlt : P.done d < P.posted d := h.trans_le ((hP.flagged_le d).trans (hP.data_le d))
  obtain ⟨hs, hat, -⟩ := hP.wqe d _ hlt
  have hring := hP.ring d _ le_rfl hlt
  refine { hP with
    done_le := ?_
    ring_room := ?_
    ring := ?_
    sendDone := ?_ }
  · intro d'
    simp only [Proxy.drain, Function.update_apply]
    split
    · rename_i he
      subst he
      exact h
    · exact hP.done_le d'
  · intro d'
    have := hP.ring_room d'
    simp only [Proxy.drain, Function.update_apply]
    split
    · rename_i he
      subst he
      omega
    · exact this
  · intro d' i hlo hhi
    refine hP.ring d' i (le_trans ?_ hlo) hhi
    simp only [Proxy.drain, Function.update_apply]
    split
    · rename_i he
      subst he
      exact Nat.le_succ _
    · exact le_rfl
  · intro d' c j hj
    have hold := hP.sendDone d' c j hj
    simp only [Proxy.drain, Function.update_apply]
    split
    swap
    · exact hold
    rename_i he
    subst he
    rw [hring]
    generalize P.wqe d' (P.done d') = e at hs hat
    have hj' : j < (R.calls c).steps d' := hj.trans_le (staged_le d')
    by_cases hst : e.2 < (R.calls e.1).staged d'
    · rw [if_pos hst]
      have h1 := stageAt_lt (R := R) hst hj
      have h2 := stepAt_lt (R := R) hs hj'
      rw [hat] at h2
      simp only
      omega
    · rw [if_neg hst]
      have hne : R.stepAt d' c j ≠ P.done d' := by
        rw [← hat]
        intro heq
        obtain ⟨rfl, rfl⟩ := stepAt_inj hj' hs heq
        exact hst hj
      simp only
      omega

/-! ## The wire -/

theorem proxyInv_land (hP : ProxyInv R P) {d : Dir} (h : P.data d < P.posted d)
    (h' : P.data d = P.flagged d) :
    ProxyInv R { P with data := Function.update P.data d (P.data d + 1) } := by
  refine { hP with
    flagged_le := fun d' => ?_
    data_le := fun d' => ?_
    data_le_succ := fun d' => ?_ }
  all_goals simp only [Function.update_apply]; split
  · subst_vars
    omega
  · exact hP.flagged_le d'
  · subst_vars
    exact h
  · exact hP.data_le d'
  · subst_vars
    omega
  · exact hP.data_le_succ d'

theorem proxyInv_raise (hP : ProxyInv R P) {d : Dir} (h : P.flagged d < P.data d) :
    ProxyInv R { P with flagged := Function.update P.flagged d (P.flagged d + 1) } := by
  refine { hP with
    done_le := fun d' => ?_
    flagged_le := fun d' => ?_
    data_le_succ := fun d' => ?_ }
  all_goals simp only [Function.update_apply]; split
  · subst_vars
    exact (hP.done_le _).trans (Nat.le_succ _)
  · exact hP.done_le d'
  · subst_vars
    exact h
  · exact hP.flagged_le d'
  · subst_vars
    exact (hP.data_le_succ _).trans (Nat.le_succ _)
  · exact hP.data_le_succ d'

end Ringside.PrefillRing.Protocol

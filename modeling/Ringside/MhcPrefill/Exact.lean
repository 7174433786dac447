import Ringside.MhcPrefill.Stack

/-!
# The sharded forward is the replicated one

Between the layers every rank holds a share of each tensor (`Holds`): its quarter of the rows, then
padding. Row-wise maps keep that; a gather in front of a consumer cuts the padding off. The proof
runs the four ranks beside the stack on full tensors (`Stack.fullForward`), which is a definition of
this file and no code: each part of a layer has a lemma that says what it does to shares.

* `ownerAt` is the ownership of a rank after so many collectives, and none in the replicated
  forward. The lemmas have it as a parameter, so both forwards are cases of one proof.
* The ranks meet in their collectives in order (the library's `Spmd`): who enters one waits for the
  others, and all four must enter the same kind with the same number of rows.
* `Enters`: layer 0 is entered with the full rows on every rank, the others with shares.
* Sums keep each row's order of additions, so the result is equality of floats and not of reals.
* What is asked of the layers: the mHC maps are row by row; attention and the FFN are any functions
  of all rows, different on each rank.

Results:
* `toFull_meets`, `exists_reduce_meets`: what the two collectives do to shares.
* `layer_meets`: one layer hands on what the layer on full tensors does.
* `pass_meets`: one turn of the loop, with the auxiliary state that it may capture.
* `existsUnique_owner`: every real row has one owner.
* `sharded_forward_exact`: the whole stack, with what every consumer was given and the collectives
  of every rank.
-/

namespace Ringside.MhcPrefill

open Spmd Shards

/-- The rows of one owner. -/
def quarter (rows : Nat) : Nat := (rows + 3) / 4

section Holds

variable {β γ δ : Type} {rows : Nat} {sharded : Bool}

/-- The ranks hold `T`: each its share of the rows, or each all of it. -/
structure Holds (rows : Nat) (sharded : Bool) (T : List β) (t : Fin 4 → List β) : Prop where
  length : T.length = rows
  length_share : sharded = true → ∀ r, (t r).length = quarter rows
  share : sharded = true → ∀ r : Fin 4, ∀ j < quarter rows, r * quarter rows + j < rows →
    (t r)[j]? = T[r * quarter rows + j]?
  full : sharded = false → ∀ r, t r = T

/-- A row-wise map. -/
theorem Holds.map {T : List β} {t : Fin 4 → List β} (h : Holds rows sharded T t) (f : β → γ) :
    Holds rows sharded (T.map f) fun r => (t r).map f where
  length := by rw [List.length_map, h.length]
  length_share hs r := by rw [List.length_map, h.length_share hs]
  share hs r j hj hlt := by rw [List.getElem?_map, List.getElem?_map, h.share hs r j hj hlt]
  full hs r := by rw [h.full hs]

theorem Holds.zip {T : List β} {t : Fin 4 → List β} {U : List γ} {u : Fin 4 → List γ}
    (h : Holds rows sharded T t) (h' : Holds rows sharded U u) :
    Holds rows sharded (T.zip U) fun r => (t r).zip (u r) where
  length := by rw [List.length_zip, h.length, h'.length, Nat.min_self]
  length_share hs r := by rw [List.length_zip, h.length_share hs, h'.length_share hs, Nat.min_self]
  share hs r j hj hlt := by
    simp only [List.zip, List.getElem?_zipWith, h.share hs r j hj hlt, h'.share hs r j hj hlt]
  full hs r := by rw [h.full hs, h'.full hs]

theorem rows_le (rows : Nat) : rows ≤ 4 * quarter rows := by unfold quarter; omega

theorem Holds.length_byRank {T : List β} {t : Fin 4 → List β} (h : Holds rows true T t) :
    ∀ r < 4, (byRank t r).length = quarter rows := by
  intro r hr
  rw [byRank, dif_pos hr, h.length_share rfl]

/-- **Gathered shares, cut to the rows, are the tensor.** -/
theorem Holds.take_gather {T : List β} {t : Fin 4 → List β} (h : Holds rows true T t) :
    (gather 4 (byRank t)).take rows = T := by
  rw [← h.length]
  refine Shards.take_gather h.length_byRank (h.length.trans_le (rows_le rows)) fun r hr
    j hj hlt => ?_
  rw [byRank, dif_pos hr]
  exact h.share rfl ⟨r, hr⟩ j hj (h.length ▸ hlt)

end Holds

/-! ## The collectives on shares

The two forwards differ in their collectives only: a gather gives a consumer the full rows, and a
reduction leaves each owner the sum for its own ones. What is padded for them is cut off again.
-/

section Collectives

variable {H S P Q : Type} [Zero H] [Zero S] [Zero P] [Zero Q] {rows : Nat} {sharded : Bool}
  (hrows : 1 ≤ rows ∧ rows ≤ maxRows)

/-- The ownership of rank `r` after so many collectives; none in the replicated forward. -/
def ownerAt (sharded : Bool) (rs ag : Nat) (r : Fin 4) : Option PrefillOwnership :=
  if sharded then some ⟨r, rows, rs, ag, hrows.1, hrows.2, r.isLt⟩ else none

def gatherKinds (sharded : Bool) : List Kind := if sharded then [.allGather] else []

def reduceKinds (sharded : Bool) : List Kind := if sharded then [.reduceScatter] else [.allReduce]

theorem meets_collective (add : Nat → (Fin 4 → H) → H) (q : Fin 4 → Collective H) {k : Kind}
    (hk : ∀ r, (q r).kind = k) :
    Meets (serve add) Collective.kind (fun r => collective (q r)) [k] (serve add q) :=
  Meets.ask q hk

/-- The ranks' own rows of a full tensor. -/
theorem exists_localView {β : Type} [Zero β] (o : PrefillOwnership) {T : List β}
    (hT : T.length = o.rows) :
    ∃ t, o.localView T = .ok t ∧ t.length = o.ownerRows ∧
      ∀ j < o.ownerRows, o.rank * o.ownerRows + j < o.rows →
      t[j]? = T[o.rank * o.ownerRows + j]? := by
  unfold PrefillOwnership.localView
  simp only [hT, ne_eq, not_true_eq_false, if_false]
  split_ifs with hin
  · refine ⟨_, rfl, by rw [List.length_take, List.length_drop]; omega, fun j hj _ => ?_⟩
    rw [List.getElem?_take_of_lt hj, List.getElem?_drop]
  · refine ⟨_, rfl, ?_, fun j hj hlt => ?_⟩
    · have : o.validRows ≤ o.ownerRows := Nat.min_le_left _ _
      have : o.validRows ≤ o.rows - o.rank * o.ownerRows := Nat.min_le_right _ _
      rw [List.length_append, List.length_take, List.length_drop, List.length_replicate]
      omega
    · have hv : j < o.validRows := Nat.lt_min.mpr ⟨hj, by omega⟩
      rw [List.getElem?_append_left, List.getElem?_take_of_lt hv, List.getElem?_drop]
      rw [List.length_take, List.length_drop]
      omega

omit [Zero H] in
theorem toFull_some (o : PrefillOwnership) {t : List H} (h : t.length = o.ownerRows) :
    toFull (some o) t = collective (.allGather t) >>= fun output =>
      pure (if o.paddedRows = o.rows then output else output.take o.rows,
        some { o with agCount := o.agCount + 1 }) := by
  have hcheck : PrefillOwnership.check t o.ownerRows = .ok () := by
    simp [PrefillOwnership.check, h]; rfl
  simp only [toFull, PrefillOwnership.allGather, hcheck, bind_assoc, pure_bind]
  rfl

theorem reduce_some (o : PrefillOwnership) {p : List H} (h : p.length = o.rows) :
    reduce (some o) p =
      collective (.reduceScatter (if o.paddedRows ≠ o.rows then
      p ++ List.replicate (o.paddedRows - o.rows) 0
        else p)) >>= fun output => pure (output, some { o with rsCount := o.rsCount + 1 }) := by
  have hcheck : PrefillOwnership.check p o.rows = .ok () := by
    simp [PrefillOwnership.check, h]; rfl
  simp only [reduce, PrefillOwnership.reduceScatter, hcheck, bind_assoc, pure_bind]
  rfl

/-- **A consumer's input**: the owners' rows come back as the full tensor. -/
theorem toFull_meets (add : Nat → (Fin 4 → H) → H) {T : List H} {t : Fin 4 → List H}
    (h : Holds rows sharded T t) (rs ag : Nat) :
    Meets (serve add) Collective.kind (fun r => toFull (ownerAt hrows sharded rs ag r) (t r))
      (gatherKinds sharded) fun r => (T, ownerAt hrows sharded rs (ag + 1) r) := by
  cases sharded with
  | false =>
    simp only [ownerAt, toFull, gatherKinds, h.full rfl, Bool.false_eq_true, if_false]
    exact Meets.pure _
  | true =>
    have hT : (if 4 * quarter rows = rows then gather 4 (byRank t)
      else (gather 4 (byRank t)).take rows) = T := by
      split_ifs with heq
      · rw [← h.take_gather, List.take_of_length_le]
        rw [length_gather h.length_byRank, heq]
      · exact h.take_gather
    have hcall := (meets_collective add (fun r => .allGather (t r)) (fun _ => rfl)).bind_pure
      fun r output => (if 4 * quarter rows = rows then output else output.take rows,
        ownerAt hrows true rs (ag + 1) r)
    refine (congrArg₂ (fun p o => Meets (serve add) Collective.kind p [.allGather] o)
      (funext fun r => ?_) (funext fun r => ?_)).mp hcall
    · exact (toFull_some ⟨r, rows, rs, ag, hrows.1, hrows.2, r.isLt⟩ (h.length_share rfl r)).symm
    · exact congrArg (·, ownerAt hrows true rs (ag + 1) r) hT

/-- The zero-padded partial of a rank. -/
theorem getD_pad {p : List H} {n i : Nat} : (p ++ List.replicate n 0).getD i 0 = p.getD i 0 := by
  rw [List.getD_eq_getElem?_getD, List.getD_eq_getElem?_getD]
  rcases lt_or_ge i p.length with hi | hi
  · rw [List.getElem?_append_left hi]
  · rw [List.getElem?_append_right hi, List.getElem?_eq_none hi, List.getElem?_replicate]
    split_ifs <;> rfl

/-- **The sum of the partials** goes to the owners, every row in its order of additions. -/
theorem exists_reduce_meets (sharded : Bool) (add : Nat → (Fin 4 → H) → H) {p : Fin 4 → List H}
    (hp : ∀ r, (p r).length = rows) (rs ag : Nat) :
    ∃ t, Meets (serve add) Collective.kind (fun r => reduce (ownerAt hrows sharded rs ag r) (p r))
      (reduceKinds sharded) (fun r => (t r, ownerAt hrows sharded (rs + 1) ag r)) ∧
      Holds rows sharded (sumRows add rows p) t := by
  cases sharded with
  | false =>
    refine ⟨fun _ => sumRows add rows p, ?_, ?_⟩
    · have hcall := (meets_collective add (fun r => .allReduce (p r)) (fun _ => rfl)).bind_pure
        fun _ x => (x, (none : Option PrefillOwnership))
      refine (congrArg₂ (fun p o => Meets (serve add) Collective.kind p [.allReduce] o)
        (funext fun r => rfl) (funext fun r => ?_)).mp hcall
      simp only [serve, hp]
      rfl
    · exact ⟨by simp [sumRows], nofun, nofun, fun _ _ => rfl⟩
  | true =>
    let o : Fin 4 → PrefillOwnership := fun r => ⟨r, rows, rs, ag, hrows.1, hrows.2, r.isLt⟩
    let source : Fin 4 → List H := fun r =>
      if 4 * quarter rows ≠ rows then p r ++ List.replicate (4 * quarter rows - rows) 0 else p r
    have hlen : ∀ r, (source r).length = 4 * quarter rows := by
      intro r
      have := rows_le rows
      simp only [source]
      split_ifs with hpad
      · rw [List.length_append, hp, List.length_replicate]
        omega
      · rw [hp]
        omega
    have hgetD : ∀ r i, (source r).getD i 0 = (p r).getD i 0 := by
      intro r i
      simp only [source]
      split_ifs
      · exact getD_pad
      · rfl
    have hserve : ∀ r : Fin 4, serve add (fun r => .reduceScatter (source r)) r =
        (List.range (quarter rows)).map fun j => sumRow add p (r * quarter rows + j) := by
      intro r
      simp only [serve, hlen, Nat.mul_div_cancel_left _ (show 0 < 4 by decide), Collective.rows,
        sumRow, hgetD]
    refine ⟨fun r => (List.range (quarter rows)).map fun j =>
      sumRow add p (r * quarter rows + j), ?_, ?_⟩
    · have hcall := (meets_collective add (fun r => .reduceScatter (source r))
        (fun _ => rfl)).bind_pure
        fun r x => (x, ownerAt hrows true (rs + 1) ag r)
      refine (congrArg₂ (fun p o => Meets (serve add) Collective.kind p [.reduceScatter] o)
        (funext fun r => ?_) (funext fun r => ?_)).mp hcall
      · exact (reduce_some (o r) (hp r)).symm
      · exact congrArg (·, ownerAt hrows true (rs + 1) ag r) (hserve r)
    · refine ⟨by simp [sumRows], fun _ r => by simp, fun _ r j hj hlt => ?_, nofun⟩
      rw [List.getElem?_map, List.getElem?_range hj, sumRows, List.getElem?_map,
        List.getElem?_range hlt]
      rfl

end Collectives

/-! ## One layer

A layer on full tensors is the common reference: the replicated forward computes it on every rank,
and the sharded one computes it on shares. Maps that work row by row commute with taking shares;
only attention and the FFN need all rows, and get them by a gather.
-/

section Layer

variable {H S P Q : Type} {rows : Nat} {sharded : Bool}

/-- The ranks hold the state a layer deferred. -/
structure HoldsState (rows : Nat) (sharded : Bool) (D : Deferred S P Q)
    (d : Fin 4 → Deferred S P Q) :
    Prop where
  residual : Holds rows sharded D.residual fun r => (d r).residual
  post : Holds rows sharded D.post fun r => (d r).post
  comb : Holds rows sharded D.comb fun r => (d r).comb

theorem Holds.fusedPostPre {X : List H} {x : Fin 4 → List H} {D : Deferred S P Q}
    {d : Fin 4 → Deferred S P Q} (hx : Holds rows sharded X x) (hd : HoldsState rows sharded D d)
    (f : H → S → P → Q → S × P × Q × H) :
    HoldsState rows sharded (fusedPostPre f X D).1 (fun r => (fusedPostPre f (x r) (d r)).1) ∧
      Holds rows sharded (fusedPostPre f X D).2 fun r => (fusedPostPre f (x r) (d r)).2 := by
  have h := (hx.zip (hd.residual.zip (hd.post.zip hd.comb))).map fun y =>
    f y.1 y.2.1 y.2.2.1 y.2.2.2
  exact ⟨⟨h.map _, h.map _, h.map _⟩, h.map _⟩

variable (m : Stack H S P Q)

theorem Holds.postContract {X : List H} {x : Fin 4 → List H} {D : Deferred S P Q}
    {d : Fin 4 → Deferred S P Q} (hx : Holds rows sharded X x) (hd : HoldsState rows sharded D d)
    (idx : Nat) : Holds rows sharded (m.postContract idx X D) fun r =>
      m.postContract idx (x r) (d r) :=
  (hx.zip (hd.residual.zip (hd.post.zip hd.comb))).map fun y =>
    m.hcContract (m.hcPost idx y.1 y.2.1 y.2.2.1 y.2.2.2)

/-- What the ranks hand on is what the replicated forward hands on. -/
def Carried (rows : Nat) (sharded : Bool) (C : Carry H S P Q) (c : Fin 4 → Carry H S P Q) : Prop :=
  Holds rows sharded C.x (fun r => (c r).x) ∧
    match C.deferred with
    | none => ∀ r, (c r).deferred = none
    | some D => ∃ d, (∀ r, (c r).deferred = some (d r)) ∧ HoldsState rows sharded D d

theorem Carried.auxState {C : Carry H S P Q} {c : Fin 4 → Carry H S P Q}
    (h : Carried rows sharded C c)
    (idx : Nat) : Holds rows sharded (m.auxState idx C) fun r => m.auxState idx (c r) := by
  obtain ⟨hx, hd⟩ := h
  unfold Stack.auxState
  cases hC : C.deferred with
  | none =>
    rw [hC] at hd
    simpa only [hd] using hx
  | some D =>
    rw [hC] at hd
    obtain ⟨d, hsome, hstate⟩ := hd
    simpa only [hsome] using hx.postContract m hstate idx

theorem Holds.handOn {X : List H} {x : Fin 4 → List H} {D : Deferred S P Q}
    {d : Fin 4 → Deferred S P Q}
    (hx : Holds rows sharded X x) (hd : HoldsState rows sharded D d) (idx : Nat) :
    Carried rows sharded (m.handOn idx X D) fun r => m.handOn idx (x r) (d r) := by
  unfold Stack.handOn
  split_ifs
  · exact ⟨hx.postContract m hd idx, fun _ => rfl⟩
  · exact ⟨hx, d, fun _ => rfl, hd⟩

variable [Zero H] (add : Nat → (Fin 4 → H) → H)

/-- The full attention input of a layer, and the state beside it. -/
def Stack.fullPre (idx : Nat) (C : Carry H S P Q) : Deferred S P Q × List H :=
  match C.deferred with
  | none => m.firstPre C.x
  | some D => fusedPostPre (m.hcAttn idx) C.x D

/-- A layer on full tensors: what it hands on, and its two consumers' inputs. -/
def Stack.fullLayer (rows idx : Nat) (C : Carry H S P Q) : Carry H S P Q × List (List H) :=
  let (D, attnIn) := m.fullPre idx C
  let X := sumRows add rows fun r => m.selfAttn idx r attnIn
  let (D, ffnIn) := fusedPostPre (m.hcFfn idx) X D
  let X := sumRows add rows fun r => m.mlp idx r ffnIn
  (m.handOn idx X D, [attnIn, ffnIn])

variable [Zero S] [Zero P] [Zero Q] (hrows : 1 ≤ rows ∧ rows ≤ maxRows)

theorem exists_localState (sharded : Bool) {D : Deferred S P Q} (hr : D.residual.length = rows)
    (hp : D.post.length = rows)
    (hc : D.comb.length = rows) (rs ag : Nat) :
    ∃ d : Fin 4 → Deferred S P Q, (∀ r, localState (ownerAt hrows sharded rs ag r) D = .ok (d r)) ∧
      HoldsState rows sharded D d := by
  cases sharded with
  | false =>
    exact ⟨fun _ => D, fun _ => rfl, ⟨hr, nofun, nofun, fun _ _ => rfl⟩,
      ⟨hp, nofun, nofun, fun _ _ => rfl⟩, ⟨hc, nofun, nofun, fun _ _ => rfl⟩⟩
  | true =>
    let o : Fin 4 → PrefillOwnership := fun r => ⟨r, rows, rs, ag, hrows.1, hrows.2, r.isLt⟩
    choose R hR hRlen hRrow using fun r => exists_localView (o r) hr
    choose P' hP hPlen hProw using fun r => exists_localView (o r) hp
    choose C hC hClen hCrow using fun r => exists_localView (o r) hc
    refine ⟨fun r => ⟨R r, P' r, C r⟩, fun r => ?_, ⟨hr, fun _ => hRlen, fun _ => hRrow, nofun⟩,
      ⟨hp, fun _ => hPlen, fun _ => hProw, nofun⟩, ⟨hc, fun _ => hClen, fun _ => hCrow, nofun⟩⟩
    show localState (some (o r)) D = _
    simp only [localState, hR, hP, hC]
    rfl

/-- What a layer is entered with: layer 0 with the full rows on every rank, the others with shares.
-/
def Enters (rows : Nat) (sharded : Bool) (C : Carry H S P Q) (c : Fin 4 → Carry H S P Q) : Prop :=
  match C.deferred with
  | none => C.x.length = rows ∧ ∀ r, c r = C
  | some _ => Carried rows sharded C c

/-- Gathers in front of attention. -/
def preGathers (C : Carry H S P Q) : Nat := if C.deferred.isSome then 1 else 0

def preKinds (sharded : Bool) (C : Carry H S P Q) : List Kind :=
  if C.deferred.isSome then gatherKinds sharded else []

omit [Zero H] [Zero S] [Zero P] [Zero Q] in
theorem Carried.enters {C : Carry H S P Q} {c : Fin 4 → Carry H S P Q}
    (h : Carried rows sharded C c)
    (hC : preGathers C = 1) : Enters rows sharded C c := by
  obtain ⟨X, D⟩ := C
  cases D with
  | none => cases hC
  | some D => exact h

theorem attnPre_meets (idx : Nat) {C : Carry H S P Q} {c : Fin 4 → Carry H S P Q}
    (h : Enters rows sharded C c) (rs ag : Nat) :
    ∃ d, Meets (serve add) Collective.kind
        (fun r => m.attnPre idx (c r) (ownerAt hrows sharded rs ag r)) (preKinds sharded C)
        (fun r => (d r, (m.fullPre idx C).2, ownerAt hrows sharded rs (ag + preGathers C) r)) ∧
      HoldsState rows sharded (m.fullPre idx C).1 d ∧ (m.fullPre idx C).2.length = rows := by
  obtain ⟨X, D⟩ := C
  cases D with
  | none =>
    obtain ⟨hlen, hc⟩ := h
    obtain ⟨d, hd, hstate⟩ := exists_localState hrows sharded (D := (m.firstPre X).1)
      (by simpa [Stack.firstPre] using hlen) (by simpa [Stack.firstPre] using hlen)
      (by simpa [Stack.firstPre] using hlen) rs ag
    refine ⟨d, ?_, hstate, by simpa [Stack.fullPre, Stack.firstPre] using hlen⟩
    have hrun : ∀ r, m.attnPre idx (c r) (ownerAt hrows sharded rs ag r) =
        pure (d r, (m.firstPre X).2, ownerAt hrows sharded rs ag r) := by
      intro r
      simp only [hc r, Stack.attnPre, hd r]
      rfl
    simp only [hrun]
    exact Meets.pure _
  | some D =>
    obtain ⟨hx, d, hsome, hstate⟩ := h
    obtain ⟨hstate', hx'⟩ := hx.fusedPostPre hstate (m.hcAttn idx)
    refine ⟨_, ?_, hstate', hx'.length⟩
    have hrun : ∀ r, m.attnPre idx (c r) (ownerAt hrows sharded rs ag r) =
        toFull (ownerAt hrows sharded rs ag r) (fusedPostPre (m.hcAttn idx) (c r).x (d r)).2 >>=
          fun y => pure ((fusedPostPre (m.hcAttn idx) (c r).x (d r)).1, y) := by
      intro r
      simp only [Stack.attnPre, hsome r]
    simp only [hrun]
    exact (toFull_meets hrows add hx' rs ag).bind_pure
      fun r y => ((fusedPostPre (m.hcAttn idx) (c r).x (d r)).1, y)

/-- The kinds of a layer's collectives. -/
def layerKinds (sharded : Bool) (C : Carry H S P Q) : List Kind :=
  preKinds sharded C ++ (reduceKinds sharded ++ (gatherKinds sharded ++ reduceKinds sharded))

/-- **One layer** hands on what the layer on full tensors does. -/
theorem layer_meets (idx : Nat) {C : Carry H S P Q} {c : Fin 4 → Carry H S P Q}
    (h : Enters rows sharded C c) (rs ag : Nat) :
    ∃ c', Meets (serve add) Collective.kind
        (fun r => m.layer r idx (c r) (ownerAt hrows sharded rs ag r)) (layerKinds sharded C)
        (fun r => (c' r, ownerAt hrows sharded (rs + 2) (ag + preGathers C + 1) r,
          (m.fullLayer add rows idx C).2)) ∧
      Carried rows sharded (m.fullLayer add rows idx C).1 c' ∧
      ∀ t ∈ (m.fullLayer add rows idx C).2, t.length = rows := by
  obtain ⟨d, hpre, hd, hlen⟩ := attnPre_meets m add hrows idx h rs ag
  obtain ⟨x, hattn, hx⟩ := exists_reduce_meets hrows sharded add
    (p := fun r => m.selfAttn idx r (m.fullPre idx C).2) (fun r => by rw [m.length_selfAttn, hlen])
    rs (ag + preGathers C)
  obtain ⟨hd', hx'⟩ := hx.fusedPostPre hd (m.hcFfn idx)
  have hgather := toFull_meets hrows add hx' (rs + 1) (ag + preGathers C)
  obtain ⟨y, hffn, hy⟩ := exists_reduce_meets hrows sharded add
    (p := fun r => m.mlp idx r (fusedPostPre (m.hcFfn idx) (sumRows add rows fun r =>
      m.selfAttn idx r (m.fullPre idx C).2) (m.fullPre idx C).1).2)
    (fun r => by rw [m.length_mlp, hx'.length]) (rs + 1) (ag + preGathers C + 1)
  have hout := hffn.bind_pure fun r y =>
    (m.handOn idx y.1 (fusedPostPre (m.hcFfn idx) (x r) (d r)).1, y.2,
    [(m.fullPre idx C).2, (fusedPostPre (m.hcFfn idx) (sumRows add rows fun r =>
      m.selfAttn idx r (m.fullPre idx C).2) (m.fullPre idx C).1).2])
  refine ⟨_, hpre.bind (hattn.bind (hgather.bind hout)), hy.handOn m hd' idx, fun t ht => ?_⟩
  rcases List.mem_pair.mp ht with rfl | rfl
  · exact hlen
  · exact hx'.length

end Layer

/-! ## The stack

The induction is on the layers, for both forwards at once: after each, the ranks hold what the loop
on full tensors has, and have made the same collectives in the same order.
-/

section Forward

variable {H S P Q : Type} [Zero H] [Zero S] [Zero P] [Zero Q] {rows : Nat} {sharded : Bool}
  (m : Stack H S P Q) (add : Nat → (Fin 4 → H) → H) (hrows : 1 ≤ rows ∧ rows ≤ maxRows)

/-- The loop on full tensors. -/
structure Full (H S P Q : Type) where
  carry : Carry H S P Q
  aux : List (List H)
  seen : List (List H)

/-- The auxiliary states that layer `idx` adds. -/
def Stack.captured (auxLayerIds : List Nat) (idx : Nat) (C : Carry H S P Q) : List (List H) :=
  if idx + 1 ∈ auxLayerIds then [m.auxState idx C] else []

def Stack.fullPass (rows : Nat) (auxLayerIds : List Nat) (a : Full H S P Q) (idx : Nat) :
    Full H S P Q :=
  let (c, seen) := m.fullLayer add rows idx a.carry
  ⟨c, a.aux ++ m.captured auxLayerIds idx c, a.seen ++ seen⟩

/-- The ranks after `n` layers, beside the loop on full tensors. -/
structure After (sharded : Bool) (n : Nat) (F : Full H S P Q) (a : Fin 4 → Pass H S P Q)
    (ks : List Kind) :
    Prop where
  enters : n < m.numHiddenLayers → Enters rows sharded F.carry fun r => (a r).carry
  carried : 0 < n → Carried rows sharded F.carry fun r => (a r).carry
  gathers : n < m.numHiddenLayers → preGathers F.carry = if n = 0 then 0 else 1
  owner : ∀ r, (a r).owner = ownerAt hrows sharded (2 * n) (2 * n - 1 + F.aux.length) r
  auxGathers : sharded = true → ∀ r, (a r).auxGathers = F.aux.length
  aux : ∀ r, (a r).aux = F.aux
  seen : ∀ r, (a r).seen = F.seen
  length : ∀ t ∈ F.aux ++ F.seen, t.length = rows
  scatters : sharded = true → ks.count .reduceScatter = 2 * n
  gathered : sharded = true → ks.count .allGather = 2 * n - 1 + F.aux.length
  onlyOwners : sharded = true → ks.count .allReduce = 0

omit [Zero S] [Zero P] [Zero Q] in
theorem capture_meets (auxLayerIds : List Nat) (idx : Nat) {C : Carry H S P Q}
    {a : Fin 4 → Pass H S P Q}
    (h : Carried rows sharded C fun r => (a r).carry) {rs ag : Nat}
    (ho : ∀ r, (a r).owner = ownerAt hrows sharded rs ag r) :
    ∃ ks a', Meets (serve add) Collective.kind (fun r => m.capture auxLayerIds idx (a r)) ks a' ∧
      (∀ r, (a' r).carry = (a r).carry ∧ (a' r).seen = (a r).seen ∧
        (a' r).aux = (a r).aux ++ m.captured auxLayerIds idx C ∧
        (a' r).owner = ownerAt hrows sharded rs (ag + (m.captured auxLayerIds idx C).length) r ∧
        (sharded = true → (a' r).auxGathers =
        (a r).auxGathers + (m.captured auxLayerIds idx C).length)) ∧
      (sharded = true → ks = List.replicate (m.captured auxLayerIds idx C).length .allGather) := by
  have haux := h.auxState m idx
  unfold Stack.capture Stack.captured
  split_ifs with hid
  · have hrun := (toFull_meets hrows add haux rs ag).bind_pure fun r y =>
      (⟨(a r).carry, y.2, if y.2.isSome then (a r).auxGathers + 1 else (a r).auxGathers,
        (a r).aux ++ [y.1], (a r).seen⟩ : Pass H S P Q)
    simp only [ho]
    refine ⟨_, _, hrun, ?_, ?_⟩
    · refine fun r => ⟨rfl, rfl, rfl, rfl, ?_⟩
      rintro rfl
      rfl
    · rintro rfl
      rfl
  · exact ⟨[], a, Meets.pure a, fun r => ⟨rfl, rfl, (List.append_nil _).symm, ho r, fun _ => rfl⟩,
      fun _ => rfl⟩

omit [Zero H] [Zero S] [Zero P] [Zero Q] in
theorem count_layerKinds (C : Carry H S P Q) :
    (layerKinds true C).count .reduceScatter = 2 ∧ (layerKinds true C).count .allGather =
    preGathers C + 1 ∧ (layerKinds true C).count .allReduce = 0 := by
  unfold layerKinds preKinds preGathers
  split_ifs <;> decide

omit [Zero S] [Zero P] [Zero Q] in
theorem preGathers_fullLayer {idx : Nat} (hidx : idx + 1 < m.numHiddenLayers) (C : Carry H S P Q) :
    preGathers (m.fullLayer add rows idx C).1 = 1 := by
  simp [Stack.fullLayer, Stack.handOn, preGathers, hidx.ne]

/-- **One layer of the loop.** -/
theorem pass_meets (auxLayerIds : List Nat) {n : Nat} {F : Full H S P Q} {a : Fin 4 → Pass H S P Q}
    {ks : List Kind} (h : After m hrows sharded n F a ks) (hn : n < m.numHiddenLayers) :
    ∃ ks' a', Meets (serve add) Collective.kind (fun r => m.pass auxLayerIds r (a r) n) ks' a' ∧
      After m hrows sharded (n + 1) (m.fullPass add rows auxLayerIds F n) a' (ks ++ ks') := by
  obtain ⟨c', hlayer, hcar, hlen⟩ :=
    layer_meets m add hrows n (h.enters hn) (2 * n) (2 * n - 1 + F.aux.length)
  obtain ⟨ks', a', hcapture, ha', hks'⟩ := capture_meets m add hrows auxLayerIds n
    (a := fun r => ⟨c' r,
      ownerAt hrows sharded (2 * n + 2) (2 * n - 1 + F.aux.length + preGathers F.carry + 1) r,
      (a r).auxGathers, (a r).aux, (a r).seen ++ (m.fullLayer add rows n F.carry).2⟩)
      hcar fun r => rfl
  dsimp only at ha'
  have hcar' : Carried rows sharded (m.fullPass add rows auxLayerIds F n).carry fun r =>
    (a' r).carry := by
    simp only [(ha' _).1]
    exact hcar
  have hag : 2 * n - 1 + F.aux.length + preGathers F.carry + 1 =
    2 * (n + 1) - 1 + F.aux.length := by
    rw [h.gathers hn]
    split_ifs <;> omega
  have hlength : (m.fullPass add rows auxLayerIds F n).aux.length =
      F.aux.length + (m.captured auxLayerIds n (m.fullLayer add rows n F.carry).1).length := by
    simp [Stack.fullPass]
  refine ⟨layerKinds sharded F.carry ++ ks', a', ?_, ?_⟩
  · simp only [Stack.pass, h.owner]
    exact hlayer.bind hcapture
  · constructor
    case enters =>
      intro hlt
      exact hcar'.enters (preGathers_fullLayer m add hlt F.carry)
    case carried =>
      intro _
      exact hcar'
    case gathers =>
      intro hlt
      exact preGathers_fullLayer m add hlt F.carry
    case owner =>
      intro r
      rw [(ha' r).2.2.2.1, hag, hlength, Nat.add_assoc]
      rfl
    case auxGathers =>
      intro hs r
      rw [(ha' r).2.2.2.2 hs, hlength, ← h.auxGathers hs r]
    case aux =>
      intro r
      rw [(ha' r).2.2.1, h.aux]
      rfl
    case seen =>
      intro r
      rw [(ha' r).2.1, h.seen]
      rfl
    case length =>
      intro t ht
      have hcaptured : ∀ t ∈ m.captured auxLayerIds n (m.fullLayer add rows n F.carry).1,
        t.length = rows := by
        intro t ht
        simp only [Stack.captured] at ht
        split_ifs at ht
        · rw [List.mem_singleton.mp ht, (hcar.auxState m n).length]
        · simp at ht
      simp only [Stack.fullPass, List.mem_append] at ht
      rcases ht with (ht | ht) | ht | ht
      · exact h.length t (List.mem_append_left _ ht)
      · exact hcaptured t ht
      · exact h.length t (List.mem_append_right _ ht)
      · exact hlen t ht
    case scatters =>
      intro hs
      subst hs
      rw [List.count_append, List.count_append, h.scatters rfl,
        (count_layerKinds F.carry).1, hks' rfl, List.count_replicate]
      rfl
    case gathered =>
      intro hs
      subst hs
      rw [List.count_append, List.count_append, h.gathered rfl,
        (count_layerKinds F.carry).2.1, hks' rfl, List.count_replicate_self, hlength]
      omega
    case onlyOwners =>
      intro hs
      subst hs
      rw [List.count_append, List.count_append, h.onlyOwners rfl,
        (count_layerKinds F.carry).2.2, hks' rfl, List.count_replicate]
      rfl

omit [Zero H] [Zero S] [Zero P] [Zero Q] in
theorem after_start {x : List H} (hx : x.length = rows) :
    After m hrows sharded 0 ⟨⟨x, none⟩, [], []⟩
      (fun r => ⟨⟨x, none⟩, ownerAt hrows sharded 0 0 r, 0, [], []⟩) [] where
  enters _ := ⟨hx, fun _ => rfl⟩
  carried h := absurd h (lt_irrefl 0)
  gathers _ := rfl
  owner _ := rfl
  auxGathers _ _ := rfl
  aux _ := rfl
  seen _ := rfl
  length _ h := nomatch h
  scatters _ := rfl
  gathered _ := rfl
  onlyOwners _ := rfl

def Stack.fullLoop (auxLayerIds : List Nat) (x : List H) : Full H S P Q :=
  (List.range m.numHiddenLayers).foldl (m.fullPass add x.length auxLayerIds) ⟨⟨x, none⟩, [], []⟩

/-- The forward on full tensors. -/
def Stack.fullForward (auxLayerIds : List Nat) (x : List H) : Out H :=
  let F := m.fullLoop add auxLayerIds x
  ⟨F.carry.x.map m.norm, F.aux, F.seen⟩

/-- Both forwards, from ranks that hold all rows or a share of them. -/
theorem forward_meets (sharded : Bool) (hL : 0 < m.numHiddenLayers) (auxLayerIds : List Nat)
    {x : List H} (hrows : 1 ≤ x.length ∧ x.length ≤ maxRows) :
    ∃ ks, Meets (serve add) Collective.kind
        (fun r => m.forward auxLayerIds x (ownerAt hrows sharded 0 0 r) r) ks
        (fun _ => m.fullForward add auxLayerIds x) ∧
      (∀ t ∈ (m.fullForward add auxLayerIds x).hidden :: ((m.fullForward add auxLayerIds x).aux ++
        (m.fullForward add auxLayerIds x).seen), t.length = x.length) ∧
      (sharded = true → ks.count .reduceScatter = 2 * m.numHiddenLayers ∧
        ks.count .allGather = 2 * m.numHiddenLayers + (m.fullForward add auxLayerIds x).aux.length ∧
        ks.count .allReduce = 0) := by
  obtain ⟨ks, a, hloop, ha⟩ := Meets.foldlM_range (After m hrows sharded)
    (fun n hn F a ks h => pass_meets m add hrows auxLayerIds h hn) (after_start m hrows rfl)
  change After m hrows sharded m.numHiddenLayers (m.fullLoop add auxLayerIds x) a ks at ha
  obtain ⟨hx, -⟩ := ha.carried hL
  have hgather := toFull_meets hrows add hx (2 * m.numHiddenLayers)
    (2 * m.numHiddenLayers - 1 + (m.fullForward add auxLayerIds x).aux.length)
  have hfinish : ∀ r, (ownerAt hrows sharded (2 * m.numHiddenLayers)
      (2 * m.numHiddenLayers - 1 + (m.fullForward add auxLayerIds x).aux.length + 1)
        r).elim (pure ())
        (fun o => o.finish m.numHiddenLayers (a r).auxGathers) =
          (Except.ok () : Except String Unit) := by
    intro r
    cases sharded with
    | false => rfl
    | true =>
      have haux : (m.fullForward add auxLayerIds x).aux.length = (a r).auxGathers :=
        (ha.auxGathers rfl r).symm
      simp only [ownerAt, if_true, Option.elim, PrefillOwnership.finish, haux]
      rw [if_neg (by omega)]
      rfl
  refine ⟨ks ++ gatherKinds sharded, ?_, ?_, ?_⟩
  · let last : Fin 4 → List H × Option PrefillOwnership → Rank H (Out H) := fun r y =>
      ((y.2.elim (pure ()) fun o => o.finish m.numHiddenLayers (a r).auxGathers :
        Except String Unit) :
        Rank H Unit) >>= fun _ => pure ⟨y.1.map m.norm, (a r).aux, (a r).seen⟩
    have hlast : Meets (serve add) Collective.kind
      (fun r => last r ((m.fullLoop add auxLayerIds x).carry.x,
        ownerAt hrows sharded (2 * m.numHiddenLayers)
          (2 * m.numHiddenLayers - 1 + (m.fullForward add auxLayerIds x).aux.length + 1) r))
        [] fun _ => m.fullForward add auxLayerIds x := by
      simp only [last, hfinish, ha.aux, ha.seen]
      exact Meets.pure _
    have hend := hgather.bind hlast
    rw [List.append_nil] at hend
    refine hloop.bind ?_
    simp only [ha.owner]
    exact hend
  · intro t ht
    rcases List.mem_cons.mp ht with rfl | ht
    · simpa [Stack.fullForward] using hx.length
    · exact ha.length t ht
  · rintro rfl
    have haux : (m.fullForward add auxLayerIds x).aux.length = _ := rfl
    simp only [List.count_append, ha.scatters rfl, ha.gathered rfl, ha.onlyOwners rfl]
    refine ⟨rfl, ?_, rfl⟩
    show 2 * m.numHiddenLayers - 1 + (m.fullForward add auxLayerIds x).aux.length + 1 = _
    omega

/-- **Every real row has one owner.** -/
theorem existsUnique_owner {i rows : Nat} (hi : i < rows) : ∃! r : Fin 4,
    r * quarter rows ≤ i ∧ i < r * quarter rows + min (quarter rows) (rows - r * quarter rows) := by
  have hq : 0 < quarter rows := by unfold quarter; omega
  have hr : i / quarter rows < 4 := (Nat.div_lt_iff_lt_mul hq).mpr (hi.trans_le (rows_le rows))
  have hdiv := Nat.div_add_mod' i (quarter rows)
  have hmod := Nat.mod_lt i hq
  refine ⟨⟨i / quarter rows, hr⟩, ⟨by dsimp only; omega, ?_⟩, fun r ⟨hlo, hlt⟩ => Fin.ext ?_⟩
  · dsimp only
    rcases Nat.le_total (quarter rows) (rows - i / quarter rows * quarter rows) with h | h
    · rw [Nat.min_eq_left h]
      omega
    · rw [Nat.min_eq_right h]
      omega
  · have hle := Nat.min_le_left (quarter rows) (rows - r * quarter rows)
    refine (Nat.div_eq_of_lt_le hlo ?_).symm
    rw [Nat.succ_mul]
    omega

/-- **Token-sharded prefill is the replicated forward.** On every rank both forwards return the same
final hidden states and auxiliary states, and gave attention and the FFN the same inputs; these are
of the real rows only. All ranks of the sharded forward enter the same collectives, as many as
`finish` counts, and every real row has one owner. An ownership is created for a complete stack, so
there is a layer. -/
theorem sharded_forward_exact (hL : 0 < m.numHiddenLayers) (auxLayerIds : List Nat) {x : List H}
    (hx : 1 ≤ x.length ∧ x.length ≤ maxRows) :
    ∃ out ks ks',
      Meets (serve add) Collective.kind (m.forward auxLayerIds x none) ks' (fun _ => out) ∧
      Meets (serve add) Collective.kind (m.shardedForward auxLayerIds x) ks (fun _ => out) ∧
      (∀ t ∈ out.hidden :: (out.aux ++ out.seen), t.length = x.length) ∧
      ks.count .reduceScatter = 2 * m.numHiddenLayers ∧
      ks.count .allGather = 2 * m.numHiddenLayers + out.aux.length ∧ ks.count .allReduce = 0 ∧
      ∀ i < x.length, ∃! r : Fin 4, ∃ o, PrefillOwnership.create r x.length = .ok o ∧ o.Owns i := by
  obtain ⟨ks', hfull, hlen, -⟩ := forward_meets m add false hL auxLayerIds hx
  obtain ⟨ks, hshard, -, hcount⟩ := forward_meets m add true hL auxLayerIds hx
  obtain ⟨hrs, hag, har⟩ := hcount rfl
  have hcreate : ∀ r : Fin 4, PrefillOwnership.create r x.length =
      .ok ⟨r, x.length, 0, 0, hx.1, hx.2, r.isLt⟩ := fun r => dif_pos ⟨hx.1, hx.2, r.isLt⟩
  refine ⟨_, ks, ks', hfull, ?_, hlen, hrs, hag, har, ?_⟩
  · have hrun : ∀ r, m.shardedForward auxLayerIds x r =
        m.forward auxLayerIds x (ownerAt hx true 0 0 r) r := by
      intro r
      simp only [Stack.shardedForward, hcreate r]
      rfl
    rw [show m.shardedForward auxLayerIds x = _ from funext hrun]
    exact hshard
  · intro i hi
    simp only [hcreate, Except.ok.injEq, exists_eq_left', PrefillOwnership.Owns,
      PrefillOwnership.validRows, PrefillOwnership.ownerRows]
    exact existsUnique_owner hi

end Forward

/-- Two layers on integer rows. -/
def twoLayers : Stack Int Int Int Int where
  numHiddenLayers := 2
  hcExpand x := x
  hcPre s := (s, 1, s)
  hcAttn _ x s p q := (s + p * x, p, q, x + s)
  hcFfn idx x s p q := (s + q * x, p + idx, q, x - s)
  hcPost _ x s p q := s + p * x + q
  hcContract s := s
  selfAttn _ r x := x.map (· * (r + 1 : Int))
  mlp _ r x := x.map (· + (r : Int))
  norm x := x
  length_selfAttn := by simp
  length_mlp := by simp

/-- Three rows on four ranks: the last rank owns none of them. -/
theorem twoLayers_exact : ∃ out ks,
    Meets (serve fun _ t => t 0 + t 1 + t 2 + t 3) Collective.kind
      (twoLayers.shardedForward [1] [3, 5, 8]) ks (fun _ => out) ∧
    ks.count .reduceScatter = 4 ∧ ks.count .allGather = 4 + out.aux.length := by
  obtain ⟨out, ks, -, -, h, -, hrs, hag, -⟩ := sharded_forward_exact twoLayers
    (fun _ t => t 0 + t 1 + t 2 + t 3) (by decide) [1] (x := [3, 5, 8]) (by decide)
  exact ⟨out, ks, h, hrs, hag⟩

end Ringside.MhcPrefill

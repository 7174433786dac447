import Ringside.DenseFp8.Apply

/-!
# The shared activation quantization over whole runs

Tensors come and go, and an object's address is used again. Dense calls and registrations follow one
another on the one thread of the forward; the fused norms (`mla.py`, `kda.py`) register the
quantization of a tensor whose BF16 values they may not even store, and hand it to its readers. This
file says that a slot never serves the wrong tensor on such a run.

* `Step` has the calls of `Apply`, the registration by an external producer (`registerQuant`, with
  its checks), the fused norms, their readers, and the end of a tensor's life. Steps come in any
  order that the readers of a handed-over tensor allow.
* No step writes a tensor between its registration and the dense call after it.
* A tensor without BF16 values is with the readers its norm hands it to, and is dropped behind the
  last.
* `mlaQnormFp8` and `kdaOnormFp8` are the host's choices: whether the store is skipped, and for
  which readers. `Chain` says of these that each takes the copy of the one before.
* `Handover.check` is the assertion behind a reader, by the hit counters.

Results:
* `chain_of_qnorm`: without BF16 values every reader takes the copy.
* `Inv.reused_pair`: a reused pair is the quantization of the activation it is used for.
* `inv_step`: what every step preserves, and what it shows of a call.
* `shared_quant_sound`: no call takes a stale quantization, none reads values that were not stored,
  and no check raises.
-/

namespace Ringside.DenseFp8

section Registration

variable {O P A : Type}

/-- What an external producer hands over: values and scale with their shapes and types. -/
structure Copy (P : Type) where
  pair : P
  qShape : List Nat
  qDtype : Dtype
  sShape : List Nat
  sDtype : Dtype

inductive RegisterError where
  | unknownProducer (p : Producer)
  | shapes
  deriving DecidableEq, Repr

/-- `glm53_register_quant`. -/
def registerQuant (st : Shared O P) (p : Producer) (x : O) (t : Tensor A) (c : Copy P) :
    Except RegisterError (Shared O P) :=
  if p.external = false then .error (.unknownProducer p)
  else if t.info.shape.length ≠ 2 ∨ c.qShape ≠ t.info.shape ∨ c.qDtype ≠ .float8E4m3fn ∨
      c.sShape ≠ [t.info.shape.headD 0, 1] ∨ c.sDtype ≠ .float32 then .error .shapes
  else .ok (({ st with tick := st.tick + 1 } : Shared O P).keep p x t.info (some c.pair))

/-- The weak references to `o` are gone. -/
def Shared.forget [DecidableEq O] (st : Shared O P) (o : O) : Shared O P :=
  { st with
    slot := fun p => (st.slot p).map fun e => if e.ref = some o then { e with ref := none } else e }

end Registration

/-! ## The fused norms

Where a norm leaves no BF16 values, whoever reads its tensor has to take the quantized copy. Whether
the values are skipped is decided from the configuration, before the forward; `Chain` is what that
decision has to guarantee for the calls to come.
-/

/-- `GLM53_MLA_QNORM_FP8` and `GLM53_KDA_ONORM_FP8`: off, with the BF16 store, without. -/
inductive NormMode where
  | off | both | fp8Only
  deriving DecidableEq, Repr

/-- A reader of a normalised tensor, and the producer whose copy it is checked to have taken. -/
structure Reader where
  layer : Layer
  expected : Option Producer

/-- An MLA layer. The prefix of `q_b_proj` decides its family. -/
structure MlaLayer where
  qB : Layer
  /-- The indexer's `wq_b`. -/
  wqB : Option Layer
  isSparse : Bool
  skipTopk : Bool
  qB_family : ∀ method, qB.method = some method → method.family = .mlaQb

section Norms

variable (cfg : Config) (mode : NormMode)

/-- `runs_indexer`. -/
def MlaLayer.runsIndexer (w : MlaLayer) : Bool := w.wqB.isSome && w.isSparse && !w.skipTopk

/-- `indexer_takes`. -/
def MlaLayer.indexerTakes (w : MlaLayer) (m : Nat) : Bool :=
  w.runsIndexer && w.qB.method.any (fun method =>
    decide (cfg.IsProducer (.family method.family))) &&
    w.wqB.any fun L => consumesSharedQuant cfg L m (.family .mlaQb)

/-- `fp8_only`. -/
def MlaLayer.fp8Only (w : MlaLayer) (m : Nat) : Bool :=
    mode == .fp8Only && (w.indexerTakes cfg m || !w.runsIndexer)

/-- The dense calls of the forward on the normalised `q_c`, with the checks behind them. -/
def MlaLayer.readers (w : MlaLayer) (m : Nat) : List Reader :=
  ⟨w.qB, some .mlaQnorm⟩ ::
    if w.runsIndexer then
      w.wqB.toList.map fun L => ⟨L, if w.indexerTakes cfg m then some (.family .mlaQb) else none⟩
    else []

/-- `_glm53_mla_qnorm_fp8`: whether the BF16 store is skipped, and the readers; `none` keeps the
served kernel. -/
def mlaQnormFp8 (w : MlaLayer) (qC : Meta) : Option (Bool × List Reader) :=
  if mode = .off then none
  else if qC.shape.headD 0 ≤ 128 ∨ qC.shape.length ≠ 2 ∨ qC.dtype ≠ .bfloat16 then none
  else if consumesSharedQuant cfg w.qB (qC.shape.headD 0) .mlaQnorm = false then none
  else some (w.fp8Only cfg mode (qC.shape.headD 0), w.readers cfg (qC.shape.headD 0))

/-- `_glm53_kda_output`: the same for the `o_norm`, whose one reader is `o_proj`. -/
def kdaOnormFp8 (oProj : Layer) (numTokens : Nat) (normFits : Bool) : Option (Bool × List Reader) :=
  if mode = .off ∨ numTokens ≤ 128 then none
  else if (consumesSharedQuant cfg oProj numTokens .kdaOnorm && normFits) = false then none
  else some (mode == .fp8Only, [⟨oProj, some .kdaOnorm⟩])

/-- Every reader takes a copy: the first that of `p`, each other one its predecessor's. -/
def Chain (m : Nat) : Producer → List Reader → Prop
  | _, [] => True
  | p, r :: rest => r.expected = some p ∧ consumesSharedQuant cfg r.layer m p = true ∧
      (rest ≠ [] → ∃ method, r.layer.method = some method ∧ cfg.IsProducer (.family method.family) ∧
        Chain m (.family method.family) rest)

variable {cfg : Config} {mode : NormMode}

/-- **Without BF16 values every reader takes the copy.** -/
theorem chain_of_qnorm {w : MlaLayer} {qC : Meta} {readers : List Reader}
    (h : mlaQnormFp8 cfg mode w qC = some (true, readers)) :
    Chain cfg (qC.shape.headD 0) .mlaQnorm readers := by
  unfold mlaQnormFp8 at h
  split_ifs at h with hmode hshape hqb
  obtain ⟨hfp8, rfl⟩ := Prod.mk.inj (Option.some.inj h)
  have hqb := Bool.eq_true_of_not_eq_false hqb
  refine ⟨rfl, hqb, fun hrest => ?_⟩
  unfold MlaLayer.fp8Only at hfp8
  cases hruns : w.runsIndexer with
  | false =>
    rw [hruns] at hrest
    exact absurd rfl hrest
  | true =>
    rw [hruns, Bool.not_true, Bool.or_false, Bool.and_eq_true] at hfp8
    have htakes := hfp8.2
    unfold MlaLayer.indexerTakes at htakes
    rw [Bool.and_eq_true, Bool.and_eq_true, Option.any_eq_true, Option.any_eq_true] at htakes
    obtain ⟨⟨-, method, hmethod, hproducer⟩, L, hL, htake⟩ := htakes
    have hfamily := w.qB_family method hmethod
    refine ⟨method, hmethod, of_decide_eq_true hproducer, ?_⟩
    rw [hL, hfamily, if_pos rfl, hfp8.2]
    exact ⟨rfl, htake, fun hrest => absurd rfl hrest⟩

theorem chain_of_onorm {oProj : Layer} {numTokens : Nat} {normFits fp8Only : Bool}
    {readers : List Reader}
    (h : kdaOnormFp8 cfg mode oProj numTokens normFits = some (fp8Only, readers)) :
      Chain cfg numTokens .kdaOnorm readers := by
  unfold kdaOnormFp8 at h
  split_ifs at h with hmode htakes
  obtain ⟨-, rfl⟩ := Prod.mk.inj (Option.some.inj h)
  have htakes := (Bool.and_eq_true _ _ ▸ Bool.eq_true_of_not_eq_false htakes : _ ∧ _)
  exact ⟨rfl, htakes.1, fun hrest => absurd rfl hrest⟩

end Norms

/-! ## The forward

A tensor has an identity and an address, and an address is used again when its tensor is gone. The
slots hold weak references, so an entry dies with its tensor. The activation that a tensor stands
for is part of the model only, to say what it means for a pair to be stale.
-/

section Forward

variable {O P A : Type}

/-- A normalised tensor on its way to its readers. -/
structure Handover (O : Type) where
  obj : O
  fp8Only : Bool
  readers : List Reader
  hits : Producer → Nat

/-- What the check behind a reader says. -/
inductive Check where
  | notChecked | ok | raised | logged
  deriving DecidableEq, Repr

/-- `_Glm53QNorm.check`: the reader took the copy exactly once. -/
def Handover.check (h : Handover O) (expected : Option Producer) (hits : Producer → Nat) :
    Check × Handover O :=
  match expected with
  | none => (.notChecked, h)
  | some p =>
    if hits p = h.hits p + 1 then (.ok, { h with hits := Function.update h.hits p (hits p) })
    else (if h.fp8Only then .raised else .logged, h)

/-- The live tensors, the module's state, and the tensor that is handed over. -/
structure State (O P A : Type) where
  heap : O → Option (Tensor A)
  shared : Shared O P
  handover : Option (Handover O)

/-- `o` is gone: its address may be used again. -/
def State.free [DecidableEq O] (s : State O P A) (o : O) : State O P A :=
  { s with heap := Function.update s.heap o none, shared := s.shared.forget o }

/-- No reader is waiting. -/
def State.Idle (s : State O P A) : Prop := ∀ h, s.handover = some h → h.readers = []

/-- `o` is handed over without BF16 values. -/
def State.Unstored (s : State O P A) (o : O) : Prop := ∃ h, s.handover = some h ∧ h.obj = o ∧
    h.fp8Only = true

/-- `o` was registered, or quantized by a producer, and no dense call came since. -/
def State.Registered (s : State O P A) (o : O) : Prop :=
  ∃ p e, s.shared.slot p = some e ∧ e.ref = some o ∧ e.tick = s.shared.tick

/-- What is seen of a step. -/
inductive Label (O P : Type) where
  | silent
  | call (x : O) (use : Use P) (check : Check)

/-- The steps of the forward. -/
inductive Step [DecidableEq O] (cfg : Config) (quant : A → P) : State O P A → Label O P →
    State O P A → Prop
  | alloc (s : State O P A) (o : O) (t : Tensor A) : s.heap o = none → t.stored = some t.act →
    Step cfg quant s .silent { s with heap := Function.update s.heap o (some t) }
  | free (s : State O P A) (o : O) : (∀ h, s.handover = some h → h.obj ≠ o) →
      Step cfg quant s .silent (s.free o)
  | write (s : State O P A) (o : O) (t : Tensor A) : s.heap o ≠ none → t.stored = some t.act →
      ¬ s.Registered o →
    ¬ s.Unstored o → Step cfg quant s .silent { s with heap := Function.update s.heap o (some t) }
  | apply (s : State O P A) (L : Layer) (x : O) (t : Tensor A) : s.Idle → s.heap x = some t →
      ¬ s.Unstored x →
    Step cfg quant s (.call x (apply cfg quant L s.shared x t).2 .notChecked)
      { s with shared := (apply cfg quant L s.shared x t).1 }
  | register (s : State O P A) (p : Producer) (x : O) (t : Tensor A) (c : Copy P)
      (shared : Shared O P) : s.Idle →
    s.heap x = some t → c.pair = quant t.act → registerQuant s.shared p x t c = .ok shared →
    Step cfg quant s .silent { s with shared := shared }
  | qnorm (s : State O P A) (mode : NormMode) (w : MlaLayer) (qC : Meta) (fp8Only : Bool)
      (readers : List Reader) (o : O)
    (t : Tensor A) (c : Copy P) (shared : Shared O P) : s.handover = none → s.heap o = none →
    mlaQnormFp8 cfg mode w qC = some (fp8Only, readers) → t.info.shape = qC.shape →
    t.stored = (if fp8Only then none else some t.act) → c.pair = quant t.act →
    registerQuant s.shared .mlaQnorm o t c = .ok shared →
    Step cfg quant s .silent
      { heap := Function.update s.heap o (some t), shared := shared,
        handover := some ⟨o, fp8Only, readers, s.shared.hits⟩ }
  | onorm (s : State O P A) (mode : NormMode) (oProj : Layer) (numTokens : Nat)
      (normFits fp8Only : Bool)
    (readers : List Reader) (o : O) (t : Tensor A) (c : Copy P) (shared : Shared O P) :
      s.handover = none → s.heap o = none →
    kdaOnormFp8 cfg mode oProj numTokens normFits = some (fp8Only, readers) →
    t.info.rows = numTokens →
    t.stored = (if fp8Only then none else some t.act) → c.pair = quant t.act →
    registerQuant s.shared .kdaOnorm o t c = .ok shared →
    Step cfg quant s .silent
      { heap := Function.update s.heap o (some t), shared := shared,
        handover := some ⟨o, fp8Only, readers, s.shared.hits⟩ }
  | read (s : State O P A) (h : Handover O) (r : Reader) (rest : List Reader) (t : Tensor A) :
      s.handover = some h →
    h.readers = r :: rest → s.heap h.obj = some t →
    Step cfg quant s
      (.call h.obj (DenseFp8.apply cfg quant r.layer s.shared h.obj t).2
        (h.check r.expected (DenseFp8.apply cfg quant r.layer s.shared h.obj t).1.hits).1)
      { s with
        shared := (DenseFp8.apply cfg quant r.layer s.shared h.obj t).1
        handover := some
          { (h.check r.expected (DenseFp8.apply cfg quant r.layer s.shared h.obj t).1.hits).2 with
            readers := rest } }
  | finish (s : State O P A) (h : Handover O) : s.handover = some h → h.readers = [] →
    Step cfg quant s .silent ({ s with handover := none }.free h.obj)

/-- The states that a run from empty slots goes through. -/
inductive Reach [DecidableEq O] (cfg : Config) (quant : A → P) : State O P A → Prop
  | start : Reach cfg quant ⟨fun _ => none, ⟨0, fun _ => none, fun _ => 0⟩, none⟩
  | step {s s' : State O P A} {l : Label O P} : Reach cfg quant s → Step cfg quant s l s' →
      Reach cfg quant s'

/-- The invariant. -/
structure Inv (cfg : Config) (quant : A → P) (s : State O P A) : Prop where
  tick_le : ∀ p e, s.shared.slot p = some e → e.tick ≤ s.shared.tick
  /-- An entry of the last dense call or registration is about a live tensor as it is now. -/
  fresh : ∀ p e o, s.shared.slot p = some e → e.tick = s.shared.tick → e.ref = some o →
    ∃ t, s.heap o = some t ∧ e.info = t.info ∧ e.pair = some (quant t.act)
  stored : ∀ o t, s.heap o = some t → ¬ s.Unstored o → t.stored = some t.act
  /-- A tensor without BF16 values has its copy in the slot of its next reader. -/
  ready : ∀ h, s.handover = some h → h.fp8Only = true → ∃ t, s.heap h.obj = some t ∧
    (h.readers ≠ [] → (∀ p, h.hits p = s.shared.hits p) ∧ ∃ p e, Chain cfg t.info.rows p h.readers ∧
      s.shared.slot p = some e ∧ e.tick = s.shared.tick ∧ e.ref = some h.obj)

/-- What a call shows: a reused pair is the activation's, values that were not stored are not read,
and no check raises. -/
def Sound (quant : A → P) (s : State O P A) : Label O P → Prop
  | .silent => True
  | .call x use check =>
    ∃ t, s.heap x = some t ∧ (∀ p pair, use = .reused p pair → pair = some (quant t.act)) ∧
      (t.stored ≠ some t.act → ∃ p pair, use = .reused p pair) ∧ check ≠ .raised

/-! ### What one step preserves

The invariant is about the entries of the last dense call or registration: such an entry is about a
live tensor as it is now, and its pair is the quantization of that tensor's activation. An older
entry is never taken.
-/

variable {cfg : Config} {quant : A → P} {s s' : State O P A} {l : Label O P}

theorem registerQuant_ok {st shared : Shared O P} {p : Producer} {x : O} {t : Tensor A} {c : Copy P}
    (h : registerQuant st p x t c = .ok shared) :
    t.info.shape.length = 2 ∧ shared = ({ st with tick := st.tick + 1 } : Shared O P).keep p x
      t.info (some c.pair) := by
  unfold registerQuant at h
  split_ifs at h with hp hshape
  exact ⟨not_not.mp (not_or.mp hshape).1, (Except.ok.inj h).symm⟩

/-- What a registration leaves: its own entry, under its own tick. -/
theorem slot_register {st shared : Shared O P} {p : Producer} {x : O} {t : Tensor A} {c : Copy P}
    (h : registerQuant st p x t c = .ok shared) : shared.tick = st.tick + 1 ∧
      shared.hits = st.hits ∧
      shared.slot p = some ⟨some x, t.info, st.tick + 1, some c.pair⟩ ∧
      ∀ p' e, shared.slot p' = some e → st.slot p' = some e ∨
      e = ⟨some x, t.info, st.tick + 1, some c.pair⟩ := by
  obtain ⟨-, rfl⟩ := registerQuant_ok h
  refine ⟨rfl, rfl, Function.update_self _ _ _, fun p' e he => ?_⟩
  unfold Shared.keep at he
  dsimp only at he
  by_cases hp : p' = p
  · rw [hp, Function.update_self] at he
    cases he
    exact Or.inr rfl
  · rw [Function.update_of_ne hp] at he
    exact Or.inl he

variable [DecidableEq O]

theorem slot_forget {st : Shared O P} {o : O} {p : Producer} {e : Entry O P}
    (h : (st.forget o).slot p = some e) :
    ∃ e₀, st.slot p = some e₀ ∧ e.tick = e₀.tick ∧ e.info = e₀.info ∧ e.pair = e₀.pair ∧
      ∀ x, e.ref = some x → e₀.ref = some x ∧ x ≠ o := by
  obtain ⟨e₀, he₀, heq⟩ := Option.map_eq_some_iff.mp h
  split_ifs at heq with href
  · subst heq
    exact ⟨e₀, he₀, rfl, rfl, rfl, nofun⟩
  · subst heq
    exact ⟨e₀, he₀, rfl, rfl, rfl, fun x hx => ⟨hx, fun hxo => href (hxo ▸ hx)⟩⟩

theorem slot_forget_of_ne {st : Shared O P} {o : O} {p : Producer} {e : Entry O P}
    (h : st.slot p = some e)
    (hne : e.ref ≠ some o) : (st.forget o).slot p = some e := by
  unfold Shared.forget
  dsimp only
  rw [h, Option.map_some, if_neg hne]

/-- **A reused pair** is the quantization of the activation it is used for. -/
theorem Inv.reused_pair (h : Inv cfg quant s) {x : O} {t : Tensor A} (hx : s.heap x = some t)
    {L : Layer} {p : Producer}
    {pair : Option P} (huse : (apply cfg quant L s.shared x t).2 = .reused p pair) :
      pair = some (quant t.act) := by
  obtain ⟨-, e, he, ⟨href, -, htick⟩, rfl⟩ := apply_reused_iff.mp huse
  obtain ⟨t', ht', -, hpair⟩ := h.fresh p e x he (Nat.succ.inj htick) href
  obtain rfl := Option.some.inj (hx.symm.trans ht')
  exact hpair

/-- The entries after a dense call. -/
theorem Inv.entries_apply (h : Inv cfg quant s) {x : O} {t : Tensor A}
    (hx : s.heap x = some t) {L : Layer}
    (hread : t.stored = some t.act ∨ ∃ p pair, (apply cfg quant L s.shared x t).2 = .reused p pair)
      {p : Producer}
    {e : Entry O P} (he : (apply cfg quant L s.shared x t).1.slot p = some e) :
    e.tick ≤ (apply cfg quant L s.shared x t).1.tick ∧ ∀ o,
      e.tick = (apply cfg quant L s.shared x t).1.tick →
      e.ref = some o → ∃ t, s.heap o = some t ∧ e.info = t.info ∧ e.pair = some (quant t.act) := by
  cases hmethod : L.method with
  | none =>
    rw [apply_otherMethod hmethod] at he ⊢
    exact ⟨h.tick_le p e he, fun o => h.fresh p e o he⟩
  | some method =>
    obtain ⟨htick, hslot⟩ := slot_apply cfg quant s.shared x t hmethod
    rw [htick]
    rcases hslot p e he with hold | ⟨href, hinfo, hnew, huse⟩
    · have hle := h.tick_le p e hold
      exact ⟨by omega, fun o ho => absurd ho (by omega)⟩
    · refine ⟨hnew.le, fun o _ ho => ⟨t, ?_, hinfo, ?_⟩⟩
      · rw [← Option.some.inj (href.symm.trans ho), hx]
      · rcases huse with ⟨q, huse⟩ | huse
        · exact h.reused_pair hx huse
        · rcases hread with hstored | ⟨q, pair, hreused⟩
          · rw [quantized_pair huse, hstored, Option.map_some]
          · rw [huse] at hreused
            cases hreused

omit [DecidableEq O] in
/-- The entries after a registration. -/
theorem Inv.entries_register (h : Inv cfg quant s) {shared : Shared O P} {p : Producer} {x : O}
    {t : Tensor A} {c : Copy P} (hreg : registerQuant s.shared p x t c = .ok shared)
    (hc : c.pair = quant t.act) {heap : O → Option (Tensor A)} (hheap : heap x = some t)
    {p' : Producer} {e : Entry O P} (he : shared.slot p' = some e) :
    e.tick ≤ shared.tick ∧ ∀ o, e.tick = shared.tick → e.ref = some o →
      ∃ t, heap o = some t ∧ e.info = t.info ∧ e.pair = some (quant t.act) := by
  obtain ⟨htick, -, -, hslot⟩ := slot_register hreg
  rw [htick]
  rcases hslot p' e he with hold | rfl
  · have hle := h.tick_le p' e hold
    exact ⟨by omega, fun o ho => absurd ho (by omega)⟩
  · refine ⟨le_rfl, fun o _ ho => ⟨t, ?_, rfl, congrArg some hc⟩⟩
    rw [← Option.some.inj ho, hheap]

/-- The entries once a tensor is gone. -/
theorem Inv.entries_free (h : Inv cfg quant s) {o : O} {p : Producer} {e : Entry O P}
    (he : (s.shared.forget o).slot p = some e) :
    e.tick ≤ s.shared.tick ∧ ∀ x, e.tick = s.shared.tick → e.ref = some x →
      ∃ t, Function.update s.heap o none x = some t ∧ e.info = t.info ∧
      e.pair = some (quant t.act) := by
  obtain ⟨e₀, he₀, htick, hinfo, hpair, href⟩ := slot_forget he
  refine ⟨htick ▸ h.tick_le p e₀ he₀, fun x ht hx => ?_⟩
  obtain ⟨hx₀, hne⟩ := href x hx
  obtain ⟨t, hheap, hi, hp⟩ := h.fresh p e₀ x he₀ (htick ▸ ht) hx₀
  exact ⟨t, (Function.update_of_ne hne _ _).trans hheap, hinfo.trans hi, hpair.trans hp⟩

theorem rows_of_length {d : Meta} (h : d.shape.length = 2) : d.rows = d.shape.headD 0 := by
  unfold Meta.rows
  obtain ⟨a, b, hshape⟩ := List.length_eq_two.mp h
  rw [hshape]
  simp

/-- **Handing a normalised tensor over** keeps the invariant. -/
theorem Inv.handover (h : Inv cfg quant s) {o : O} {t : Tensor A} {c : Copy P} {shared : Shared O P}
    {p : Producer}
    {readers : List Reader} {fp8Only : Bool} (hnone : s.handover = none) (hfree : s.heap o = none)
    (hchain : fp8Only = true → Chain cfg t.info.rows p readers)
    (hstored : t.stored = (if fp8Only then none else some t.act)) (hc : c.pair = quant t.act)
    (hreg : registerQuant s.shared p o t c = .ok shared) :
    Inv cfg quant { heap := Function.update s.heap o (some t), shared := shared,
                    handover := some ⟨o, fp8Only, readers, s.shared.hits⟩ } := by
  have hself : Function.update s.heap o (some t) o = some t := Function.update_self _ _ _
  obtain ⟨htick, hhits, hslot, -⟩ := slot_register hreg
  refine ⟨fun p e he => (h.entries_register hreg hc hself he).1, fun p e x he ht hx =>
    (h.entries_register hreg hc hself he).2 x ht hx, fun x t' hx hun => ?_, ?_⟩
  · dsimp only at hx
    by_cases hxo : x = o
    · subst hxo
      rw [hself] at hx
      obtain rfl := Option.some.inj hx
      cases fp8Only with
      | true => exact absurd ⟨_, rfl, rfl, rfl⟩ hun
      | false => exact hstored
    · rw [Function.update_of_ne hxo] at hx
      refine h.stored x t' hx ?_
      rintro ⟨h', hh', -⟩
      rw [hnone] at hh'
      cases hh'
  · rintro h' hh' hfp8
    cases hh'
    refine ⟨t, hself, fun _ => ⟨fun q => ?_, p, _, hchain hfp8, hslot, htick.symm, rfl⟩⟩
    rw [hhits]

/-- **Reading a tensor without BF16 values**: the reader takes the copy, relays it to the next one,
and is counted. -/
theorem Inv.read (h : Inv cfg quant s) {hand : Handover O} {r : Reader} {rest : List Reader}
    {t : Tensor A} (hh : s.handover = some hand) (hreaders : hand.readers = r :: rest)
    (ht : s.heap hand.obj = some t) (hfp8 : hand.fp8Only = true) : ∃ p, r.expected = some p ∧
      (∃ pair, (apply cfg quant r.layer s.shared hand.obj t).2 = .reused p pair) ∧
      (apply cfg quant r.layer s.shared hand.obj t).1.hits p = hand.hits p + 1 ∧
      (∀ q ≠ p, (apply cfg quant r.layer s.shared hand.obj t).1.hits q = hand.hits q) ∧
      (rest ≠ [] → ∃ p e, Chain cfg t.info.rows p rest ∧
      (apply cfg quant r.layer s.shared hand.obj t).1.slot p = some e ∧
        e.tick = (apply cfg quant r.layer s.shared hand.obj t).1.tick ∧ e.ref = some hand.obj) := by
  obtain ⟨t', ht', hready⟩ := h.ready hand hh hfp8
  obtain rfl := Option.some.inj (ht.symm.trans ht')
  obtain ⟨hhits, p, e, hchain, he, htick, href⟩ :=
    hready (by rw [hreaders]; exact List.cons_ne_nil _ _)
  rw [hreaders] at hchain
  obtain ⟨hexpected, hconsumes, hnext⟩ := hchain
  obtain ⟨t', ht', hinfo, -⟩ := h.fresh p e hand.obj he htick href
  obtain rfl := Option.some.inj (ht.symm.trans ht')
  have huse : (apply cfg quant r.layer s.shared hand.obj t).2 = .reused p e.pair :=
    apply_reused_iff.mpr ⟨hconsumes, e, he, ⟨href, hinfo, congrArg Nat.succ htick⟩, rfl⟩
  obtain ⟨method, hmethod, -⟩ := consumes_iff.mp hconsumes
  obtain ⟨hhits', hrelay⟩ := relay_apply hmethod huse
  refine ⟨p, hexpected, ⟨e.pair, huse⟩, ?_, fun q hq => ?_, fun hrest => ?_⟩
  · rw [hhits', Function.update_self, hhits]
  · rw [hhits', Function.update_of_ne hq, hhits]
  · obtain ⟨method', hmethod', hproducer, hchain⟩ := hnext hrest
    obtain rfl := Option.some.inj (hmethod.symm.trans hmethod')
    refine ⟨_, _, hchain, hrelay hproducer, ?_, rfl⟩
    rw [(slot_apply cfg quant s.shared hand.obj t hmethod).1]

/-- **What one step preserves**, and what it shows. -/
theorem inv_step (h : Inv cfg quant s) (hstep : Step cfg quant s l s') : Inv cfg quant s' ∧
    Sound quant s l := by
  cases hstep with
  | alloc o t hfree hstored =>
    -- the new address is nobody's
    have hne : ∀ x, s.heap x ≠ none → Function.update s.heap o (some t) x = s.heap x := fun x hx =>
      Function.update_of_ne (fun hxo : x = o => hx (hxo ▸ hfree)) _ _
    refine ⟨⟨h.tick_le, fun p e x he ht hx => ?_, fun x t' hx hun =>
      ?_, fun hand hh hfp8 => ?_⟩, trivial⟩
    · obtain ⟨t', ht', hrest⟩ := h.fresh p e x he ht hx
      exact ⟨t', (hne x (by rw [ht']; exact Option.some_ne_none t')).trans ht', hrest⟩
    · dsimp only at hx
      by_cases hxo : x = o
      · rw [hxo, Function.update_self] at hx
        rw [← Option.some.inj hx]
        exact hstored
      · rw [Function.update_of_ne hxo] at hx
        exact h.stored x t' hx hun
    · obtain ⟨t', ht', hrest⟩ := h.ready hand hh hfp8
      exact ⟨t', (hne _ (by rw [ht']; exact Option.some_ne_none t')).trans ht', hrest⟩
  | free o hheld =>
    refine ⟨⟨fun p e he => (h.entries_free he).1, fun p e x he ht hx =>
      (h.entries_free he).2 x ht hx, fun x t' hx hun => ?_, fun hand hh hfp8 => ?_⟩, trivial⟩
    · change Function.update s.heap o none x = some t' at hx
      by_cases hxo : x = o
      · rw [hxo, Function.update_self] at hx
        cases hx
      · rw [Function.update_of_ne hxo] at hx
        exact h.stored x t' hx hun
    · obtain ⟨t', ht', hready⟩ := h.ready hand hh hfp8
      refine ⟨t', (Function.update_of_ne (hheld hand hh) _ _).trans ht', fun hne => ?_⟩
      obtain ⟨hhits, p, e, hchain, he, htick, href⟩ := hready hne
      refine ⟨hhits, p, e, hchain, slot_forget_of_ne he fun heq => ?_, htick, href⟩
      exact hheld hand hh (Option.some.inj (href.symm.trans heq))
  | write o t hlive hstored hreg hun =>
    refine ⟨⟨h.tick_le, fun p e x he ht hx => ?_, fun x t' hx hun' =>
      ?_, fun hand hh hfp8 => ?_⟩, trivial⟩
    · obtain ⟨t', ht', hrest⟩ := h.fresh p e x he ht hx
      refine ⟨t', (Function.update_of_ne (fun hxo => hreg ?_) _ _).trans ht', hrest⟩
      exact ⟨p, e, he, hxo ▸ hx, ht⟩
    · dsimp only at hx
      by_cases hxo : x = o
      · rw [hxo, Function.update_self] at hx
        rw [← Option.some.inj hx]
        exact hstored
      · rw [Function.update_of_ne hxo] at hx
        exact h.stored x t' hx hun'
    · obtain ⟨t', ht', hrest⟩ := h.ready hand hh hfp8
      exact ⟨t', (Function.update_of_ne (fun hxo => hun ⟨hand, hh, hxo, hfp8⟩) _ _).trans ht',
        hrest⟩
  | apply L x t hidle hx hun =>
    have hstored := h.stored x t hx hun
    refine ⟨⟨fun p e he => (h.entries_apply hx (Or.inl hstored) he).1, fun p e o he ht ho =>
      (h.entries_apply hx (Or.inl hstored) he).2 o ht ho, h.stored, fun hand hh hfp8 => ?_⟩, t, hx,
        ?_, ?_, nofun⟩
    · obtain ⟨t', ht', -⟩ := h.ready hand hh hfp8
      exact ⟨t', ht', fun hne => absurd (hidle hand hh) hne⟩
    · exact fun p pair huse => h.reused_pair hx huse
    · exact fun hno => absurd hstored hno
  | register p x t c shared hidle hx hc hreg =>
    refine ⟨⟨fun p e he => (h.entries_register hreg hc hx he).1, fun p e o he ht ho =>
      (h.entries_register hreg hc hx he).2 o ht ho, h.stored, fun hand hh hfp8 => ?_⟩, trivial⟩
    obtain ⟨t', ht', -⟩ := h.ready hand hh hfp8
    exact ⟨t', ht', fun hne => absurd (hidle hand hh) hne⟩
  | qnorm mode w qC fp8Only readers o t c shared hnone hfree hengaged hshape hstored hc hreg =>
    refine ⟨h.handover hnone hfree (fun hfp8 => ?_) hstored hc hreg, trivial⟩
    rw [rows_of_length (registerQuant_ok hreg).1, hshape]
    exact chain_of_qnorm (hfp8 ▸ hengaged)
  | onorm mode oProj numTokens normFits fp8Only readers o t c shared hnone hfree hengaged hrows
      hstored hc hreg =>
    refine ⟨h.handover hnone hfree (fun _ => ?_) hstored hc hreg, trivial⟩
    rw [hrows]
    exact chain_of_onorm hengaged
  | read hand r rest t hh hreaders ht =>
    -- with its BF16 values the tensor may be read; without them the copy is taken
    have huse : (∀ p pair, (apply cfg quant r.layer s.shared hand.obj t).2 = .reused p pair →
      pair = some (quant t.act)) :=
      fun p pair huse => h.reused_pair ht huse
    have hcall : (t.stored = some t.act ∨ ∃ p pair,
      (apply cfg quant r.layer s.shared hand.obj t).2 = .reused p pair) := by
      cases hfp8 : hand.fp8Only with
      | true =>
        obtain ⟨p, -, ⟨pair, hreused⟩, -⟩ := h.read hh hreaders ht hfp8
        exact Or.inr ⟨p, pair, hreused⟩
      | false =>
        refine Or.inl (h.stored hand.obj t ht ?_)
        rintro ⟨hand', hh', -, hfp8'⟩
        obtain rfl := Option.some.inj (hh.symm.trans hh')
        rw [hfp8] at hfp8'
        cases hfp8'
    have hsame : ∀ hits, ((hand.check r.expected hits).2).obj = hand.obj ∧
      ((hand.check r.expected hits).2).fp8Only = hand.fp8Only := by
      intro hits
      unfold Handover.check
      split
      · exact ⟨rfl, rfl⟩
      · split_ifs <;> exact ⟨rfl, rfl⟩
    refine ⟨⟨fun p e he => (h.entries_apply ht hcall he).1, fun p e o he htick ho =>
      (h.entries_apply ht hcall he).2 o htick ho, fun x t' hx hun => ?_, fun hand' hh' hfp8 =>
        ?_⟩, t, ht, huse, fun hno => hcall.resolve_left hno, ?_⟩
    · refine h.stored x t' hx ?_
      rintro ⟨hand', hh', hobj, hfp8⟩
      obtain rfl := Option.some.inj (hh.symm.trans hh')
      exact hun ⟨_, rfl, (hsame _).1.trans hobj, (hsame _).2.trans hfp8⟩
    · cases hh'
      have hfp8 : hand.fp8Only = true := (hsame _).2.symm.trans hfp8
      obtain ⟨p, hexpected, -, hhit, hothers, hnext⟩ := h.read hh hreaders ht hfp8
      refine ⟨t, ?_, fun hrest => ⟨fun q => ?_, ?_⟩⟩
      · dsimp only
        rw [(hsame _).1]
        exact ht
      · unfold Handover.check
        rw [hexpected]
        dsimp only
        rw [if_pos hhit]
        by_cases hq : q = p
        · rw [hq]
          exact Function.update_self _ _ _
        · rw [hothers q hq]
          exact Function.update_of_ne hq _ _
      · dsimp only
        rw [(hsame _).1]
        exact hnext hrest
    · unfold Handover.check
      cases hfp8 : hand.fp8Only with
      | true =>
        obtain ⟨p, hexpected, -, hhit, -⟩ := h.read hh hreaders ht hfp8
        rw [hexpected]
        dsimp only
        rw [if_pos hhit]
        exact nofun
      | false =>
        split
        · simp
        · split_ifs with _ hraise
          · simp
          · exact hraise.elim
          · simp
  | finish hand hh hreaders =>
    refine ⟨⟨fun p e he => (h.entries_free he).1, fun p e x he ht hx =>
      (h.entries_free he).2 x ht hx, fun x t' hx _ => ?_, nofun⟩, trivial⟩
    change Function.update s.heap hand.obj none x = some t' at hx
    by_cases hxo : x = hand.obj
    · rw [hxo, Function.update_self] at hx
      cases hx
    · rw [Function.update_of_ne hxo] at hx
      refine h.stored x t' hx ?_
      rintro ⟨hand', hh', hobj, -⟩
      obtain rfl := Option.some.inj (hh.symm.trans hh')
      exact hxo hobj.symm

/-- **What a whole run preserves.** -/
theorem Reach.inv (h : Reach cfg quant s) : Inv cfg quant s := by
  induction h with
  | start => exact ⟨nofun, nofun, nofun, nofun⟩
  | step _ hstep ih => exact (inv_step ih hstep).1

/-- **The shared quantization is never stale.** In every run, whatever the layers, rows and tensors,
and whatever addresses are used again: a call that reuses a slot has the quantization of the
activation it was called with, also where the pair was relayed, and a tensor whose BF16 values were
not stored is only ever taken from a slot, so that no layer quantizes it and no check behind its
readers raises. A call reuses a slot exactly where `glm53_consumes_shared_quant` says so and the
slot's entry matches. -/
theorem shared_quant_sound (h : Reach cfg quant s) {x : O} {use : Use P} {check : Check}
    (hstep : Step cfg quant s (.call x use check) s') :
    (∃ t, s.heap x = some t ∧ (∀ p pair, use = .reused p pair → pair = some (quant t.act)) ∧
      (t.stored ≠ some t.act → ∃ p pair, use = .reused p pair) ∧ check ≠ .raised) ∧
    ∀ (L : Layer) (st : Shared O P) (y : O) (t : Tensor A) (p : Producer) (pair : Option P),
      (apply cfg quant L st y t).2 = .reused p pair ↔
      consumesSharedQuant cfg L t.info.rows p = true ∧
        ∃ e, st.slot p = some e ∧ e.Matches y t.info (st.tick + 1) ∧ e.pair = pair :=
  ⟨(inv_step h.inv hstep).2, fun _ _ _ _ _ _ => apply_reused_iff⟩

/-! ### One layer without BF16 values -/

/-- `mla_qnorm>mla_qb,mla_qb>indexer`. -/
def qnormPairs : Config where
  marlinMaxM := 64
  consumers
    | .mlaQb => some .mlaQnorm
    | .indexer => some (.family .mlaQb)
    | _ => none

/-- A W8A8 layer that runs its calls whole. -/
def wholeLayer (f : Family) : Layer := ⟨some ⟨f, .w8a8, .fp8⟩, [], [], 0, 0⟩

/-- An MLA layer with its indexer. -/
def indexerLayer : MlaLayer where
  qB := wholeLayer .mlaQb
  wqB := some (wholeLayer .indexer)
  isSparse := true
  skipTopk := false
  qB_family := by
    rintro _ ⟨⟩
    rfl

/-- 256 normalised rows that were not stored. -/
def unstoredRows : Tensor Nat := ⟨⟨0, [256, 4], [4, 1], .bfloat16, 0⟩, 7, none⟩

/-- The indexer takes the norm's copy through the relay. -/
theorem indexer_takes_relay : ∃ (s s' : State Nat Nat Nat) (x : Nat) (use : Use Nat)
    (check : Check),
    Reach qnormPairs id s ∧ Step qnormPairs id s (.call x use check) s' ∧
    (∃ p, use = .reused p (some 7)) ∧ check ≠ .raised := by
  have hnorm : Reach qnormPairs (id : Nat → Nat) _ :=
    Reach.start.step (.qnorm _ .fp8Only indexerLayer unstoredRows.info true
    (indexerLayer.readers qnormPairs 256) 0 unstoredRows ⟨7, [256, 4], .float8E4m3fn, [256, 1],
      .float32⟩ _ rfl rfl rfl rfl
    rfl rfl rfl)
  have hqb := hnorm.step (.read _ _ _ _ unstoredRows rfl rfl rfl)
  obtain ⟨s, hs, x, use, check, s', hread, hx⟩ : ∃ s, Reach qnormPairs id s ∧ ∃ x use check s',
      Step qnormPairs id s (.call x use check) s' ∧ s.heap x = some unstoredRows :=
    ⟨_, hqb, _, _, _, _, .read _ _ _ _ unstoredRows rfl rfl rfl, rfl⟩
  obtain ⟨⟨t, ht, hpair, hstored, hcheck⟩, -⟩ := shared_quant_sound hs hread
  obtain rfl := Option.some.inj (hx.symm.trans ht)
  obtain ⟨p, pair, huse⟩ := hstored (by decide)
  exact ⟨s, s', x, use, check, hs, hread, ⟨p, hpair p pair huse ▸ huse⟩, hcheck⟩

end Forward

end Ringside.DenseFp8

import Mathlib.Data.Fintype.Basic
import Mathlib.Logic.Function.Basic
import Mathlib.Tactic

/-!
# The dual-path FP8 linear method and its shared slot (`glm53_dual_fp8_dense.py`)

A dense layer of a selected family runs one of several kernels by its number of rows. Above the
decode regime it quantizes its activation per token, or takes the quantization that the producer of
its family left in the shared slot. This file models one call of `apply` with the slots before and
after it.

* An activation is what the tensor is meant to hold; its memory holds nothing where the BF16 store
  was skipped (`Tensor`). A call that reads such a memory would show as values that are `none`.
* The quantization is any function. The products are left out here (`Handoff` has them).
* `Layer.branch` is the chain of conditions of `apply`: the loaded weights, the number of rows, the
  modes. `consumesSharedQuant` is the predicate that other modules ask.
* The slots and the hit counters are maps: only lookups are made of them.
* A weak reference is `none` once its object is gone; an object is its address (`Entry.Matches`
  compares the reference and the key).

Results:
* `apply_reused_iff`: a call reuses a slot exactly where `consumesSharedQuant` says so and the entry
  matches.
* `slot_apply`, `relay_apply`: what a call leaves in the slots.

Out of scope: choosing and loading the weights of a family, and tuning.
-/

namespace Ringside.DenseFp8

/-- `FAMILIES`. -/
inductive Family where
  | kdaIn | kdaFg | attnOut | mlaQb | mlaA | shared
  | sharedDown | dense | indexer | mlaKvb | head | draft
  deriving DecidableEq, Repr

instance : Fintype Family where
  elems := {.kdaIn, .kdaFg, .attnOut, .mlaQb, .mlaA, .shared, .sharedDown, .dense, .indexer,
    .mlaKvb, .head, .draft}
  complete f := by cases f <;> decide

/-- A producer of a quantization: a family, or one of `EXTERNAL_PRODUCERS`. -/
inductive Producer where
  | family (f : Family)
  | kdaOnorm
  | mlaQnorm
  deriving DecidableEq, Repr

/-- Is it one of `EXTERNAL_PRODUCERS`? -/
def Producer.external : Producer → Bool
  | .family _ => false
  | _ => true

/-- `SHARED_QUANT_MIN_M`. -/
def sharedQuantMinM : Nat := 128

/-- The module's settings. -/
structure Config where
  /-- `MARLIN_MAX_M`. -/
  marlinMaxM : Nat
  /-- `SHARED_QUANT_CONSUMERS`. -/
  consumers : Family → Option Producer

/-- `SHARED_QUANT_PRODUCERS`. -/
def Config.IsProducer (cfg : Config) (p : Producer) : Prop := ∃ f, cfg.consumers f = some p

instance Config.decidableIsProducer (cfg : Config) (p : Producer) : Decidable (cfg.IsProducer p) :=
  inferInstanceAs (Decidable (∃ f, cfg.consumers f = some p))

inductive PrefillMode where
  | w8a8 | dequant
  deriving DecidableEq, Repr

inductive DecodeMode where
  | fp8 | nvfp4
  deriving DecidableEq, Repr

/-- A `DualPathFp8DenseLinearMethod`. -/
structure Method where
  family : Family
  prefillMode : PrefillMode
  decodeMode : DecodeMode

/-- A layer: its method if it is of this module, and what loading left on it. -/
structure Layer where
  method : Option Method
  /-- The row counts that have a kernel in `dual_humming`. -/
  humming : List Nat
  /-- The row counts that have a kernel in `dual_humming_nvfp4`. -/
  hummingNvfp4 : List Nat
  chunkRows : Nat
  chunkMinRows : Nat

/-- What a call of `m` rows runs. -/
inductive Branch where
  | humming | marlinFp4 | marlinFp8 | hummingNvfp4 | dequant | chunked | whole
  deriving DecidableEq, Repr

/-- The branch that `apply` takes. -/
def Layer.branch (L : Layer) (cfg : Config) (method : Method) (m : Nat) : Branch :=
  if m ≤ cfg.marlinMaxM then
    if m ∈ L.humming then .humming else if method.decodeMode = .nvfp4 then .marlinFp4
      else .marlinFp8
  else if m ∈ L.hummingNvfp4 then .hummingNvfp4
  else if method.prefillMode = .dequant then .dequant
  else if L.chunkRows ≠ 0 ∧ L.chunkRows < m ∧ L.chunkMinRows ≤ m then .chunked
  else .whole

/-- `glm53_consumes_shared_quant`. -/
def consumesSharedQuant (cfg : Config) (L : Layer) (m : Nat) (producer : Producer) : Bool :=
  match L.method with
  | none => false
  | some method =>
    if method.prefillMode ≠ .w8a8 then false
    else if cfg.consumers method.family ≠ some producer ∨
        m ≤ max sharedQuantMinM cfg.marlinMaxM then false
    else if m ∈ L.hummingNvfp4 then false
    else !decide (L.chunkRows ≠ 0 ∧ L.chunkRows < m ∧ L.chunkMinRows ≤ m)

/-- The calls that run as a whole. -/
theorem branch_eq_whole {cfg : Config} {L : Layer} {method : Method} {m : Nat} :
    L.branch cfg method m = .whole ↔
    cfg.marlinMaxM < m ∧ m ∉ L.hummingNvfp4 ∧ method.prefillMode = .w8a8 ∧
      ¬ (L.chunkRows ≠ 0 ∧ L.chunkRows < m ∧ L.chunkMinRows ≤ m) := by
  have hmode : method.prefillMode = .w8a8 ↔ ¬ method.prefillMode = .dequant := by
    cases method.prefillMode <;> decide
  unfold Layer.branch
  rw [hmode]
  split_ifs with hm hh hd hn hq hc
  · exact ⟨nofun, fun h => absurd h.1 (by omega)⟩
  · exact ⟨nofun, fun h => absurd h.1 (by omega)⟩
  · exact ⟨nofun, fun h => absurd h.1 (by omega)⟩
  · exact ⟨nofun, fun h => absurd hn h.2.1⟩
  · exact ⟨nofun, fun h => absurd hq h.2.2.1⟩
  · exact ⟨nofun, fun h => absurd hc h.2.2.2⟩
  · exact ⟨fun _ => ⟨by omega, hn, hq, hc⟩, fun _ => rfl⟩

/-- It answers yes where the call is the whole one of a consumer above the sharing threshold. -/
theorem consumes_iff {cfg : Config} {L : Layer} {m : Nat} {producer : Producer} :
    consumesSharedQuant cfg L m producer = true ↔ ∃ method, L.method = some method ∧
      L.branch cfg method m = .whole ∧ sharedQuantMinM < m ∧
      cfg.consumers method.family = some producer := by
  simp only [branch_eq_whole]
  unfold consumesSharedQuant
  cases L.method with
  | none => exact ⟨nofun, nofun⟩
  | some method =>
    simp only [Option.some.injEq, exists_eq_left']
    split_ifs with hmode hcons hn
    · exact ⟨nofun, fun h => absurd h.1.2.2.1 hmode⟩
    · refine ⟨nofun, fun ⟨⟨hm, _⟩, hmin, hp⟩ => ?_⟩
      exact absurd hcons (not_or.mpr ⟨not_not.mpr hp, by omega⟩)
    · exact ⟨nofun, fun h => absurd hn h.1.2.1⟩
    · obtain ⟨hp, hmin⟩ := not_or.mp hcons
      rw [Bool.not_eq_true', decide_eq_false_iff_not]
      exact ⟨fun hc => ⟨⟨by omega, hn, not_not.mp hmode, hc⟩, by omega, not_not.mp hp⟩,
        fun h => h.1.2.2.2⟩

/-! ## The shared slot

There is one slot for each producer. An entry is the key of a tensor with its quantization, made at
some tick of the counter of calls; a consumer takes it in the next call or never.
-/

inductive Dtype where
  | bfloat16 | float8E4m3fn | float32 | float16
  deriving DecidableEq, Repr

/-- What a slot's key has of a tensor besides the object. -/
structure Meta where
  dataPtr : Nat
  shape : List Nat
  strides : List Nat
  dtype : Dtype
  device : Nat
  deriving DecidableEq

/-- The rows of `x.reshape(-1, x.shape[-1])`. -/
def Meta.rows (d : Meta) : Nat := d.shape.dropLast.prod

/-- A tensor: the activation it stands for, and the one its memory holds. -/
structure Tensor (A : Type) where
  info : Meta
  act : A
  stored : Option A

/-- An entry: a key, and the values with their scale; these are `none` where the memory held
nothing. -/
structure Entry (O P : Type) where
  ref : Option O
  info : Meta
  tick : Nat
  pair : Option P

/-- The module's state: `_SHARED_QUANT_TICK`, `_SHARED_QUANT_SLOT`, `_SHARED_QUANT_HITS`. -/
structure Shared (O P : Type) where
  tick : Nat
  slot : Producer → Option (Entry O P)
  hits : Producer → Nat

/-- What a call did about its activation. -/
inductive Use (P : Type) where
  | reused (producer : Producer) (pair : Option P)
  | quantized (pair : Option P)
  | branch (b : Branch)
  | otherMethod

section Slot

variable {O P A : Type} [DecidableEq O]

/-- `_shared_quant_match`. -/
def Entry.Matches (e : Entry O P) (x : O) (d : Meta) (tick : Nat) : Prop := e.ref = some x ∧
    e.info = d ∧ e.tick + 1 = tick

instance Entry.decidableMatches (e : Entry O P) (x : O) (d : Meta) (tick : Nat) :
    Decidable (e.Matches x d tick) :=
  inferInstanceAs (Decidable (_ ∧ _ ∧ _))

/-- A producer leaves its quantization of `x`. -/
def Shared.keep (st : Shared O P) (producer : Producer) (x : O) (d : Meta)
    (pair : Option P) : Shared O P :=
  { st with slot := Function.update st.slot producer (some ⟨some x, d, st.tick, pair⟩) }

/-- A consumer pops its producer's slot, and takes a matching entry. -/
def Shared.take (st : Shared O P) (producer : Producer) (x : O) (d : Meta) :
    Shared O P × Option (Option P) :=
  match st.slot producer with
  | none => (st, none)
  | some e =>
    let popped := { st with slot := Function.update st.slot producer none }
    if e.Matches x d st.tick then
      ({ popped with hits := Function.update st.hits producer (st.hits producer + 1) }, some e.pair)
    else (popped, none)

/-- `DualPathFp8DenseLinearMethod.apply` on `x`, which holds `t`. -/
def apply (cfg : Config) (quant : A → P) (L : Layer) (st : Shared O P) (x : O) (t : Tensor A) :
    Shared O P × Use P :=
  match L.method with
  | none => (st, .otherMethod)
  | some method =>
    let st := { st with tick := st.tick + 1 }
    match L.branch cfg method t.info.rows with
    | .whole =>
      let quantized (st : Shared O P) : Shared O P × Use P :=
        let pair := t.stored.map quant
        (if sharedQuantMinM < t.info.rows ∧ cfg.IsProducer (.family method.family) then
          st.keep (.family method.family) x t.info pair
        else st, .quantized pair)
      match cfg.consumers method.family with
      | none => quantized st
      | some producer =>
        if sharedQuantMinM < t.info.rows then
          match st.take producer x t.info with
          | (st, none) => quantized st
          | (st, some pair) =>
            (if cfg.IsProducer (.family method.family) then
              st.keep (.family method.family) x t.info pair else st,
              .reused producer pair)
        else quantized st
    | b => (st, .branch b)

/-! ### What a call does -/

variable {cfg : Config} {quant : A → P} {L : Layer} {st : Shared O P} {x : O} {t : Tensor A}
    {method : Method}

theorem take_eq_some {producer : Producer} {d : Meta} {st' : Shared O P} {pair : Option P} :
    st.take producer x d = (st', some pair) ↔ ∃ e, st.slot producer = some e ∧
    e.Matches x d st.tick ∧ e.pair = pair ∧ st' = { st with
        slot := Function.update st.slot producer none
        hits := Function.update st.hits producer (st.hits producer + 1) } := by
  unfold Shared.take
  cases st.slot producer with
  | none => exact ⟨nofun, nofun⟩
  | some e =>
    simp only [Option.some.injEq, exists_eq_left']
    by_cases he : e.Matches x d st.tick
    · rw [if_pos he, and_iff_right he, Prod.mk.injEq, Option.some.injEq, and_comm,
        eq_comm (a := st')]
    · rw [if_neg he]
      exact ⟨nofun, fun h => absurd h.1 he⟩

/-- A call that does not take pops a slot at most. -/
theorem take_eq_none {producer : Producer} {d : Meta} {st' : Shared O P}
    (h : st.take producer x d = (st', none)) :
    st'.tick = st.tick ∧ st'.hits = st.hits ∧ ∀ p e, st'.slot p = some e → st.slot p = some e := by
  unfold Shared.take at h
  cases hslot : st.slot producer with
  | none =>
    rw [hslot] at h
    cases h
    exact ⟨rfl, rfl, fun _ _ => id⟩
  | some e =>
    rw [hslot] at h
    dsimp only at h
    split at h
    · cases h
    · cases h
      refine ⟨rfl, rfl, fun p e' he' => ?_⟩
      dsimp only at he'
      by_cases hp : p = producer
      · rw [hp, Function.update_self] at he'
        cases he'
      · rwa [Function.update_of_ne hp] at he'

variable (cfg quant st x) in
/-- A whole call: what it takes, and what it leaves. -/
theorem apply_cases (hmethod : L.method = some method)
    (hbranch : L.branch cfg method t.info.rows = .whole) :
    (∃ producer st' pair, cfg.consumers method.family = some producer ∧
    sharedQuantMinM < t.info.rows ∧
        { st with tick := st.tick + 1 }.take producer x t.info = (st', some pair) ∧
        apply cfg quant L st x t = (if cfg.IsProducer (.family method.family) then
          st'.keep (.family method.family) x t.info pair else st', .reused producer pair)) ∨
      (¬ (∃ producer, cfg.consumers method.family = some producer ∧ sharedQuantMinM < t.info.rows ∧
          ∃ st' pair, { st with tick := st.tick + 1 }.take producer x t.info = (st', some pair)) ∧
        ∃ st', (st'.tick = st.tick + 1 ∧ st'.hits = st.hits ∧ ∀ p e, st'.slot p = some e →
          st.slot p = some e) ∧
          apply cfg quant L st x t = (if sharedQuantMinM < t.info.rows ∧
          cfg.IsProducer (.family method.family) then
            st'.keep (.family method.family) x t.info (t.stored.map quant) else
              st', .quantized (t.stored.map quant))) := by
  unfold apply
  rw [hmethod]
  dsimp only
  rw [hbranch]
  dsimp only
  cases hcons : cfg.consumers method.family with
  | none => exact Or.inr ⟨nofun, { st with tick := st.tick + 1 }, ⟨rfl, rfl, fun _ _ => id⟩, rfl⟩
  | some producer =>
    dsimp only
    by_cases hmin : sharedQuantMinM < t.info.rows
    · rw [if_pos hmin]
      rcases htake : { st with tick := st.tick + 1 }.take producer x t.info with ⟨st', - | pair⟩
      · refine Or.inr ⟨?_, st', take_eq_none htake, by rw [htake]⟩
        rintro ⟨producer', hp, -, st'', pair, h⟩
        cases hp
        rw [htake] at h
        cases h
      · exact Or.inl ⟨producer, st', pair, rfl, hmin, htake, by rw [htake]⟩
    · rw [if_neg hmin]
      exact Or.inr ⟨fun ⟨_, _, h, _⟩ => hmin h, { st with tick := st.tick + 1 },
        ⟨rfl, rfl, fun _ _ => id⟩, rfl⟩

/-- Other branches only count the call. -/
theorem apply_branch (hmethod : L.method = some method)
    (hbranch : L.branch cfg method t.info.rows ≠ .whole) :
    apply cfg quant L st x t = ({ st with tick := st.tick + 1 },
    .branch (L.branch cfg method t.info.rows)) := by
  unfold apply
  rw [hmethod]
  dsimp only
  split
  · exact absurd ‹_› hbranch
  · rfl

theorem apply_otherMethod (hmethod : L.method = none) :
    apply cfg quant L st x t = (st, .otherMethod) := by
  unfold apply
  rw [hmethod]

/-- **A call reuses a slot** exactly where `glm53_consumes_shared_quant` says so and the slot's
entry matches. -/
theorem apply_reused_iff {producer : Producer} {pair : Option P} :
    (apply cfg quant L st x t).2 = .reused producer pair ↔
    consumesSharedQuant cfg L t.info.rows producer = true ∧
      ∃ e, st.slot producer = some e ∧ e.Matches x t.info (st.tick + 1) ∧ e.pair = pair := by
  rw [consumes_iff]
  cases hmethod : L.method with
  | none =>
    rw [apply_otherMethod hmethod]
    exact ⟨nofun, nofun⟩
  | some method =>
    simp only [Option.some.injEq, exists_eq_left']
    by_cases hbranch : L.branch cfg method t.info.rows = .whole
    · rw [and_iff_right hbranch]
      obtain ⟨producer', st', pair', hcons, hmin, htake, heq⟩ | ⟨hno, st', -, heq⟩ :=
        apply_cases cfg quant st x hmethod hbranch
      · rw [heq, hcons]
        obtain ⟨e, he, hmatch, rfl, -⟩ := take_eq_some.mp htake
        simp only [Use.reused.injEq, Option.some.injEq]
        constructor
        · rintro ⟨rfl, rfl⟩
          exact ⟨⟨hmin, rfl⟩, e, he, hmatch, rfl⟩
        · rintro ⟨⟨-, rfl⟩, e', he', -, rfl⟩
          rw [show st.slot producer' = some e from he] at he'
          cases he'
          exact ⟨rfl, rfl⟩
      · rw [heq]
        refine ⟨nofun, ?_⟩
        rintro ⟨⟨hmin, hcons⟩, e, he, hmatch, -⟩
        exact absurd ⟨producer, hcons, hmin, _, _, take_eq_some.mpr ⟨e, he, hmatch, rfl, rfl⟩⟩ hno
    · rw [apply_branch hmethod hbranch]
      exact ⟨nofun, fun h => absurd h.1.1 hbranch⟩

/-- What a call quantizes is what the memory of its activation holds. -/
theorem quantized_pair {pair : Option P} (h : (apply cfg quant L st x t).2 = .quantized pair) :
    pair = t.stored.map quant := by
  cases hmethod : L.method with
  | none =>
    rw [apply_otherMethod hmethod] at h
    cases h
  | some method =>
    by_cases hbranch : L.branch cfg method t.info.rows = .whole
    · obtain ⟨producer', st', pair', -, -, -, heq⟩ | ⟨-, st', -, heq⟩ :=
        apply_cases cfg quant st x hmethod hbranch
      · rw [heq] at h
        cases h
      · rw [heq] at h
        cases h
        rfl
    · rw [apply_branch hmethod hbranch] at h
      cases h

variable (cfg quant st x t) in
/-- What a call leaves: its tick, and in the slots nothing but old entries and its own. -/
theorem slot_apply (hmethod : L.method = some method) :
    (apply cfg quant L st x t).1.tick = st.tick + 1 ∧
    ∀ p e, (apply cfg quant L st x t).1.slot p = some e → st.slot p = some e ∨
      (e.ref = some x ∧ e.info = t.info ∧ e.tick = st.tick + 1 ∧
      ((∃ producer, (apply cfg quant L st x t).2 = .reused producer e.pair) ∨
        (apply cfg quant L st x t).2 = .quantized e.pair)) := by
  -- an entry of a state with one entry more
  have hkeep : ∀ (st' : Shared O P) (c : Prop) [Decidable c] (pair : Option P),
    st'.tick = st.tick + 1 → (∀ p e, st'.slot p = some e → st.slot p = some e) → ∀ p e,
        (if c then st'.keep (.family method.family) x t.info pair else st').slot p = some e →
        st.slot p = some e ∨
          (e.ref = some x ∧ e.info = t.info ∧ e.tick = st.tick + 1 ∧ e.pair = pair) := by
    intro st' c _ pair htick hold p e he
    split_ifs at he
    · unfold Shared.keep at he
      dsimp only at he
      by_cases hp : p = .family method.family
      · rw [hp, Function.update_self] at he
        cases he
        exact Or.inr ⟨rfl, rfl, htick, rfl⟩
      · rw [Function.update_of_ne hp] at he
        exact Or.inl (hold p e he)
    · exact Or.inl (hold p e he)
  have htick : ∀ (st' : Shared O P) (c : Prop) [Decidable c] (pair : Option P),
      (if c then st'.keep (.family method.family) x t.info pair else st').tick = st'.tick := by
    intro st' c _ pair
    split_ifs <;> rfl
  by_cases hbranch : L.branch cfg method t.info.rows = .whole
  · obtain ⟨producer', st', pair', -, -, htake, heq⟩ | ⟨-, st', ⟨hticks, -, hold⟩, heq⟩ :=
      apply_cases cfg quant st x hmethod hbranch
    · rw [heq]
      obtain ⟨e₀, -, -, -, rfl⟩ := take_eq_some.mp htake
      refine ⟨htick _ _ _, fun p e he => ?_⟩
      refine (hkeep _ _ _ rfl (fun p e he => ?_) p e he).imp_right fun ⟨hr, hi, ht, hp⟩ =>
        ⟨hr, hi, ht, Or.inl ⟨producer', by rw [hp]⟩⟩
      dsimp only at he
      by_cases hp : p = producer'
      · rw [hp, Function.update_self] at he
        cases he
      · rwa [Function.update_of_ne hp] at he
    · rw [heq]
      refine ⟨(htick _ _ _).trans hticks, fun p e he => ?_⟩
      exact (hkeep _ _ _ hticks hold p e he).imp_right fun ⟨hr, hi, ht, hp⟩ =>
        ⟨hr, hi, ht, Or.inr (by rw [hp])⟩
  · rw [apply_branch hmethod hbranch]
    exact ⟨rfl, fun p e he => Or.inl he⟩

/-- A call that reuses counts a hit, and relays the pair where its family is a producer. -/
theorem relay_apply {producer : Producer} {pair : Option P} (hmethod : L.method = some method)
    (h : (apply cfg quant L st x t).2 = .reused producer pair) :
    (apply cfg quant L st x t).1.hits = Function.update st.hits producer (st.hits producer + 1) ∧
      (cfg.IsProducer (.family method.family) →
      (apply cfg quant L st x t).1.slot (.family method.family) =
        some ⟨some x, t.info, st.tick + 1, pair⟩) := by
  by_cases hbranch : L.branch cfg method t.info.rows = .whole
  · obtain ⟨producer', st', pair', -, -, htake, heq⟩ | ⟨-, st', -, heq⟩ :=
      apply_cases cfg quant st x hmethod hbranch
    · rw [heq] at h ⊢
      cases h
      obtain ⟨e, -, -, -, rfl⟩ := take_eq_some.mp htake
      refine ⟨?_, fun hp => ?_⟩
      · split_ifs <;> rfl
      · rw [if_pos hp]
        exact Function.update_self _ _ _
    · rw [heq] at h
      cases h
  · rw [apply_branch hmethod hbranch] at h
    cases h

end Slot

end Ringside.DenseFp8

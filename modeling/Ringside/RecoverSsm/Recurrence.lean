import Mathlib.Algebra.BigOperators.Group.Finset.Basic
import Mathlib.Tactic

/-!
# Recovering the KDA state from a verify window (`models/glm5next/nvidia/ops/recoverssm.py`)

Model of `_kda_recoverssm_verify_kernel` and of the state loop of `_commit_kda_state_kernel`. The
verify kernel runs the KDA recurrence over a speculative window and saves each token's correction,
key and raw gate. The commit kernel reads them backwards: it accumulates the decays behind each
token and the decayed outer products, for the accepted tokens and for those before the block
boundary.

* Arithmetic is exact, in a commutative ring; `exp`, `sigmoid`, `log` and `rsqrt` are any functions
  on it. What a commit stores is thus the state that the recurrence has up to rounding.
* One head and one layer: tiles of value rows and heads do not read each other, and lanes beyond the
  dimensions hold zeros.
* A head's gate is the softplus one or the one with a lower bound (`Head`), as in the kernels.
* `forward` is the recurrence one token at a time; it is a function of the inputs only.
* A row without a state writes zeros (`verify`).

Results:
* `forward_succ`: one step of the recurrence, by its decay and its correction.
* `verify_loop`, `verify_records`: the window's loop runs the recurrence, and saves its corrections.
* `recover_final`, `recover_boundary`: what the backward loop has accumulated, step by step.
* `commit_recovers`: both states that a commit stores are states of the recurrence.
-/

namespace Ringside.RecoverSsm

variable {R κ ν : Type}

/-- The scalar functions of the kernels. -/
structure Ops (R : Type) where
  exp : R → R
  sigmoid : R → R
  log : R → R
  rsqrt : R → R
  over20 : R → Bool
  epsilon : R

/-- A head's gate parameters; without a lower bound the gate is the softplus one. -/
structure Head (R κ : Type) where
  aLog : R
  dtBias : κ → R
  lowerBound : Option R

/-- A token's inputs. -/
structure Token (R κ ν : Type) where
  q : κ → R
  k : κ → R
  v : ν → R
  rawG : κ → R
  rawBeta : R

/-- What the verify saves of a token: the correction, and the key and raw gate. -/
structure Record (R κ ν : Type) where
  correction : ν → R
  k : κ → R
  rawG : κ → R

/-- A head's state. -/
abbrev KdaState (R κ ν : Type) := ν → κ → R

variable [CommRing R]

section Kernels

variable (ops : Ops R) (head : Head R κ)

/-- `_kda_gate`, for one channel. -/
def kdaGate (rawG : κ → R) (c : κ) : R :=
  let gateInput := rawG c + head.dtBias c
  match head.lowerBound with
  | some lowerBound => lowerBound * ops.sigmoid (ops.exp head.aLog * gateInput)
  | none =>
    -ops.exp head.aLog * if ops.over20 gateInput then gateInput else ops.log (1 + ops.exp gateInput)

/-- `tl.exp(gate)`. -/
def decay (rawG : κ → R) (c : κ) : R := ops.exp (kdaGate ops head rawG c)

variable [Fintype κ]

/-- `normalized_k`. -/
def normalized (k : κ → R) (c : κ) : R := k c * ops.rsqrt (∑ d, k d * k d + ops.epsilon)

/-- `correction[:, None] * normalized_k[None, :]`. -/
def update (correction : ν → R) (k : κ → R) : KdaState R κ ν :=
    fun v c => correction v * normalized ops k c

/-- `_kda_recurrent_step`: the next state, and the correction. -/
def recurrentStep (state : KdaState R κ ν) (t : Token R κ ν) : KdaState R κ ν × (ν → R) :=
  let state := fun v c => state v c * decay ops head t.rawG c
  let correction := fun v => (t.v v - ∑ c, state v c * normalized ops t.k c) * ops.sigmoid t.rawBeta
  (state + update ops correction t.k, correction)

/-! ## The verify -/

/-- The registers and buffers of a verify program. -/
structure Verify (R κ ν : Type) where
  state : KdaState R κ ν
  out : Nat → ν → R
  records : Nat → Record R κ ν

/-- One token of the window. -/
def verifyToken (scale : R) (queryLen : Nat) (tokens : Nat → Token R κ ν) (w : Verify R κ ν)
    (offset : Nat) :
    Verify R κ ν :=
  if offset < queryLen then
    let t := tokens offset
    let (updated, correction) := recurrentStep ops head w.state t
    { state := updated
      out := Function.update w.out offset fun v =>
        ∑ c, updated v c * (t.q c * (ops.rsqrt (∑ d, t.q d * t.q d + ops.epsilon) * scale))
      records := Function.update w.records offset ⟨correction, t.k, t.rawG⟩ }
  else w

/-- `_kda_recoverssm_verify_kernel` for a row: a row without a state writes zeros. -/
def verify (nullBlockId : Int) (specQueryLen : Nat) (scale : R) (queryLen : Nat)
    (tokens : Nat → Token R κ ν) (blocks : Int → KdaState R κ ν) (stateIdx : Int)
    (out : Nat → ν → R) (records : Nat → Record R κ ν) :
    Verify R κ ν :=
  if stateIdx ≤ nullBlockId then
    ⟨blocks stateIdx, fun offset => if offset < specQueryLen ∧ offset < queryLen then
      0 else out offset, records⟩
  else
    (List.range specQueryLen).foldl (verifyToken ops head scale queryLen tokens)
      ⟨blocks stateIdx, out, records⟩

/-! ## The commit -/

/-- The accumulators of the commit's backward loop. -/
structure Recovery (R κ ν : Type) where
  finalDecay : κ → R
  finalCorrection : KdaState R κ ν
  boundaryDecay : κ → R
  boundaryCorrection : KdaState R κ ν

/-- The accumulators before the loop. -/
def Recovery.init : Recovery R κ ν := ⟨1, 0, 1, 0⟩

/-- One token, in align mode; `before_boundary` selects what the boundary's accumulators take. -/
def recoverToken (boundaryRecoveryLen : Nat) (records : Nat → Record R κ ν) (a : Recovery R κ ν)
    (tokenOffset : Nat) :
    Recovery R κ ν :=
  let r := records tokenOffset
  let update : KdaState R κ ν := update ops r.correction r.k
  let decay := decay ops head r.rawG
  let beforeBoundary := tokenOffset < boundaryRecoveryLen
  { finalDecay := fun c => a.finalDecay c * decay c
    finalCorrection := fun v c => a.finalCorrection v c + update v c * a.finalDecay c
    boundaryDecay := fun c => a.boundaryDecay c * if beforeBoundary then decay c else 1
    boundaryCorrection := fun v c =>
      a.boundaryCorrection v c + if beforeBoundary then update v c * a.boundaryDecay c else 0 }

/-- The loop over `reverse_offset`. -/
def recover (boundaryRecoveryLen : Nat) (records : Nat → Record R κ ν) (commitLen : Nat)
    (steps : Nat) : Recovery R κ ν :=
  (List.range steps).foldl
    (fun a reverseOffset => recoverToken ops head boundaryRecoveryLen records a
      (commitLen - reverseOffset - 1))
    Recovery.init

/-- `_commit_kda_state_kernel`: the final state and the boundary state. -/
def commitStates (records : Nat → Record R κ ν) (initial : KdaState R κ ν)
    (commitLen boundaryRecoveryLen : Nat) :
    KdaState R κ ν × KdaState R κ ν :=
  let a := recover ops head boundaryRecoveryLen records commitLen commitLen
  (fun v c => initial v c * a.finalDecay c + a.finalCorrection v c,
    fun v c => initial v c * a.boundaryDecay c + a.boundaryCorrection v c)

/-! ## The forward recurrence -/

/-- The state after the first `n` tokens, one at a time. -/
def forward (tokens : Nat → Token R κ ν) (initial : KdaState R κ ν) : Nat → KdaState R κ ν
  | 0 => initial
  | n + 1 => (recurrentStep ops head (forward tokens initial n) (tokens n)).1

/-- The correction of the token at `n`. -/
def correctionAt (tokens : Nat → Token R κ ν) (initial : KdaState R κ ν) (n : Nat) : ν → R :=
  (recurrentStep ops head (forward ops head tokens initial n) (tokens n)).2

end Kernels

section Recovery

variable [Fintype κ] {ops : Ops R} {head : Head R κ} {tokens : Nat → Token R κ ν}
    {initial : KdaState R κ ν}
  {records : Nat → Record R κ ν} {scale : R} {queryLen commitLen boundaryRecoveryLen : Nat}

/-- **One step of the recurrence**, by its decay and its correction. -/
theorem forward_succ (n : Nat) (v : ν) (c : κ) :
    forward ops head tokens initial (n + 1) v c =
      forward ops head tokens initial n v c * decay ops head (tokens n).rawG c +
        update ops (correctionAt ops head tokens initial n) (tokens n).k v c := rfl

/-- The record of the token at `n`, as the recurrence gives it. -/
def recordAt (ops : Ops R) (head : Head R κ) (tokens : Nat → Token R κ ν)
    (initial : KdaState R κ ν) (n : Nat) :
    Record R κ ν :=
  ⟨correctionAt ops head tokens initial n, (tokens n).k, (tokens n).rawG⟩

/-- **The window's loop runs the recurrence and saves its corrections.** -/
theorem verify_loop {out : Nat → ν → R} (n : Nat) :
    let w := (List.range n).foldl (verifyToken ops head scale queryLen tokens)
      ⟨initial, out, records⟩
    w.state = forward ops head tokens initial (min n queryLen) ∧
      ∀ s < min n queryLen, w.records s = recordAt ops head tokens initial s := by
  induction n with
  | zero => exact ⟨by rw [Nat.zero_min]; rfl, fun s hs => absurd hs (by omega)⟩
  | succ n ih =>
    obtain ⟨hstate, hrecords⟩ := ih
    rw [List.range_succ, List.foldl_append]
    simp only [List.foldl_cons, List.foldl_nil]
    generalize (List.range n).foldl (verifyToken ops head scale queryLen tokens)
      ⟨initial, out, records⟩ = w at *
    unfold verifyToken
    split
    · rename_i hlt
      rw [min_eq_left (by omega : n ≤ queryLen)] at hstate hrecords
      rw [min_eq_left (by omega : n + 1 ≤ queryLen)]
      refine ⟨by rw [hstate]; rfl, fun s hs => ?_⟩
      dsimp only
      rcases Nat.lt_succ_iff_lt_or_eq.mp hs with hs | rfl
      · rw [Function.update_of_ne hs.ne]
        exact hrecords s hs
      · rw [Function.update_self, hstate]
        rfl
    · rename_i hge
      rw [min_eq_right (by omega : queryLen ≤ n)] at hstate hrecords
      rw [min_eq_right (by omega : queryLen ≤ n + 1)]
      exact ⟨hstate, hrecords⟩

/-- What the verify saves of a row with a state. -/
theorem verify_records {nullBlockId stateIdx : Int} {specQueryLen : Nat}
    {blocks : Int → KdaState R κ ν} {out : Nat → ν → R} (hidx : nullBlockId < stateIdx) {s : Nat}
    (hs : s < min specQueryLen queryLen) :
    (verify ops head nullBlockId specQueryLen scale queryLen tokens blocks stateIdx out
      records).records s =
      recordAt ops head tokens (blocks stateIdx) s := by
  unfold verify
  rw [if_neg (not_le.mpr hidx)]
  exact (verify_loop specQueryLen).2 s hs

theorem recover_succ (j : Nat) : recover ops head boundaryRecoveryLen records commitLen (j + 1) =
    recoverToken ops head boundaryRecoveryLen records
      (recover ops head boundaryRecoveryLen records commitLen j)
      (commitLen - j - 1) := by
  unfold recover
  rw [List.range_succ, List.foldl_append]
  rfl

/-- **The backward loop accumulates what the tokens behind a position do to the state before it.**
-/
theorem recover_final (hrec : ∀ s < commitLen, records s = recordAt ops head tokens initial s)
    {j : Nat} (hj : j ≤ commitLen) (v : ν) (c : κ) :
    forward ops head tokens initial commitLen v c =
      forward ops head tokens initial (commitLen - j) v c *
        (recover ops head boundaryRecoveryLen records commitLen j).finalDecay c +
        (recover ops head boundaryRecoveryLen records commitLen j).finalCorrection v c := by
  induction j with
  | zero =>
    show _ = forward ops head tokens initial commitLen v c * 1 + 0
    ring
  | succ j ih =>
    have hsucc : commitLen - j = commitLen - j - 1 + 1 := by omega
    rw [ih (by omega), recover_succ, hsucc, forward_succ]
    unfold recoverToken
    rw [Nat.add_sub_cancel, hrec (commitLen - j - 1) (by omega),
      show commitLen - (j + 1) = commitLen - j - 1 by omega]
    simp only [recordAt]
    ring

/-- **So do the boundary's accumulators**, for the tokens before the boundary. -/
theorem recover_boundary (hrec : ∀ s < commitLen, records s = recordAt ops head tokens initial s)
    {j : Nat} (hj : j ≤ commitLen) (v : ν) (c : κ) :
    forward ops head tokens initial (min commitLen boundaryRecoveryLen) v c =
      forward ops head tokens initial (min (commitLen - j) boundaryRecoveryLen) v c *
        (recover ops head boundaryRecoveryLen records commitLen j).boundaryDecay c +
        (recover ops head boundaryRecoveryLen records commitLen j).boundaryCorrection v c := by
  induction j with
  | zero =>
    show _ = forward ops head tokens initial (min commitLen boundaryRecoveryLen) v c * 1 + 0
    ring
  | succ j ih =>
    rw [ih (by omega), recover_succ]
    unfold recoverToken
    rw [hrec (commitLen - j - 1) (by omega)]
    dsimp only
    by_cases hb : commitLen - j - 1 < boundaryRecoveryLen
    · rw [if_pos hb, if_pos hb]
      rw [show min (commitLen - j) boundaryRecoveryLen = commitLen - j - 1 + 1 by
        omega, forward_succ,
        show min (commitLen - (j + 1)) boundaryRecoveryLen = commitLen - j - 1 by omega]
      simp only [recordAt]
      ring
    · -- at or behind the boundary nothing is taken
      rw [if_neg hb, if_neg hb, show min (commitLen - (j + 1)) boundaryRecoveryLen =
        min (commitLen - j) boundaryRecoveryLen by omega]
      ring

/-- **The states that a commit stores are states of the recurrence**: after the accepted tokens, and
after those of them before the boundary. -/
theorem commit_recovers {nullBlockId stateIdx : Int} {specQueryLen : Nat}
    {blocks : Int → KdaState R κ ν} {out : Nat → ν → R} (hidx : nullBlockId < stateIdx)
    (ha : commitLen ≤ min specQueryLen queryLen) :
    commitStates ops head
        (verify ops head nullBlockId specQueryLen scale queryLen tokens blocks stateIdx out
          records).records
        (blocks stateIdx) commitLen boundaryRecoveryLen =
      (forward ops head tokens (blocks stateIdx) commitLen,
        forward ops head tokens (blocks stateIdx) (min commitLen boundaryRecoveryLen)) := by
  have hrec : ∀ s < commitLen,
      (verify ops head nullBlockId specQueryLen scale queryLen tokens blocks stateIdx out
      records).records s = recordAt ops head tokens (blocks stateIdx) s :=
        fun s hs => verify_records hidx (hs.trans_le ha)
  generalize (verify ops head nullBlockId specQueryLen scale queryLen tokens blocks stateIdx out
    records).records =
    saved at hrec ⊢
  unfold commitStates
  refine Prod.ext ?_ ?_
  · funext v c
    have h := @recover_final _ _ _ _ _ _ _ _ _ _ _ boundaryRecoveryLen hrec _ le_rfl v c
    rw [Nat.sub_self] at h
    exact h.symm
  · funext v c
    have h := @recover_boundary _ _ _ _ _ _ _ _ _ _ _ boundaryRecoveryLen hrec _ le_rfl v c
    rw [Nat.sub_self, Nat.zero_min] at h
    exact h.symm

/-- Three of four tokens are accepted, the boundary comes after the second. -/
theorem three_tokens_recovered :
    let ops : Ops ℤ := ⟨fun x => 2 * x, fun x => x, fun x => x, fun x => x, fun x => 20 < x, 1⟩
    let head : Head ℤ (Fin 2) := ⟨1, fun c => c, some 1⟩
    let tokens : Nat → Token ℤ (Fin 2) (Fin 2) :=
      fun n => ⟨1, fun c => n + c, fun v => v, fun _ => n, 1⟩
    let blocks : Int → KdaState ℤ (Fin 2) (Fin 2) := fun _ => 1
    commitStates ops head
        (verify ops head 0 4 1 4 tokens blocks 5 (fun _ => 0) (fun _ => ⟨0, 0, 0⟩)).records
          (blocks 5) 3 2 =
      (forward ops head tokens (blocks 5) 3, forward ops head tokens (blocks 5) 2) :=
  commit_recovers (by decide) (by decide)

end Recovery

end Ringside.RecoverSsm

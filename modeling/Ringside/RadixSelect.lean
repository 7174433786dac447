import Mathlib.Algebra.BigOperators.Intervals
import Mathlib.Data.Nat.Count
import Mathlib.Tactic.Ring

/-!
# Selecting by digits

The `K`-th greatest of `n` keys is found digit by digit. The keys with the digits found so far are a
class; what lies above the class is selected, and some of the class remain to be. A histogram of the
next digit says in which subclass the cut lies.

* A class is the keys that agree with a prefix above the lowest `s` bits (`high`).
* `hist` and `suffix` count keys of a class by their next `w` bits; who computes them, and in how
  many parts, is the user's.
* `Cut` is the invariant of a round: what is above the class and `rem` of the class are the `K`
  greatest.

Results:
* `Cut.start`, `Cut.refine`, `Cut.above_zero`: before the first digit, after one more, and after the
  last.
* `suffix_eq`: the sums of a histogram from a digit on.
* `exists_digit`: the digit of the cut.
-/

namespace Ringside.RadixSelect

/-- A key without its lowest `s` bits. -/
def high (s x : Nat) : Nat := x / 2 ^ s * 2 ^ s

variable {x : Nat → Nat} {n K s w P rem b : Nat}

/-- Keys of a class whose next `w` bits are at least `b`. -/
def suffix (x : Nat → Nat) (n s w P b : Nat) : Nat :=
    Nat.count (fun i => high (s + w) (x i) = P ∧ b ≤ x i / 2 ^ s % 2 ^ w) n

/-- Keys of a class whose next `w` bits are `b`. -/
def hist (x : Nat → Nat) (n s w P b : Nat) : Nat :=
    Nat.count (fun i => high (s + w) (x i) = P ∧ x i / 2 ^ s % 2 ^ w = b) n

/-- The cut lies in a class: what is above it and `rem` of the class are the `K` greatest. -/
structure Cut (x : Nat → Nat) (n K s P rem : Nat) : Prop where
  dvd : 2 ^ s ∣ P
  above : Nat.count (fun i => P + 2 ^ s ≤ x i) n + rem = K
  le : rem ≤ Nat.count (fun i => high s (x i) = P) n

theorem high_add (s w x : Nat) : high s x = high (s + w) x + x / 2 ^ s % 2 ^ w * 2 ^ s := by
  unfold high
  rw [Nat.pow_add, ← Nat.div_div_eq_div_mul, Nat.mul_comm (2 ^ s), ← Nat.mul_assoc, ← Nat.add_mul,
    Nat.div_add_mod']

theorem high_eq_iff (h : 2 ^ s ∣ P) (y : Nat) : high s y = P ↔ P ≤ y ∧ y < P + 2 ^ s := by
  obtain ⟨q, rfl⟩ := h
  have hpos : 0 < 2 ^ s := Nat.two_pow_pos s
  have hmod := Nat.mod_lt y hpos
  have hdiv := Nat.div_add_mod y (2 ^ s)
  unfold high
  rw [Nat.mul_comm]
  constructor
  · intro heq
    omega
  · rintro ⟨hle, hlt⟩
    have hq : y / 2 ^ s = q := Nat.div_eq_of_lt_le (by rwa [Nat.mul_comm])
      (by rw [Nat.succ_mul, Nat.mul_comm]; exact hlt)
    rw [hq]

theorem digit_lt (y : Nat) : y / 2 ^ s % 2 ^ w < 2 ^ w := Nat.mod_lt _ (Nat.two_pow_pos w)

theorem count_congr {p q : Nat → Prop} [DecidablePred p] [DecidablePred q]
    (h : ∀ i < n, p i ↔ q i) :
    Nat.count p n = Nat.count q n := by
  rw [Nat.count_eq_card_filter_range, Nat.count_eq_card_filter_range]
  exact congrArg _ (Finset.filter_congr fun i hi => h i (Finset.mem_range.mp hi))

theorem count_split {p q : Nat → Prop} [DecidablePred p] [DecidablePred q] (hpq : ∀ i, p i → ¬q i) :
    Nat.count (fun i => p i ∨ q i) n = Nat.count p n + Nat.count q n := by
  induction n with
  | zero => rfl
  | succ n ih =>
    rw [Nat.count_succ, Nat.count_succ, Nat.count_succ, ih]
    by_cases hp : p n
    · simp only [hp, hpq n hp, true_or, if_true, if_false]
      omega
    · simp only [hp, false_or, if_false]
      omega

/-- From a digit on: this digit, and those behind it. -/
theorem suffix_succ (x : Nat → Nat) (n s w P b : Nat) :
    suffix x n s w P b = hist x n s w P b + suffix x n s w P (b + 1) := by
  unfold suffix hist
  rw [← count_split fun i h h' => by omega]
  exact count_congr fun i _ => by
    constructor
    · rintro ⟨hclass, hle⟩
      rcases hle.eq_or_lt with heq | hlt
      · exact Or.inl ⟨hclass, heq.symm⟩
      · exact Or.inr ⟨hclass, hlt⟩
    · rintro (⟨hclass, heq⟩ | ⟨hclass, hlt⟩)
      · exact ⟨hclass, heq.ge⟩
      · exact ⟨hclass, Nat.le_of_succ_le hlt⟩

theorem suffix_end (x : Nat → Nat) (n s w P : Nat) (hb : 2 ^ w ≤ b) : suffix x n s w P b = 0 := by
  unfold suffix
  rw [count_congr (q := fun _ => False) fun i _ =>
    ⟨fun h => absurd (h.2.trans_lt (digit_lt _)) hb.not_gt, False.elim⟩]
  simp

theorem suffix_zero (x : Nat → Nat) (n s w P : Nat) :
    suffix x n s w P 0 = Nat.count (fun i => high (s + w) (x i) = P) n :=
  count_congr fun _ _ => and_iff_left (Nat.zero_le _)

/-- **The sums of a histogram** from a digit on. -/
theorem suffix_eq (x : Nat → Nat) (n s w P : Nat) {b : Nat} (hb : b ≤ 2 ^ w) :
    suffix x n s w P b = ∑ d ∈ Finset.Ico b (2 ^ w), hist x n s w P d := by
  induction hk : 2 ^ w - b generalizing b with
  | zero =>
    rw [suffix_end x n s w P (by omega), Finset.Ico_eq_empty (by omega), Finset.sum_empty]
  | succ k ih =>
    rw [suffix_succ, Finset.sum_eq_sum_Ico_succ_bot (by omega), ih (by omega) (by omega)]

/-- **Before the first digit.** -/
theorem Cut.start (hx : ∀ i < n, x i < 2 ^ s) (hK : K ≤ n) : Cut x n K s 0 K := by
  refine ⟨Nat.dvd_zero _, ?_, ?_⟩
  · rw [count_congr (q := fun _ => False) fun i hi =>
      ⟨fun h => absurd (hx i hi) (by omega), False.elim⟩]
    simp
  · rw [count_congr (q := fun _ => True) fun i hi => ⟨fun _ => trivial, fun _ => ?_⟩]
    · simpa using hK
    · exact (high_eq_iff (Nat.dvd_zero _) _).mpr ⟨Nat.zero_le _, by
        rw [Nat.zero_add]; exact hx i hi⟩

/-- **The digit of the cut.** -/
theorem exists_digit (h : Cut x n K (s + w) P rem) (hpos : 0 < rem) :
    ∃ b < 2 ^ w, rem ≤ suffix x n s w P b ∧ suffix x n s w P (b + 1) < rem := by
  have hzero : rem ≤ suffix x n s w P 0 := by
    rw [suffix_zero]
    exact h.le
  have hend : suffix x n s w P (2 ^ w) < rem := by
    rw [suffix_end x n s w P le_rfl]
    exact hpos
  by_contra hnone
  push Not at hnone
  have hall : ∀ b ≤ 2 ^ w, rem ≤ suffix x n s w P b := fun b => by
    induction b with
    | zero => exact fun _ => hzero
    | succ b ih => exact fun hb => hnone b hb (ih (Nat.le_of_succ_le hb))
  exact absurd (hall _ le_rfl) hend.not_ge

/-- **One more digit.** -/
theorem Cut.refine (h : Cut x n K (s + w) P rem) (hb : b < 2 ^ w) (hge : rem ≤ suffix x n s w P b)
    (hle : suffix x n s w P (b + 1) ≤ rem) : Cut x n K s (P + b * 2 ^ s)
      (rem - suffix x n s w P (b + 1)) := by
  have hpow : 2 ^ (s + w) = 2 ^ w * 2 ^ s := by rw [Nat.pow_add, Nat.mul_comm]
  have hdvd : 2 ^ s ∣ P := (Nat.pow_dvd_pow 2 (Nat.le_add_right s w)).trans h.dvd
  have hdvd' : 2 ^ s ∣ P + b * 2 ^ s := Nat.dvd_add hdvd (Nat.dvd_mul_left _ _)
  -- a key of the class, by its digit
  have hclass : ∀ y, high (s + w) y = P → high s y = P + y / 2 ^ s % 2 ^ w * 2 ^ s := fun y hy => by
    rw [high_add s w, hy]
  have hhist : hist x n s w P b = Nat.count (fun i => high s (x i) = P + b * 2 ^ s) n := by
    refine count_congr fun i _ => ⟨fun ⟨hc, hd⟩ => by rw [hclass _ hc, hd], fun heq => ?_⟩
    have hin := (high_eq_iff hdvd' _).mp heq
    have hc : high (s + w) (x i) = P := (high_eq_iff h.dvd _).mpr ⟨by omega, by
      have := Nat.mul_le_mul_right (2 ^ s) hb
      rw [Nat.succ_mul] at this
      omega⟩
    refine ⟨hc, ?_⟩
    have := (hclass _ hc).symm.trans heq
    exact Nat.eq_of_mul_eq_mul_right (Nat.two_pow_pos s) (Nat.add_left_cancel this)
  refine ⟨hdvd', ?_, ?_⟩
  · have hsplit : Nat.count (fun i => P + b * 2 ^ s + 2 ^ s ≤ x i) n =
        Nat.count (fun i => P + 2 ^ (s + w) ≤ x i) n + suffix x n s w P (b + 1) := by
      unfold suffix
      rw [← count_split fun i hi hc => by
        have := ((high_eq_iff h.dvd _).mp hc.1).2
        omega]
      refine count_congr fun i _ => ⟨fun hi => ?_, ?_⟩
      · by_cases hout : P + 2 ^ (s + w) ≤ x i
        · exact Or.inl hout
        · have hc : high (s + w) (x i) = P := (high_eq_iff h.dvd _).mpr ⟨by omega, by omega⟩
          refine Or.inr ⟨hc, ?_⟩
          by_contra hd
          have hin := (high_eq_iff (Nat.dvd_add hdvd (Nat.dvd_mul_left _ (x i / 2 ^ s % 2 ^ w)))
            _).mp (hclass _ hc)
          have := Nat.mul_le_mul_right (2 ^ s) (show x i / 2 ^ s % 2 ^ w ≤ b by omega)
          omega
      · rintro (hi | ⟨hc, hd⟩)
        · have := Nat.mul_le_mul_right (2 ^ s) hb
          rw [Nat.succ_mul] at this
          omega
        · have hin := (high_eq_iff (Nat.dvd_add hdvd (Nat.dvd_mul_left _ (x i / 2 ^ s % 2 ^ w)))
            _).mp (hclass _ hc)
          have := Nat.mul_le_mul_right (2 ^ s) hd
          rw [Nat.succ_mul] at this
          omega
    rw [hsplit]
    have := h.above
    omega
  · rw [← hhist]
    have := suffix_succ x n s w P b
    omega

/-- **After the last digit**: what is greater than the key found, and `rem` of those equal to it. -/
theorem Cut.above_zero (h : Cut x n K 0 P rem) :
    Nat.count (fun i => P < x i) n + rem = K ∧ rem ≤ Nat.count (fun i => x i = P) n := by
  have habove := h.above
  have hle := h.le
  simp only [pow_zero, high, Nat.div_one, Nat.mul_one] at habove hle
  exact ⟨habove, hle⟩

end Ringside.RadixSelect

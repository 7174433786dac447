import Mathlib.Tactic

/-!
# Well-formed UTF-8

A byte string is well formed when it is the encoding of a list of Unicode scalar values. `Char` is
exactly those (no surrogates, nothing above `U+10FFFF`), and `String.utf8EncodeChar` writes each in
its shortest form, so nothing here repeats the tables of a decoder.

* `WellFormed` and `IsChar` are statements about encodings; `IsPartial` is a character that is begun
  and not complete.
* `CharBytes` is what the bytes of one character are, by its length: the ranges that a decoder has
  to test.

Results:
* `isChar_iff`: the encodings of one character, by their bytes.
* `exists_scalar`: every code point in range and outside the surrogates is a character.
-/

namespace Ringside.Utf8

/-- The encoding of a list of characters. -/
def WellFormed (bs : List UInt8) : Prop := ∃ cs : List Char, bs = cs.flatMap String.utf8EncodeChar

/-- The encoding of one character. -/
def IsChar (bs : List UInt8) : Prop := ∃ c : Char, bs = String.utf8EncodeChar c

/-- A character that is begun and not complete. -/
def IsPartial (p : List UInt8) : Prop := p ≠ [] ∧ ∃ rest, rest ≠ [] ∧ IsChar (p ++ rest)

/-- A continuation byte. -/
def tail (b : UInt8) : Bool := 0x80 ≤ b.toNat && b.toNat ≤ 0xBF

theorem wellFormed_nil : WellFormed [] := ⟨[], rfl⟩

theorem IsChar.wellFormed_append {l r : List UInt8} (hl : IsChar l) (hr : WellFormed r) :
    WellFormed (l ++ r) := by
  obtain ⟨c, rfl⟩ := hl
  obtain ⟨cs, rfl⟩ := hr
  exact ⟨c :: cs, rfl⟩

/-- A well-formed string begins with a character. -/
theorem WellFormed.cases {bs : List UInt8} (h : WellFormed bs) :
    bs = [] ∨ ∃ l r, bs = l ++ r ∧ IsChar l ∧ WellFormed r := by
  obtain ⟨cs, rfl⟩ := h
  cases cs with
  | nil => exact Or.inl rfl
  | cons c cs => exact Or.inr ⟨_, _, List.flatMap_cons, ⟨c, rfl⟩, ⟨cs, rfl⟩⟩

/-! ## The bytes of one character -/

theorem toNat_ofNat {n : Nat} (h : n < 256) : (UInt8.ofNat n).toNat = n := by
  simpa using Nat.mod_eq_of_lt h

theorem ofNat_toNat (b : UInt8) {n : Nat} (h : n = b.toNat) : UInt8.ofNat n = b := by
  subst h
  exact UInt8.ofNat_toNat

/-- A code point in range and outside the surrogates is a character. -/
theorem exists_scalar {n : Nat} (h : n < 0xD800 ∨ (0xDFFF < n ∧ n < 0x110000)) :
    ∃ c : Char, c.val.toNat = n := by
  refine ⟨⟨UInt32.ofNat n, ?_⟩, ?_⟩
  · have : (UInt32.ofNat n).toNat = n := by simpa using Nat.mod_eq_of_lt (show n < 2 ^ 32 by omega)
    unfold UInt32.isValidChar
    rwa [this]
  · simpa using Nat.mod_eq_of_lt (show n < 2 ^ 32 by omega)

theorem scalar_range (c : Char) :
    c.val.toNat < 0xD800 ∨ (0xDFFF < c.val.toNat ∧ c.val.toNat < 0x110000) := c.valid

/-- What the bytes of a character are. -/
def CharBytes : List UInt8 → Prop
  | [a] => a.toNat < 0x80
  | [a, b] => 0xC2 ≤ a.toNat ∧ a.toNat ≤ 0xDF ∧ tail b
  | [a, b, c] =>
    0xE0 ≤ a.toNat ∧ a.toNat ≤ 0xEF ∧ tail b ∧ tail c ∧
      (a.toNat = 0xE0 → 0xA0 ≤ b.toNat) ∧ (a.toNat = 0xED → b.toNat ≤ 0x9F)
  | [a, b, c, d] =>
    0xF0 ≤ a.toNat ∧ a.toNat ≤ 0xF4 ∧ tail b ∧ tail c ∧ tail d ∧
      (a.toNat = 0xF0 → 0x90 ≤ b.toNat) ∧ (a.toNat = 0xF4 → b.toNat ≤ 0x8F)
  | _ => False

theorem charBytes_encode (c : Char) : CharBytes (String.utf8EncodeChar c) := by
  have hr := scalar_range c
  unfold String.utf8EncodeChar
  generalize c.val.toNat = v at hr
  by_cases h1 : v ≤ 0x7f
  · simp only [h1, if_true, CharBytes]
    rw [toNat_ofNat (by omega)]
    omega
  by_cases h2 : v ≤ 0x7ff
  · simp only [h1, h2, if_true, if_false, CharBytes, tail]
    rw [toNat_ofNat (by omega), toNat_ofNat (by omega)]
    simp only [Bool.and_eq_true, decide_eq_true_eq]
    omega
  by_cases h3 : v ≤ 0xffff
  · simp only [h1, h2, h3, if_true, if_false, CharBytes, tail]
    rw [toNat_ofNat (by omega), toNat_ofNat (by omega), toNat_ofNat (by omega)]
    simp only [Bool.and_eq_true, decide_eq_true_eq]
    omega
  · simp only [h1, h2, h3, if_false, CharBytes, tail]
    rw [toNat_ofNat (by omega), toNat_ofNat (by omega), toNat_ofNat (by omega),
      toNat_ofNat (by omega)]
    simp only [Bool.and_eq_true, decide_eq_true_eq]
    omega

theorem isChar_of_charBytes : ∀ {l : List UInt8}, CharBytes l → IsChar l
  | [a], h => by
    simp only [CharBytes] at h
    obtain ⟨c, hc⟩ := exists_scalar (n := a.toNat) (by omega)
    refine ⟨c, ?_⟩
    unfold String.utf8EncodeChar
    simp only [hc, show a.toNat ≤ 0x7f by omega, if_true, ofNat_toNat a rfl]
  | [a, b], h => by
    simp only [CharBytes, tail, Bool.and_eq_true, decide_eq_true_eq] at h
    obtain ⟨v, hv⟩ : ∃ v, v = (a.toNat - 0xC0) * 64 + (b.toNat - 0x80) := ⟨_, rfl⟩
    obtain ⟨c, hc⟩ := exists_scalar (n := v) (by omega)
    refine ⟨c, ?_⟩
    unfold String.utf8EncodeChar
    simp only [hc, show ¬ v ≤ 0x7f by omega, show v ≤ 0x7ff by omega, if_true, if_false]
    rw [ofNat_toNat a (by omega), ofNat_toNat b (by omega)]
  | [a, b, d], h => by
    simp only [CharBytes, tail, Bool.and_eq_true, decide_eq_true_eq] at h
    obtain ⟨v, hv⟩ : ∃ v, v = (a.toNat - 0xE0) * 4096 + (b.toNat - 0x80) * 64 + (d.toNat - 0x80) :=
      ⟨_, rfl⟩
    obtain ⟨c, hc⟩ := exists_scalar (n := v) (by omega)
    refine ⟨c, ?_⟩
    unfold String.utf8EncodeChar
    simp only [hc, show ¬ v ≤ 0x7f by omega, show ¬ v ≤ 0x7ff by omega, show v ≤ 0xffff by omega,
      if_true, if_false]
    rw [ofNat_toNat a (by omega), ofNat_toNat b (by omega), ofNat_toNat d (by omega)]
  | [a, b, d, e], h => by
    simp only [CharBytes, tail, Bool.and_eq_true, decide_eq_true_eq] at h
    obtain ⟨v, hv⟩ : ∃ v, v = (a.toNat - 0xF0) * 262144 + (b.toNat - 0x80) * 4096 +
        (d.toNat - 0x80) * 64 + (e.toNat - 0x80) := ⟨_, rfl⟩
    obtain ⟨c, hc⟩ := exists_scalar (n := v) (by omega)
    refine ⟨c, ?_⟩
    unfold String.utf8EncodeChar
    simp only [hc, show ¬ v ≤ 0x7f by omega, show ¬ v ≤ 0x7ff by omega, show ¬ v ≤ 0xffff by omega,
      if_false]
    rw [ofNat_toNat a (by omega), ofNat_toNat b (by omega), ofNat_toNat d (by omega),
      ofNat_toNat e (by omega)]

/-- **The encodings of one character, by their bytes.** -/
theorem isChar_iff (l : List UInt8) : IsChar l ↔ CharBytes l := by
  constructor
  · rintro ⟨c, rfl⟩
    exact charBytes_encode c
  · exact isChar_of_charBytes

theorem IsChar.ne_nil {l : List UInt8} (h : IsChar l) : l ≠ [] := by
  rintro rfl
  exact (isChar_iff _).mp h

end Ringside.Utf8

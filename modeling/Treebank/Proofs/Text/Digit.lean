import Treebank.Text.Blank
import Treebank.Text.Digit
import Mathlib.Data.List.Basic
import Mathlib.Data.List.Induction
import Mathlib.Tactic.IntervalCases

/-!
# Laws of decimal digits

The digits of a number are ASCII digits without a leading zero, and their value is the number.
-/

namespace Treebank.Text

/-- The ASCII digits are consecutive. -/
theorem toNat_of_isAsciiDigit {c : Char} (h : isAsciiDigit c) : 48 ≤ c.toNat ∧ c.toNat < 58 := by
  simp only [isAsciiDigit, Bool.and_eq_true, decide_eq_true_eq, Char.le_def, UInt32.le_iff_toNat_le] at h
  have h0 : 48 ≤ c.toNat := h.1
  have h9 : c.toNat ≤ 57 := h.2
  omega

/-- No ASCII digit is a blank. -/
theorem isBlank_of_isAsciiDigit {c : Char} (h : isAsciiDigit c) : isBlank c = false := by
  obtain ⟨hle, hlt⟩ := toNat_of_isAsciiDigit h
  unfold isBlank
  generalize c.toNat = n at hle hlt
  interval_cases n <;> decide

/-- No ASCII digit breaks a line. -/
theorem isLineBreak_of_isAsciiDigit {c : Char} (h : isAsciiDigit c) : isLineBreak c = false := by
  obtain ⟨hle, hlt⟩ := toNat_of_isAsciiDigit h
  unfold isLineBreak
  generalize c.toNat = n at hle hlt
  interval_cases n <;> decide

/-- An ASCII digit has the value that its place among them gives. -/
theorem digitValue?_of_isAsciiDigit {c : Char} (h : isAsciiDigit c) : digitValue? c = some (c.toNat - 48) := by
  have hrange := toNat_of_isAsciiDigit h
  have hzero : (decide (48 ≤ c.toNat) && decide (c.toNat < 48 + 10)) = true := by
    simp only [Bool.and_eq_true, decide_eq_true_eq]
    omega
  have hhead : digitZeros = 0x30 :: digitZeros.tail := rfl
  rw [digitValue?, hhead]
  simp only [List.find?_cons, hzero, Option.map_some]

/-- A number is written in its digits. -/
theorem toList_toString (n : Nat) : (toString n).toList = Nat.toDigits 10 n := by
  rw [show toString n = n.repr from rfl, Nat.repr_eq_ofList_toDigits, String.toList_ofList]

/-- The digits of a number are ASCII digits. -/
theorem isAsciiDigit_of_mem {n : Nat} {c : Char} (h : c ∈ Nat.toDigits 10 n) : isAsciiDigit c := by
  have hdigit := Nat.isDigit_of_mem_toDigits (by decide) (by decide) h
  simpa [Char.isDigit, isAsciiDigit, Char.le_def, ge_iff_le] using hdigit

/-- The value of the digits of a number is the number. -/
theorem digitsValue_toDigits (n : Nat) : digitsValue (Nat.toDigits 10 n) = n := by
  have hvalue : digitsValue (Nat.toDigits 10 n) = Nat.ofDigitChars 10 (Nat.toDigits 10 n) 0 := by
    refine List.foldl_ext _ _ 0 fun m c hc => ?_
    rw [digitValue?_of_isAsciiDigit (isAsciiDigit_of_mem hc)]
    rfl
  rw [hvalue, Nat.ofDigitChars_toDigits (by decide) (by decide)]

/-- The digits of a positive number begin with one that is not zero. -/
theorem toDigits_eq_cons {n : Nat} (h : 0 < n) :
    ∃ c rest, Nat.toDigits 10 n = c :: rest ∧ '1' ≤ c ∧ c ≤ '9' := by
  induction n using Nat.strongRecOn with
  | ind n ih =>
    rw [Nat.toDigits_eq_if (by decide)]
    split
    · rename_i hn
      refine ⟨n.digitChar, [], rfl, ?_⟩
      interval_cases n <;> decide
    · rename_i hn
      obtain ⟨c, rest, hdigits, hc⟩ := ih (n / 10) (by omega) (by omega)
      exact ⟨c, rest ++ [(n % 10).digitChar], by rw [hdigits, List.cons_append], hc⟩

/-- An ASCII digit is the digit of its value. -/
theorem digitChar_of_isAsciiDigit {c : Char} (h : isAsciiDigit c) : ∃ k < 10, digitValue? c = some k ∧ k.digitChar = c := by
  obtain ⟨hle, hlt⟩ := toNat_of_isAsciiDigit h
  refine ⟨c.toNat - 48, by omega, digitValue?_of_isAsciiDigit h, ?_⟩
  have hc : Char.ofNat c.toNat = c := Char.ofNat_toNat c
  generalize c.toNat = n at hle hlt hc
  subst hc
  interval_cases n <;> decide

/-- Digits that do not begin with a zero are those of their value, which is positive. -/
theorem toDigits_digitsValue {c : Char} {cs : List Char} (hone : '1' ≤ c) (hnine : c ≤ '9') (hcs : ∀ d ∈ cs, isAsciiDigit d) :
    0 < digitsValue (c :: cs) ∧ Nat.toDigits 10 (digitsValue (c :: cs)) = c :: cs := by
  have hzero : '0' ≤ c := Char.le_trans (by decide) hone
  have hc : isAsciiDigit c := by simp [isAsciiDigit, hzero, hnine]
  induction cs using List.reverseRecOn with
  | nil =>
    obtain ⟨k, hk, hvalue, hdigit⟩ := digitChar_of_isAsciiDigit hc
    have hkc : digitsValue [c] = k := by simp [digitsValue, hvalue]
    have hpos : 0 < k := by
      rcases Nat.eq_zero_or_pos k with rfl | hpos
      · exact absurd (hdigit ▸ hone) (by decide)
      · exact hpos
    rw [hkc, Nat.toDigits_of_lt_base hk, hdigit]
    exact ⟨hpos, rfl⟩
  | append_singleton cs d ih =>
    obtain ⟨hpos, hdigits⟩ := ih fun e he => hcs e (List.mem_append_left _ he)
    obtain ⟨k, hk, hvalue, hdigit⟩ := digitChar_of_isAsciiDigit (hcs d (List.mem_append_right _ (List.mem_singleton_self d)))
    have hnext : digitsValue (c :: (cs ++ [d])) = 10 * digitsValue (c :: cs) + k := by
      rw [← List.cons_append, digitsValue, List.foldl_append]
      simp [hvalue, digitsValue]
    rw [hnext, Nat.toDigits_of_base_le (by decide) (by omega), show (10 * digitsValue (c :: cs) + k) / 10 = digitsValue (c :: cs) by omega,
      show (10 * digitsValue (c :: cs) + k) % 10 = k by omega, hdigits, hdigit]
    exact ⟨by omega, rfl⟩

end Treebank.Text

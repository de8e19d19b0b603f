import Treebank.Decimal.Numeral
import Treebank.Proofs.Text.Digit
import Treebank.Proofs.Text.Pieces

/-!
# Numerals read back

The digits of a number are read as the number. What stands around numerals or between digits does not matter in texts that hold neither
blanks nor underscores.
-/

namespace Treebank.Numeral

variable {cs : List Char}

/-! ## Margins and underscores -/

/-- A text without blanks has no margins. -/
theorem trimMargins_eq_self (h : ∀ c ∈ cs, isMargin c = false) : trimMargins cs = cs := by
  have hstart : cs.dropWhile isMargin = cs := by
    cases cs with
    | nil => rfl
    | cons c cs => exact List.dropWhile_cons_of_neg (by simp [h c (List.mem_cons_self ..)])
  rw [trimMargins, hstart]
  exact Text.dropEndWhile_eq_self h

/-- A text without underscores keeps all its characters. -/
theorem dropUnderscores_eq_some (before : Bool) (h : '_' ∉ cs) : dropUnderscores before cs = some cs := by
  induction cs generalizing before with
  | nil => rfl
  | cons c cs ih =>
    rw [List.mem_cons, not_or] at h
    rw [dropUnderscores, ih _ h.2]
    · rfl
    · exact fun e => h.1 e.symm

/-- A digit is no blank around a numeral. -/
theorem isMargin_of_isAsciiDigit {c : Char} (h : Text.isAsciiDigit c) : isMargin c = false := by
  rw [isMargin, Text.isBlank_of_isAsciiDigit h, Bool.false_and]

/-! ## Digits -/

/-- An ASCII digit is a decimal digit. -/
theorem isDecimalDigit_of_isAsciiDigit {c : Char} (h : Text.isAsciiDigit c) : Text.isDecimalDigit c := by
  rw [Text.isDecimalDigit, Text.digitValue?_of_isAsciiDigit h]
  rfl

/-- What consists of ASCII digits is read as their value. -/
theorem digits?_eq_some (hne : cs ≠ []) (h : ∀ c ∈ cs, Text.isAsciiDigit c) : digits? cs = some (Text.digitsValue cs) := by
  have hempty : cs.isEmpty = false := by simpa using hne
  have hall : cs.all Text.isDecimalDigit = true := List.all_eq_true.2 fun c hc => isDecimalDigit_of_isAsciiDigit (h c hc)
  rw [digits?, hempty, hall]
  rfl

/-- The digits of a number are not nothing. -/
theorem natDigits_ne_nil (n : Nat) : Text.natDigits n ≠ [] := by
  intro e
  have hlength : 0 < (Nat.toDigits 10 n).length := Nat.length_toDigits_pos
  rw [Text.natDigits] at e
  rw [e] at hlength
  cases hlength

/-- The digits of a number are read as the number. -/
theorem digits?_natDigits (n : Nat) : digits? (Text.natDigits n) = some n := by
  rw [digits?_eq_some (natDigits_ne_nil n) fun c hc => Text.isAsciiDigit_of_mem hc]
  exact congrArg some (Text.digitsValue_toDigits n)

/-- What begins with a digit has no sign. -/
theorem takeSign_of_isAsciiDigit {c : Char} (h : Text.isAsciiDigit c) : takeSign (c :: cs) = (false, c :: cs) := by
  unfold takeSign
  split
  · rename_i heq
    cases heq
    exact absurd h (by decide)
  · rename_i heq
    cases heq
    exact absurd h (by decide)
  · rfl

/-- The digits of a natural number have no sign. -/
theorem takeSign_natDigits (n : Nat) : takeSign (Text.natDigits n) = (false, Text.natDigits n) := by
  obtain ⟨c, rest, e⟩ := List.exists_cons_of_ne_nil (natDigits_ne_nil n)
  have hc : c ∈ Text.natDigits n := e ▸ List.mem_cons_self ..
  rw [e]
  exact takeSign_of_isAsciiDigit (Text.isAsciiDigit_of_mem hc)

/-- A natural number in base ten is read as the number. -/
theorem int?_natDigits (n : Nat) : int? (Text.natDigits n) = some (n : Int) := by
  have hdigits : ∀ c ∈ Text.natDigits n, Text.isAsciiDigit c := fun c hc => Text.isAsciiDigit_of_mem hc
  have htrim := trimMargins_eq_self fun c hc => isMargin_of_isAsciiDigit (hdigits c hc)
  have hunder : '_' ∉ Text.natDigits n := fun hc => absurd (hdigits _ hc) (by decide)
  unfold int?
  rw [htrim, takeSign_natDigits]
  simp only [dropUnderscores_eq_some false hunder, digits?_natDigits, Option.bind_eq_bind, Option.bind_some, Bool.false_eq_true,
    if_false]
  rfl

end Treebank.Numeral

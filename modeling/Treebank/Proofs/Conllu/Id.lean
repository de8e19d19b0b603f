import Treebank.Conllu.Reader
import Treebank.Proofs.Text.Digit
import Treebank.Proofs.Text.Pieces

/-!
# Ids in writing

An id is written with its numbers in base ten, and is read back as what it was.
-/

namespace Treebank.Conllu

/-- An id in writing. -/
def RowId.text : RowId → String
  | .ordinary number => toString number
  | .span start stop => toString start ++ "-" ++ toString stop
  | .elided host number => toString host ++ "." ++ toString number

/-- Whether an id is one of a token. -/
def RowId.isToken : RowId → Bool
  | .span .. => false
  | _ => true

/-- Whether an id is one of an ordinary token. -/
def RowId.isOrdinary : RowId → Bool
  | .ordinary _ => true
  | _ => false

/-- Ids count from one; only a host may be zero. No span stops before it starts. -/
def RowId.Counts : RowId → Prop
  | .ordinary number => 0 < number
  | .span start stop => 0 < start ∧ start ≤ stop
  | .elided _ number => 0 < number

/-! ## Numbers -/

/-- A positive number is read back. -/
theorem positive?_toDigits {n : Nat} (h : 0 < n) : positive? (Nat.toDigits 10 n) = some n := by
  obtain ⟨c, rest, hdigits, hone, hnine⟩ := Text.toDigits_eq_cons h
  have hrest : rest.all Text.isAsciiDigit := List.all_eq_true.2 fun d hd =>
    Text.isAsciiDigit_of_mem (hdigits ▸ List.mem_cons_of_mem c hd)
  have hvalue := Text.digitsValue_toDigits n
  rw [hdigits] at hvalue ⊢
  simp [positive?, hone, hnine, hrest, hvalue]

/-- A number is read back. -/
theorem natural?_toDigits (n : Nat) : natural? (Nat.toDigits 10 n) = some n := by
  have hall : (Nat.toDigits 10 n).all Text.isAsciiDigit := List.all_eq_true.2 fun d hd => Text.isAsciiDigit_of_mem hd
  have hne : (Nat.toDigits 10 n).isEmpty = false := by
    rw [List.isEmpty_eq_false_iff]
    exact Nat.toDigits_ne_nil
  rw [natural?, hne, hall, Text.digitsValue_toDigits]
  rfl

/-- The digits of a number hold no other character. -/
theorem notMem_toDigits {c : Char} (hc : Text.isAsciiDigit c = false) (n : Nat) : c ∉ Nat.toDigits 10 n := fun h => by
  rw [Text.isAsciiDigit_of_mem h] at hc
  cases hc

/-! ## Ids -/

/-- An id in writing, character by character. -/
theorem toList_text (id : RowId) : id.text.toList = match id with
    | .ordinary number => Nat.toDigits 10 number
    | .span start stop => Nat.toDigits 10 start ++ '-' :: Nat.toDigits 10 stop
    | .elided host number => Nat.toDigits 10 host ++ '.' :: Nat.toDigits 10 number := by
  cases id <;> simp [RowId.text, Text.toList_toString, -Nat.toString_eq_repr]

/-- An id is read back. -/
theorem ofText?_text {id : RowId} (h : id.Counts) : RowId.ofText? id.text = some id := by
  have hdash : ∀ n, '-' ∉ Nat.toDigits 10 n := notMem_toDigits (by decide)
  have hpoint : ∀ n, '.' ∉ Nat.toDigits 10 n := notMem_toDigits (by decide)
  unfold RowId.ofText?
  rw [toList_text]
  cases id with
  | ordinary number =>
    simp only [Text.splitFirst?_eq_none_iff.2 (hdash number), Text.splitFirst?_eq_none_iff.2 (hpoint number),
      positive?_toDigits h, Option.map_some]
  | span start stop =>
    simp only [Text.splitFirst?_append (hdash start), positive?_toDigits h.1,
      positive?_toDigits (Nat.lt_of_lt_of_le h.1 h.2)]
    rfl
  | elided host number =>
    have hnone : '-' ∉ Nat.toDigits 10 host ++ '.' :: Nat.toDigits 10 number := by
      simp [hdash]
    simp only [Text.splitFirst?_eq_none_iff.2 hnone, Text.splitFirst?_append (hpoint host), natural?_toDigits,
      positive?_toDigits h]
    rfl

/-- An id is written with digits, a dash and a point. -/
theorem mem_text {id : RowId} {c : Char} (h : c ∈ id.text.toList) : Text.isAsciiDigit c ∨ c = '-' ∨ c = '.' := by
  rw [toList_text] at h
  cases id with
  | ordinary number => exact Or.inl (Text.isAsciiDigit_of_mem h)
  | span start stop =>
    rcases List.mem_append.1 h with h | h
    · exact Or.inl (Text.isAsciiDigit_of_mem h)
    · rcases List.mem_cons.1 h with rfl | h
      · exact Or.inr (Or.inl rfl)
      · exact Or.inl (Text.isAsciiDigit_of_mem h)
  | elided host number =>
    rcases List.mem_append.1 h with h | h
    · exact Or.inl (Text.isAsciiDigit_of_mem h)
    · rcases List.mem_cons.1 h with rfl | h
      · exact Or.inr (Or.inr rfl)
      · exact Or.inl (Text.isAsciiDigit_of_mem h)

/-- An id begins with a digit. -/
theorem text_eq_cons (id : RowId) : ∃ c rest, id.text.toList = c :: rest ∧ Text.isAsciiDigit c := by
  have hdigits : ∀ n, ∃ c rest, Nat.toDigits 10 n = c :: rest ∧ Text.isAsciiDigit c := by
    intro n
    obtain ⟨c, rest, h⟩ := List.exists_cons_of_ne_nil (Nat.toDigits_ne_nil (n := n) (b := 10))
    exact ⟨c, rest, h, Text.isAsciiDigit_of_mem (h ▸ List.mem_cons_self ..)⟩
  rw [toList_text]
  cases id with
  | ordinary number => exact hdigits number
  | span start stop =>
    obtain ⟨c, rest, h, hc⟩ := hdigits start
    simp only [h, List.cons_append]
    exact ⟨c, _, rfl, hc⟩
  | elided host number =>
    obtain ⟨c, rest, h, hc⟩ := hdigits host
    simp only [h, List.cons_append]
    exact ⟨c, _, rfl, hc⟩

/-- No id is written as a zero or as a column without content. -/
theorem text_ne {id : RowId} (h : id.Counts) : id.text ≠ "0" ∧ id.text ≠ blank := by
  have hid := ofText?_text h
  constructor
  · intro e
    rw [e, show RowId.ofText? "0" = none by decide] at hid
    cases hid
  · intro e
    rw [e, show RowId.ofText? blank = none by decide] at hid
    cases hid

end Treebank.Conllu

import Treebank.Json.Reader
import Treebank.Json.Writer
import Treebank.Proofs.Decimal.Spelled

/-!
# JSON scalars in writing

A number is read as it was written, if nothing that would go on with it stands behind (`number?_of_spelled`, `number?_intDigits`), and
so is a string with whatever characters (`scanText_renderText`).
-/

namespace Treebank.Json

open Binary64 Text

variable {rest : List Char}

/-! ## Numbers -/

/-- Whether a number ends where a text begins. -/
def EndsNumber (rest : List Char) : Prop := ∀ c ∈ rest.head?, isAsciiDigit c = false ∧ c ∉ ['.', 'e', 'E']

/-- A number at the start of a text, without its sign, and what follows. -/
def unsigned? (negative : Bool) (body : List Char) : Option (Json × List Char) := do
  let whole := body.takeWhile isAsciiDigit
  if whole.isEmpty || (whole.head? == some '0' && whole.length > 1) then none
  else
    let (fraction, rest) ← fraction? (body.dropWhile isAsciiDigit)
    let (exponent, rest) ← exponent? rest
    let n := digitsValue (whole ++ fraction)
    if fraction.isEmpty && exponent.isNone then return (.int (if negative then -(n : Int) else n), rest)
    else return (.float (ofDecimal negative n (exponent.getD 0 - fraction.length)), rest)

/-- A number is read behind its sign. -/
theorem number?_eq (negative : Bool) {c : Char} (hc : isAsciiDigit c) (cs : List Char) :
    number? ((if negative then ['-'] else []) ++ c :: cs) = unsigned? negative (c :: cs) := by
  cases negative with
  | true => rfl
  | false =>
    have hminus : c ≠ '-' := by
      rintro rfl
      exact absurd hc (by decide)
    unfold number?
    rw [if_neg Bool.false_ne_true, List.nil_append]
    split
    rename_i heq
    split at heq
    · rename_i h
      cases h
      exact absurd rfl hminus
    · cases heq
      rfl

/-- The whole part of a number is read. -/
theorem unsigned?_whole (negative : Bool) {whole tail : List Char} (hwhole : IsWhole whole)
    (htail : ∀ c ∈ tail.head?, isAsciiDigit c = false) :
    unsigned? negative (whole ++ tail) = (do
      let (fraction, rest) ← fraction? tail
      let (exponent, rest) ← exponent? rest
      if fraction.isEmpty && exponent.isNone then
        return (.int (if negative then -(digitsValue (whole ++ fraction) : Int) else digitsValue (whole ++ fraction)), rest)
      else return (.float (ofDecimal negative (digitsValue (whole ++ fraction)) (exponent.getD 0 - fraction.length)), rest)) := by
  have hlead : (whole.isEmpty || (whole.head? == some '0' && decide (whole.length > 1))) = false := by
    rw [Bool.or_eq_false_iff, Bool.and_eq_false_iff]
    refine ⟨by simpa using hwhole.nonempty, ?_⟩
    by_cases hzero : whole.head? = some '0'
    · right
      rw [hwhole.lead hzero]
      rfl
    · left
      simpa using hzero
  unfold unsigned?
  simp only [takeWhile_append_of_head hwhole.digits htail, dropWhile_append_of_head hwhole.digits htail]
  rw [if_neg (by rw [hlead]; exact Bool.false_ne_true)]

/-- A fraction is read. -/
theorem fraction?_point {fraction : List Char} (hdigits : AreDigits fraction) (hne : fraction ≠ [])
    (hrest : ∀ c ∈ rest.head?, isAsciiDigit c = false) : fraction? ('.' :: (fraction ++ rest)) = some (fraction, rest) := by
  unfold fraction?
  simp only [takeWhile_append_of_head hdigits hrest, dropWhile_append_of_head hdigits hrest]
  rw [if_neg (by simpa using hne)]

/-- Without a point there is no fraction. -/
theorem fraction?_none (h : ∀ c ∈ rest.head?, c ≠ '.') : fraction? rest = some ([], rest) := by
  unfold fraction?
  split
  · exact absurd rfl (h '.' rfl)
  · rfl

/-- An exponent is read. -/
theorem exponent?_letter {sign digits : List Char} (hsign : sign ∈ [[], ['+'], ['-']]) (hdigits : AreDigits digits)
    (hne : digits ≠ []) (hrest : ∀ c ∈ rest.head?, isAsciiDigit c = false) :
    exponent? ('e' :: (sign ++ (digits ++ rest))) =
      some (some (if sign = ['-'] then -(digitsValue digits : Int) else digitsValue digits), rest) := by
  rw [← List.append_assoc]
  unfold exponent?
  simp only [decide_true, Bool.true_or, if_true, takeSign_append hsign hdigits hne, takeWhile_append_of_head hdigits hrest,
    dropWhile_append_of_head hdigits hrest, decide_eq_true_eq]
  rw [if_neg (by simpa using hne)]

/-- Without its letter there is no exponent. -/
theorem exponent?_none (h : ∀ c ∈ rest.head?, c ∉ ['e', 'E']) : exponent? rest = some (none, rest) := by
  unfold exponent?
  split
  · rfl
  · rename_i c after
    have hc := h c rfl
    rw [List.mem_cons, List.mem_singleton, not_or] at hc
    rw [if_neg (by simpa using hc)]

/-- A spelled number is read as a number with a fraction or an exponent. -/
theorem number?_of_spelled {cs : List Char} {n : Nat} {g : Int} (h : Spelled cs n g) (negative : Bool) (hrest : EndsNumber rest) :
    number? ((if negative then ['-'] else []) ++ (cs ++ rest)) = some (.float (ofDecimal negative n g), rest) := by
  have hdigit : ∀ c ∈ rest.head?, isAsciiDigit c = false := fun c hc => (hrest c hc).1
  have hletter : ∀ c ∈ rest.head?, c ∉ ['e', 'E'] := fun c hc hmem => (hrest c hc).2 (List.mem_cons_of_mem _ hmem)
  obtain ⟨c, tail, hcs, hc⟩ := h.head
  rw [hcs, List.cons_append, number?_eq negative hc, ← List.cons_append, ← hcs]
  cases h with
  | @point whole fraction hwhole hfraction hne =>
    rw [List.append_assoc, unsigned?_whole negative hwhole (by rintro d ⟨⟩; decide), List.cons_append,
      fraction?_point hfraction hne hdigit]
    simp [exponent?_none hletter, hne]
  | @exponent whole fraction sign digits hwhole hfraction hsign hdigits hne =>
    have hexponent := exponent?_letter hsign hdigits hne hdigit
    by_cases hnone : fraction = []
    · subst hnone
      have htext : whole ++ (if ([] : List Char) = [] then [] else ['.']) ++ 'e' :: sign ++ digits ++ rest =
          whole ++ 'e' :: (sign ++ (digits ++ rest)) := by simp
      rw [htext, unsigned?_whole negative hwhole (by rintro d ⟨⟩; decide), fraction?_none (by rintro d ⟨⟩; decide)]
      simp [hexponent]
    · have htext : whole ++ (if fraction = [] then [] else '.' :: fraction) ++ 'e' :: sign ++ digits ++ rest =
          whole ++ '.' :: (fraction ++ 'e' :: (sign ++ (digits ++ rest))) := by simp [hnone]
      rw [htext, unsigned?_whole negative hwhole (by rintro d ⟨⟩; decide),
        fraction?_point hfraction hnone (by rintro d ⟨⟩; decide)]
      simp [hexponent, hnone]

/-- The digits of a number make its whole part. -/
theorem isWhole_natDigits (n : Nat) : IsWhole (natDigits n) where
  digits := fun _ hc => isAsciiDigit_of_mem hc
  nonempty := Numeral.natDigits_ne_nil n
  lead := by
    intro hzero
    rcases Nat.eq_zero_or_pos n with rfl | hpos
    · rfl
    · obtain ⟨c, tail, hdigits, hc, -⟩ := toDigits_eq_cons hpos
      rw [natDigits, hdigits] at hzero
      cases hzero
      exact absurd hc (by decide)

/-- The digits of a number are read, with a sign or without. -/
theorem number?_natDigits (negative : Bool) (n : Nat) (hrest : EndsNumber rest) :
    number? ((if negative then ['-'] else []) ++ (natDigits n ++ rest)) =
      some (.int (if negative then -(n : Int) else n), rest) := by
  have hdigit : ∀ c ∈ rest.head?, isAsciiDigit c = false := fun c hc => (hrest c hc).1
  have hpoint : ∀ c ∈ rest.head?, c ≠ '.' := by
    rintro c hc rfl
    exact (hrest _ hc).2 (by simp)
  have hletter : ∀ c ∈ rest.head?, c ∉ ['e', 'E'] := fun c hc hmem => (hrest c hc).2 (List.mem_cons_of_mem _ hmem)
  have hwhole := isWhole_natDigits n
  obtain ⟨c, tail, hdigits⟩ := List.exists_cons_of_ne_nil hwhole.nonempty
  have hc : isAsciiDigit c := hwhole.digits c (hdigits ▸ List.mem_cons_self ..)
  rw [hdigits, List.cons_append, number?_eq negative hc, ← List.cons_append, ← hdigits, unsigned?_whole negative hwhole hdigit,
    fraction?_none hpoint]
  simp [exponent?_none hletter, natDigits, digitsValue_toDigits]

/-- An integer is read. -/
theorem number?_intDigits (n : Int) (hrest : EndsNumber rest) : number? (intDigits n ++ rest) = some (.int n, rest) := by
  cases n with
  | ofNat n => exact number?_natDigits false n hrest
  | negSucc n => exact number?_natDigits true (n + 1) hrest

/-! ## Strings -/

/-- A character that stands as its code point is read. -/
theorem hexValue?_hexDigits {n : Nat} (h : n < 0x20) : ∃ a b c d, hexDigits 4 n = [a, b, c, d] ∧ hexValue? [a, b, c, d] = some n := by
  have hall : ∀ n < 0x20, (hexDigits 4 n).length = 4 ∧ hexValue? (hexDigits 4 n) = some n := by decide
  obtain ⟨hlength, hvalue⟩ := hall n h
  obtain ⟨a, b, c, d, hdigits⟩ : ∃ a b c d, hexDigits 4 n = [a, b, c, d] := by
    match hexDigits 4 n, hlength with
    | [a, b, c, d], _ => exact ⟨a, b, c, d, rfl⟩
  exact ⟨a, b, c, d, hdigits, hdigits ▸ hvalue⟩

/-- A character behind a backslash is read. -/
theorem scanText_escape {e c : Char} (h : escape? e = some c) (cs : List Char) :
    scanText none ('\\' :: e :: cs) = (scanText none cs).map fun (text, rest) => (c :: text, rest) := by
  have hunicode : e ≠ 'u' := by
    rintro rfl
    cases h
  rw [scanText]
  · rw [if_neg (by simp), h]
    cases scanText none cs <;> rfl
  · rintro a b c d cs rfl
    exact absurd rfl hunicode

/-- A character that stands for itself is read. -/
theorem scanText_self {c : Char} (hquote : c ≠ '"') (hslash : c ≠ '\\') (hcode : ¬c.toNat < 0x20) (cs : List Char) :
    scanText none (c :: cs) = (scanText none cs).map fun (text, rest) => (c :: text, rest) := by
  rw [scanText]
  · rw [if_neg (by simp [hslash, hcode])]
    cases scanText none cs <;> rfl
  · exact fun h => absurd h hquote
  · exact fun _ _ _ _ _ h => absurd h hslash
  · exact fun _ _ h => absurd h hslash

/-- A character of a string is read. -/
theorem scanText_renderChar (c : Char) (cs : List Char) :
    scanText none (renderChar c ++ cs) = (scanText none cs).map fun (text, rest) => (c :: text, rest) := by
  by_cases hmark : c = '"' ∨ c = '\\'
  · rcases hmark with rfl | rfl <;> exact scanText_escape rfl cs
  by_cases hnamed : c ∈ ['\x08', '\x0c', '\n', '\r', '\t']
  · simp only [List.mem_cons, List.not_mem_nil, or_false] at hnamed
    rcases hnamed with rfl | rfl | rfl | rfl | rfl <;> exact scanText_escape rfl cs
  rw [not_or] at hmark
  simp only [List.mem_cons, List.not_mem_nil, or_false, not_or] at hnamed
  obtain ⟨hb, hf, hn, hr, ht⟩ := hnamed
  unfold renderChar
  simp only [hmark.1, hmark.2, hb, hf, hn, hr, ht, decide_false, Bool.or_self, Bool.false_eq_true, if_false]
  by_cases hcode : c.toNat < 0x20
  · obtain ⟨x, y, z, w, hdigits, hvalue⟩ := hexValue?_hexDigits hcode
    have hlow : ¬(0xDC00 ≤ c.toNat ∧ c.toNat ≤ 0xDFFF) := by omega
    have hhigh : ¬(0xD800 ≤ c.toNat ∧ c.toNat ≤ 0xDBFF) := by omega
    rw [if_pos hcode, hdigits]
    simp only [List.cons_append, List.nil_append]
    rw [scanText, hvalue]
    simp [hhigh, hlow]
    cases scanText none cs <;> rfl
  · rw [if_neg hcode]
    exact scanText_self hmark.1 hmark.2 hcode cs

/-- A string is read up to its end. -/
theorem scanText_flatMap (cs rest : List Char) : scanText none (cs.flatMap renderChar ++ '"' :: rest) = some (cs, rest) := by
  induction cs with
  | nil => rfl
  | cons c cs ih =>
    rw [List.flatMap_cons, List.append_assoc, scanText_renderChar, ih]
    rfl

end Treebank.Json

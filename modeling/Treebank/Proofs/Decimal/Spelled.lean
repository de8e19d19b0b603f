import Treebank.Proofs.Decimal.Shortest

/-!
# Spelled numbers are read

The text of a value is read as the value, infinities included (`float?_render`).
-/

namespace Treebank

namespace Text

/-- A character before the capital letters has no other case. -/
theorem lower_cons_of_lt {c : Char} (h : c.toNat < 0x41) (rest : List Char) : lower (c :: rest) = c :: lower rest := by
  have hcode : lowerCode c.toNat = c.toNat := if_pos h
  have hdot : c ≠ '\u0130' := by
    rintro rfl
    exact absurd h (by decide)
  rw [lower, List.flatMap_cons, if_neg hdot, lowerChar, hcode, Char.ofNat_toNat]
  rfl

end Text

namespace Binary64

/-- A spelled number begins with a digit. -/
theorem Spelled.head {cs : List Char} {n : Nat} {g : Int} (h : Spelled cs n g) : ∃ c rest, cs = c :: rest ∧ Text.isAsciiDigit c := by
  have hwhole : ∀ {whole : List Char} (rest : List Char), IsWhole whole → ∃ c rest', whole ++ rest = c :: rest' ∧ Text.isAsciiDigit c := by
    intro whole rest hw
    obtain ⟨c, cs, rfl⟩ := List.exists_cons_of_ne_nil hw.nonempty
    exact ⟨c, cs ++ rest, rfl, hw.digits c (List.mem_cons_self ..)⟩
  cases h with
  | point hw _ _ => exact hwhole _ hw
  | exponent hw _ _ _ _ =>
    rw [List.append_assoc, List.append_assoc]
    exact hwhole _ hw

/-- A spelled number is made of digits, points, signs and the letter of the exponent. -/
theorem Spelled.mem {cs : List Char} {n : Nat} {g : Int} (h : Spelled cs n g) {c : Char} (hc : c ∈ cs) :
    Text.isAsciiDigit c ∨ c ∈ ['.', 'e', '+', '-'] := by
  cases h with
  | point hw hf _ =>
    rcases List.mem_append.1 hc with hc | hc
    · exact Or.inl (hw.digits c hc)
    · rcases List.mem_cons.1 hc with rfl | hc
      · simp
      · exact Or.inl (hf c hc)
  | @exponent _ fraction _ _ hw hf hs hd _ =>
    rcases List.mem_append.1 hc with hc | hc
    · rcases List.mem_append.1 hc with hc | hc
      · rcases List.mem_append.1 hc with hc | hc
        · exact Or.inl (hw.digits c hc)
        · by_cases hnone : fraction = []
          · rw [if_pos hnone] at hc
            cases hc
          · rw [if_neg hnone] at hc
            rcases List.mem_cons.1 hc with rfl | hc
            · simp
            · exact Or.inl (hf c hc)
      · rcases List.mem_cons.1 hc with rfl | hc
        · simp
        · simp only [List.mem_cons, List.not_mem_nil, or_false] at hs
          rcases hs with rfl | rfl | rfl
          · cases hc
          · rw [List.mem_singleton.1 hc]; simp
          · rw [List.mem_singleton.1 hc]; simp
    · exact Or.inl (hd c hc)

/-- A sign is taken from before digits. -/
theorem takeSign_append {sign digits : List Char} (hs : sign ∈ [[], ['+'], ['-']]) (hd : AreDigits digits) (hne : digits ≠ [])
    (rest : List Char) : Numeral.takeSign (sign ++ digits ++ rest) = (decide (sign = ['-']), digits ++ rest) := by
  obtain ⟨c, ds, rfl⟩ := List.exists_cons_of_ne_nil hne
  simp only [List.mem_cons, List.not_mem_nil, or_false] at hs
  rcases hs with rfl | rfl | rfl
  · exact Numeral.takeSign_of_isAsciiDigit (hd c (List.mem_cons_self ..))
  · rfl
  · rfl

/-- Neither a point nor the letter of the exponent is a digit of any script. -/
theorem isDecimalDigit_mark : Text.isDecimalDigit '.' = false ∧ Text.isDecimalDigit 'e' = false := by decide

/-- An exponent is read. -/
theorem exponent?_of_digits {sign digits : List Char} (hs : sign ∈ [[], ['+'], ['-']]) (hd : AreDigits digits) (hne : digits ≠ []) :
    Numeral.exponent? ('e' :: (sign ++ digits)) =
      some (if sign = ['-'] then -(Text.digitsValue digits : Int) else Text.digitsValue digits) := by
  have hsign := takeSign_append hs hd hne []
  rw [List.append_nil, List.append_nil] at hsign
  unfold Numeral.exponent?
  simp only [decide_true, Bool.true_or, if_true, hsign, Numeral.digits?_eq_some hne hd, Option.bind_eq_bind, Option.bind_some,
    decide_eq_true_eq]
  rfl

/-- A spelled number without a sign is read. -/
theorem magnitude?_of_spelled {cs : List Char} {n : Nat} {g : Int} (h : Spelled cs n g) (negative : Bool) :
    Numeral.magnitude? negative cs = some (ofDecimal negative n g) := by
  have hdecimal : ∀ {ds : List Char}, AreDigits ds → ∀ c ∈ ds, Text.isDecimalDigit c :=
    fun hds c hc => Numeral.isDecimalDigit_of_isAsciiDigit (hds c hc)
  obtain ⟨hpoint, hletter⟩ := isDecimalDigit_mark
  cases h with
  | @point whole fraction hw hf hne =>
    have hhead : ∀ c ∈ ('.' :: fraction).head?, Text.isDecimalDigit c = false := by
      rintro c ⟨⟩
      exact hpoint
    have htake : fraction.takeWhile Text.isDecimalDigit = fraction := List.takeWhile_eq_self_iff.2 (hdecimal hf)
    have hdrop : fraction.dropWhile Text.isDecimalDigit = [] := List.dropWhile_eq_nil_iff.2 (hdecimal hf)
    have hall : AreDigits (whole ++ fraction) := hw.digits.append hf
    have hdigits := Numeral.digits?_eq_some (by simp [hne]) hall
    unfold Numeral.magnitude?
    simp only [Text.takeWhile_append_of_head (hdecimal hw.digits) hhead, Text.dropWhile_append_of_head (hdecimal hw.digits) hhead,
      htake, hdrop, hdigits, Numeral.exponent?, Option.bind_eq_bind, Option.bind_some, Int.zero_sub]
    rfl
  | @exponent whole fraction sign digits hw hf hs hd hne =>
    have hexponent := exponent?_of_digits hs hd hne
    have hhead : ∀ c ∈ ('e' :: (sign ++ digits)).head?, Text.isDecimalDigit c = false := by
      rintro c ⟨⟩
      exact hletter
    by_cases hnone : fraction = []
    · subst hnone
      have hdigits := Numeral.digits?_eq_some (List.append_ne_nil_of_left_ne_nil hw.nonempty []) (hw.digits.append hf)
      rw [if_pos rfl, List.append_nil, List.append_assoc, List.cons_append]
      unfold Numeral.magnitude?
      rw [Text.takeWhile_append_of_head (hdecimal hw.digits) hhead, Text.dropWhile_append_of_head (hdecimal hw.digits) hhead]
      show (Numeral.digits? (whole ++ [])).bind (fun n => (Numeral.exponent? ('e' :: (sign ++ digits))).bind fun e =>
        pure (ofDecimal negative n (e - ([] : List Char).length))) = _
      rw [hdigits, hexponent, List.append_nil]
      rfl
    · have hfirst : ∀ c ∈ ('.' :: (fraction ++ 'e' :: (sign ++ digits))).head?, Text.isDecimalDigit c = false := by
        rintro c ⟨⟩
        exact hpoint
      have hdigits := Numeral.digits?_eq_some (List.append_ne_nil_of_left_ne_nil hw.nonempty fraction) (hw.digits.append hf)
      rw [if_neg hnone]
      simp only [List.append_assoc, List.cons_append]
      unfold Numeral.magnitude?
      simp only [Text.takeWhile_append_of_head (hdecimal hw.digits) hfirst, Text.dropWhile_append_of_head (hdecimal hw.digits) hfirst,
        Text.takeWhile_append_of_head (hdecimal hf) hhead, Text.dropWhile_append_of_head (hdecimal hf) hhead,
        hdigits, hexponent, Option.bind_eq_bind, Option.bind_some]
      rfl

/-- A spelled number is read, with a sign or without. -/
theorem float?_of_spelled {cs : List Char} {n : Nat} {g : Int} (h : Spelled cs n g) (negative : Bool) :
    Numeral.float? ((if negative then ['-'] else []) ++ cs) = some (ofDecimal negative n g) := by
  have hmem : ∀ c ∈ (if negative then ['-'] else []) ++ cs, Text.isAsciiDigit c ∨ c ∈ ['.', 'e', '+', '-'] := by
    intro c hc
    rcases List.mem_append.1 hc with hc | hc
    · split at hc
      · rw [List.mem_singleton.1 hc]; simp
      · cases hc
    · exact h.mem hc
  have hmargin : ∀ c ∈ (if negative then ['-'] else []) ++ cs, Numeral.isMargin c = false := by
    intro c hc
    rcases hmem c hc with hd | hm
    · exact Numeral.isMargin_of_isAsciiDigit hd
    · simp only [List.mem_cons, List.not_mem_nil, or_false] at hm
      rcases hm with rfl | rfl | rfl | rfl <;> decide
  have hunder : '_' ∉ (if negative then ['-'] else []) ++ cs := by
    intro hc
    rcases hmem _ hc with hd | hm
    · exact absurd hd (by decide)
    · exact absurd hm (by decide)
  obtain ⟨c, rest, rfl, hc⟩ := h.head
  have hsign : Numeral.takeSign ((if negative then ['-'] else []) ++ c :: rest) = (negative, c :: rest) := by
    cases negative
    · exact Numeral.takeSign_of_isAsciiDigit hc
    · rfl
  have hword : ∀ d ds, Text.isAsciiDigit d = false → String.ofList (Text.lower (c :: rest)) ≠ String.ofList (d :: ds) := by
    intro d ds hd e
    have hlower := congrArg String.toList e
    have hlt := (Text.toNat_of_isAsciiDigit hc).2
    rw [String.toList_ofList, String.toList_ofList, Text.lower_cons_of_lt (by omega)] at hlower
    rw [(List.cons.inj hlower).1, hd] at hc
    cases hc
  unfold Numeral.float?
  rw [Numeral.trimMargins_eq_self hmargin, Numeral.dropUnderscores_eq_some false hunder]
  simp only [Option.bind_eq_bind, Option.bind_some, hsign, magnitude?_of_spelled h]
  have hinf : String.ofList (Text.lower (c :: rest)) ≠ "inf" := hword 'i' ['n', 'f'] rfl
  have hinfinity : String.ofList (Text.lower (c :: rest)) ≠ "infinity" := hword 'i' ['n', 'f', 'i', 'n', 'i', 't', 'y'] rfl
  have hnan : String.ofList (Text.lower (c :: rest)) ≠ "nan" := hword 'n' ['a', 'n'] rfl
  simp [hinf, hinfinity, hnan]

/-- The text of a value is read as the value. -/
theorem float?_render {x : Binary64} (hc : x.Canonical) (hx : x ≠ .notANumber) : Numeral.float? x.text.toList = some x := by
  rw [text, String.toList_ofList]
  cases x with
  | notANumber => exact absurd rfl hx
  | infinite negative => cases negative <;> decide
  | finite negative m q =>
    obtain ⟨cs, n, g, hrender, hspelled, hvalue⟩ := spelled_renderIn plainLayout hc
    rw [render, hrender, float?_of_spelled hspelled, hvalue]

/-- One has a text that is read. -/
example : Numeral.float? one.text.toList = some one := float?_render (by decide) (by decide)

end Binary64

end Treebank

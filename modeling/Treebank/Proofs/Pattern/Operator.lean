import Treebank.Proofs.Pattern.Description

/-!
# Operators in writing

An operator that was read is read again from its own text, in front of a blank: the bounds end with the sign, the sign with the label,
and the label with the name of the edge. Only a regular expression with a slash would end too early.
-/

namespace Treebank.Pattern

variable {i i' : Input} {cs rest more : List Char} {o : Operator}

/-! ## Bounds and signs -/

theorem isDecimalDigit_of_mem {n : Nat} {c : Char} (h : c ∈ Nat.toDigits 10 n) : Text.isDecimalDigit c = true := by
  rw [Text.isDecimalDigit, Text.digitValue?_of_isAsciiDigit (Text.isAsciiDigit_of_mem h)]
  rfl

/-- Bounds are read again in front of a sign. -/
theorem takeDepth_text (low high : Nat) {c : Char} (hc : Text.isDecimalDigit c = false) (more : List Char) :
    takeDepth (Nat.toDigits 10 low ++ ',' :: (Nat.toDigits 10 high ++ c :: more)) = (some (low, high), c :: more) := by
  have hdigits : ∀ n, ∀ c ∈ Nat.toDigits 10 n, Text.isDecimalDigit c = true := fun n c hc => isDecimalDigit_of_mem hc
  obtain ⟨hlow, hcomma⟩ := run_append (hdigits low) (',' :: (Nat.toDigits 10 high ++ c :: more)) (by rintro _ ⟨⟩; decide)
  obtain ⟨hhigh, hrest⟩ := run_append (hdigits high) (c :: more) (by rintro _ ⟨⟩; exact hc)
  have hne : ∀ n, (Nat.toDigits 10 n).isEmpty = false := fun n => List.isEmpty_eq_false_iff.2 Nat.toDigits_ne_nil
  simp only [takeDepth, hlow, hcomma, hhigh, hrest, hne, Text.digitsValue_toDigits]
  rfl

/-- Where no digit stands there are no bounds. -/
theorem takeDepth_none {c : Char} (hc : Text.isDecimalDigit c = false) (more : List Char) :
    takeDepth (c :: more) = (none, c :: more) := by
  simp [takeDepth, hc]

/-- A sign begins with a character that is no digit. -/
theorem Kind.sign_eq_cons (kind : Kind) : ∃ c text, kind.sign.toList = c :: text ∧ Text.isDecimalDigit c = false ∧
    (isOperatorChar c = true ∨ c = '=') := by
  cases kind <;> exact ⟨_, _, rfl, by decide, by decide⟩

/-- A sign is read again where no sign runs into what follows. -/
theorem operatorSign_text (kind : Kind) (hmore : ∀ c ∈ more.head?, isOperatorChar c = false) :
    operatorSign (kind.sign.toList ++ more) = kind.sign.toList := by
  have hrun : ∀ sign : List Char, sign.all isOperatorChar = true → (sign ++ more).takeWhile isOperatorChar = sign :=
    fun sign hsign => (run_append (List.all_eq_true.1 hsign) more hmore).1
  cases kind with
  | same => rfl
  | child => exact hrun ['>'] (by decide)
  | parent => exact hrun ['<'] (by decide)
  | descendant => exact hrun ['>', '>'] (by decide)
  | ancestor => exact hrun ['<', '<'] (by decide)
  | nextWord => exact hrun ['.'] (by decide)
  | rightNeighbour => exact hrun ['$', '+'] (by decide)
  | leftNeighbour => exact hrun ['$', '-'] (by decide)
  | rightSibling => exact hrun ['$', '+', '+'] (by decide)
  | leftSibling => exact hrun ['$', '-', '-'] (by decide)

/-! ## Labels -/

/-- Whether a label says in writing what it is: a regular expression holds no slash, which would end it. -/
def Label.legible : Label → Bool
  | .regex source _ => !source.toList.contains '/'
  | _ => true

/-- What may stand behind a label in writing: the name of an edge, or a blank. -/
def EndsLabel (more : List Char) : Prop := ∀ c ∈ more.head?, c = '=' ∨ c = ' '

theorem EndsLabel.notMem (h : EndsLabel more) : ∀ c ∈ more.head?, isLabelChar c = false ∧ c ≠ ':' := by
  intro c hc
  rcases h c hc with rfl | rfl <;> decide

/-- Subtypes begin with a colon. -/
theorem head_labelTail (h : EndsLabel more) (cs : List Char) : ∀ c ∈ ((labelTail cs).1 ++ more).head?, isLabelChar c = false := by
  unfold labelTail
  split
  · simp only
    split
    · exact fun c hc => (h.notMem c hc).1
    · rintro _ ⟨⟩
      decide
  · exact fun c hc => (h.notMem c hc).1

/-- The subtypes of a label are read again. -/
theorem labelTail_again (h : EndsLabel more) (cs : List Char) : labelTail ((labelTail cs).1 ++ more) = ((labelTail cs).1, more) := by
  have hnone : labelTail more = ([], more) := labelTail.eq_2 _ fun rest e => by
    rw [e] at h
    exact (h.notMem ':' rfl).2 rfl
  induction cs using labelTail.induct with
  | case1 rest part hpart =>
    have hpart : (rest.takeWhile isLabelChar).isEmpty = true := hpart
    rw [labelTail, if_pos hpart]
    exact hnone
  | case2 rest part hpart tail after ht ih =>
    have hpart : ¬ (rest.takeWhile isLabelChar).isEmpty = true := hpart
    have hrun : ∀ c ∈ rest.takeWhile isLabelChar, isLabelChar c = true := fun c hc => List.mem_takeWhile_imp hc
    obtain ⟨htake, hdrop⟩ := run_append hrun _ (head_labelTail h (rest.dropWhile isLabelChar))
    rw [ht] at htake hdrop ih
    rw [labelTail.eq_1 rest, if_neg hpart, ht]
    simp only [List.cons_append, List.append_assoc]
    rw [labelTail, htake, hdrop, if_neg hpart, ih]
    rfl
  | case3 cs hno =>
    rw [labelTail.eq_2 _ hno]
    exact hnone

/-- A label that is read is none, a regular expression, or a run of label characters with its subtypes. -/
theorem of_takeLabel {l : Label} (h : takeLabel i cs = .ok (l, rest)) : l = .any ∨
    (∃ source r, l = .regex source r ∧ ∃ slash rest, takeRegex i slash = .ok ((source, r), rest)) ∨
      ∃ c text, (isLetter c || c = '_') = true ∧
        l = .exact (String.ofList ((c :: text).takeWhile isLabelChar ++ (labelTail ((c :: text).dropWhile isLabelChar)).1)) := by
  unfold takeLabel at h
  split at h
  · obtain ⟨⟨⟨source, r⟩, rest'⟩, hr, h⟩ := bind_eq_ok_iff.1 h
    cases h
    exact .inr (.inl ⟨source, r, rfl, _, _, hr⟩)
  · cases h
    exact .inl rfl
  · rename_i c text _ _
    split at h
    · rename_i hc
      cases h
      exact .inr (.inr ⟨c, text, hc, rfl⟩)
    · cases h
      exact .inl rfl
  · cases h
    exact .inl rfl

theorem isLabelChar_of_begins {c : Char} (h : (isLetter c || c = '_') = true) : isLabelChar c = true := by
  rw [isLabelChar, isNameChar]
  rcases Bool.or_eq_true_iff.1 h with hc | hc <;> simp [hc]

/-- A label that was read is read again. -/
theorem takeLabel_text {l : Label} (h : takeLabel i cs = .ok (l, rest)) (hl : l.legible = true) (hmore : EndsLabel more) :
    takeLabel i' (l.text.toList ++ more) = .ok (l, more) := by
  rcases of_takeLabel h with rfl | ⟨source, r, rfl, slash, rest', hr⟩ | ⟨c, text, hc, rfl⟩
  · change takeLabel i' more = _
    cases more with
    | nil => rfl
    | cons c more => rcases hmore c rfl with rfl | rfl <;> rfl
  · have hs : '/' ∉ source.toList := by simpa [Label.legible] using hl
    have htext : (Label.regex source r).text.toList ++ more = '/' :: (source.toList ++ '/' :: more) := by simp [Label.text]
    rw [htext, takeLabel, takeRegex_source hr hs more]
    rfl
  · have hrun : ∀ b ∈ (c :: text).takeWhile isLabelChar, isLabelChar b = true := fun b hb => List.mem_takeWhile_imp hb
    obtain ⟨htake, hdrop⟩ := run_append hrun _ (head_labelTail hmore ((c :: text).dropWhile isLabelChar))
    have hcons : ∀ more, (c :: text).takeWhile isLabelChar ++ more = c :: (text.takeWhile isLabelChar ++ more) := by
      intro more
      rw [List.takeWhile_cons_of_pos (isLabelChar_of_begins hc), List.cons_append]
    have hslash : c ≠ '/' := by
      rintro rfl
      exact absurd hc (by decide)
    have hpercent : c ≠ '%' := by
      rintro rfl
      exact absurd hc (by decide)
    rw [Label.text, String.toList_ofList, List.append_assoc, hcons, takeLabel.eq_3 _ _ _ hslash hpercent, if_pos hc, ← hcons, htake,
      hdrop, labelTail_again hmore]

/-- No sign runs into a label. -/
theorem head_label {l : Label} (h : takeLabel i cs = .ok (l, rest)) (hmore : EndsLabel more) :
    ∀ c ∈ (l.text.toList ++ more).head?, isOperatorChar c = false := by
  intro b hb
  rcases of_takeLabel h with rfl | ⟨source, r, rfl, -⟩ | ⟨c, text, hc, rfl⟩
  · rcases hmore b hb with rfl | rfl <;> decide
  · obtain rfl : '/' = b := by simpa [Label.text] using hb
    decide
  · rw [Label.text, String.toList_ofList, List.takeWhile_cons_of_pos (isLabelChar_of_begins hc)] at hb
    obtain rfl : c = b := by simpa using hb
    by_contra hsign
    simp only [isOperatorChar, Bool.not_eq_false, Bool.or_eq_true, decide_eq_true_eq] at hsign
    rcases hsign with ((((rfl | rfl) | rfl) | rfl) | rfl) | rfl <;> exact absurd hc (by decide)

/-! ## Operators -/

/-- The bounds of an operator in writing. -/
def Operator.boundsText (o : Operator) : List Char :=
  if o.isLimited then Nat.toDigits 10 o.minDepth ++ ',' :: Nat.toDigits 10 o.maxDepth else []

theorem Operator.toList_text (o : Operator) :
    o.text.toList = o.boundsText ++ (o.kind.sign.toList ++ (o.label.text.toList ++ nameText o.edgeName)) := by
  unfold Operator.text Operator.boundsText nameText
  cases o.isLimited <;> simp

/-- An operator that was read is read again, in front of a blank. -/
theorem takeOperator_text (h : o.IsRead) (hl : o.label.legible = true) (more : List Char) :
    takeOperator i (o.text.toList ++ ' ' :: more) = .ok (o, ' ' :: more) := by
  obtain ⟨i₀, cs, rest, h⟩ := h
  obtain ⟨depth, text, rest₁, -, hsign, hdepth, hbounds, hlabel, hname, hfollows⟩ := takeOperator_eq_ok_iff.1 h
  have hend : EndsLabel (nameText o.edgeName ++ ' ' :: more) := by
    cases o.edgeName with
    | none =>
      rintro _ ⟨⟩
      exact .inr rfl
    | some name =>
      rintro c hc
      simp [nameText] at hc
      exact .inl hc.symm
  have hnameText : takeName i .edgeNameMissing (nameText o.edgeName ++ ' ' :: more) = .ok (o.edgeName, ' ' :: more) :=
    takeName_text hname (by rintro _ ⟨⟩; decide)
  have hlabelText : takeLabel i (o.label.text.toList ++ (nameText o.edgeName ++ ' ' :: more)) =
      .ok (o.label, nameText o.edgeName ++ ' ' :: more) := takeLabel_text hlabel hl hend
  have hsignText := operatorSign_text o.kind (head_label hlabel hend)
  obtain ⟨c, sign, hcons, hdigit, -⟩ := o.kind.sign_eq_cons
  rw [Operator.toList_text, List.append_assoc, List.append_assoc, List.append_assoc]
  refine takeOperator_eq_ok_iff.2
    ⟨depth, o.kind.sign.toList ++ (o.label.text.toList ++ (nameText o.edgeName ++ ' ' :: more)), _, ?_, hsignText, hdepth, hbounds,
      ?_, hnameText, hfollows⟩
  · rw [hcons, List.cons_append]
    cases depth with
    | none =>
      obtain ⟨-, hmax⟩ := Prod.mk.inj hbounds
      rw [Operator.boundsText, Operator.isLimited, ← hmax, if_neg (by decide), List.nil_append]
      exact takeDepth_none hdigit _
    | some bounds =>
      obtain ⟨-, hfits⟩ := hdepth rfl
      have hlimited : o.isLimited = true := by
        simp only [depthFits, Bool.and_eq_true] at hfits
        exact hfits.2
      rw [Operator.boundsText, if_pos hlimited, List.append_assoc, List.cons_append, takeDepth_text _ _ hdigit]
      exact congrArg (fun bounds => (some bounds, _)) hbounds.symm
  · rw [List.drop_left]
    exact hlabelText

/-- An operator begins with a digit or with a sign. -/
theorem Operator.text_eq_cons (o : Operator) : ∃ c text, o.text.toList = c :: text ∧
    (Text.isAsciiDigit c = true ∨ isOperatorChar c = true ∨ c = '=') := by
  obtain ⟨c, sign, hcons, -, hc⟩ := o.kind.sign_eq_cons
  rw [Operator.toList_text, Operator.boundsText]
  split
  · obtain ⟨b, digits, hdigits⟩ := List.exists_cons_of_ne_nil (Nat.toDigits_ne_nil (b := 10) (n := o.minDepth))
    refine ⟨b, _, by rw [hdigits, List.cons_append, List.cons_append], .inl (Text.isAsciiDigit_of_mem (n := o.minDepth) ?_)⟩
    exact hdigits ▸ List.mem_cons_self ..
  · exact ⟨c, _, by rw [List.nil_append, hcons, List.cons_append], .inr hc⟩

end Treebank.Pattern

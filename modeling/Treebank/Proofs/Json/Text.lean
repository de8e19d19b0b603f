import Treebank.Proofs.Json.Scalar

/-!
# JSON in writing

A value that was written is read again (`read_render`): nothing stands behind it, and it is the same but for numbers that are not
finite, which have become null. The proof follows the value: the pushdown gets from before a value to behind it over the writing of the
value, whatever arrays and objects are open around it.
-/

namespace Treebank.Json

open Binary64 Text

variable {rest : List Char} {stack : List Frame} {expect : Expect}

mutual
/-- A value as its writing keeps it. -/
def stored : Json → Json
  | float (.finite negative m q) => .float (.finite negative m q)
  | float _ => .null
  | arr items => .arr (storedItems items)
  | obj fields => .obj (storedFields fields)
  | v => v

/-- The items of an array as its writing keeps them. -/
def storedItems : List Json → List Json
  | [] => []
  | v :: vs => stored v :: storedItems vs

/-- The fields of an object as its writing keeps them. -/
def storedFields : List (String × Json) → List (String × Json)
  | [] => []
  | (k, v) :: fs => (k, stored v) :: storedFields fs
end

@[simp] theorem stored_str (s : String) : stored (.str s) = .str s := rfl

@[simp] theorem stored_bool (b : Bool) : stored (.bool b) = .bool b := rfl

mutual
/-- Whether a value is nowhere broken and its numbers are values of the format. -/
def Proper : Json → Prop
  | float x => x.Canonical
  | arr items => ProperItems items
  | obj fields => ProperFields fields
  | broken => False
  | _ => True

/-- Whether the items of an array are proper. -/
def ProperItems : List Json → Prop
  | [] => True
  | v :: vs => Proper v ∧ ProperItems vs

/-- Whether the fields of an object are proper. -/
def ProperFields : List (String × Json) → Prop
  | [] => True
  | (_, v) :: fs => Proper v ∧ ProperFields fs
end

/-! ## Lexemes -/

/-- A string is a lexeme. -/
theorem lexeme_renderText (s : String) (rest : List Char) : lexeme (renderText s ++ rest) = (.scalar (.str s), rest) := by
  have htext : renderText s ++ rest = '"' :: (s.toList.flatMap renderChar ++ '"' :: rest) := by simp [renderText]
  rw [htext]
  unfold lexeme
  simp only [scanText_flatMap, String.ofList_toList]

/-- A number is a lexeme. -/
theorem lexeme_number {cs : List Char} {v : Json} {c : Char} (hc : isAsciiDigit c ∨ c = '-') (h : number? (c :: cs) = some (v, rest)) :
    lexeme (c :: cs) = (.scalar v, rest) := by
  have hmarks : ∀ d ∈ ['[', ']', '{', '}', ',', ':', '"', 't', 'f', 'n'], c ≠ d := by
    rintro d hd rfl
    simp only [List.mem_cons, List.not_mem_nil, or_false] at hd
    rcases hd with rfl | rfl | rfl | rfl | rfl | rfl | rfl | rfl | rfl | rfl <;> exact absurd hc (by decide)
  unfold lexeme
  split
  case h_11 => simp only [h]
  all_goals
    rename_i heq
    exact absurd (List.cons.inj heq).1 (hmarks _ (by simp))

/-- What the pushdown comes to over the lexemes of a text. -/
def advance (p : Progress) (cs : List Char) : Progress := (lexemes cs).foldl Progress.step p

/-- The pushdown moves over a lexeme and the blanks before it. -/
theorem advance_lexeme (p : Progress) {blanks piece : List Char} {c : Char} {l : Lexeme} (hblanks : ∀ d ∈ blanks, isSpace d)
    (hc : isSpace c = false) (h : lexeme (c :: (piece ++ rest)) = (l, rest)) :
    advance p (blanks ++ c :: (piece ++ rest)) = advance (p.step l) rest := by
  have hdrop : (blanks ++ c :: (piece ++ rest)).dropWhile isSpace = c :: (piece ++ rest) :=
    dropWhile_append_of_head hblanks (by rintro d ⟨⟩; exact hc)
  have hshort : rest.length < (blanks ++ c :: (piece ++ rest)).length := by
    simp only [List.length_append, List.length_cons]
    omega
  unfold advance
  rw [lexemes, hdrop]
  simp only [h, hshort, if_true, List.foldl_cons]

/-- A new line holds blanks only. -/
theorem isSpace_of_mem_newLine {depth : Nat} {c : Char} (h : c ∈ newLine depth) : isSpace c := by
  rcases List.mem_cons.1 h with rfl | h
  · decide
  · rw [List.eq_of_mem_replicate h]
    decide

/-- Behind a number may stand the end, a comma or a new line. -/
theorem endsNumber_renderItems (depth d : Nat) (vs : List Json) (rest : List Char) :
    EndsNumber (renderItems depth vs ++ (newLine d ++ rest)) := by
  cases vs with
  | nil => rintro c ⟨⟩; decide
  | cons v vs =>
    rw [renderItems]
    rintro c ⟨⟩
    decide

/-- Behind a number may stand the end, a comma or a new line. -/
theorem endsNumber_renderFields (depth d : Nat) (fs : List (String × Json)) (rest : List Char) :
    EndsNumber (renderFields depth fs ++ (newLine d ++ rest)) := by
  cases fs with
  | nil => rintro c ⟨⟩; decide
  | cons f fs =>
    obtain ⟨k, v⟩ := f
    rw [renderFields]
    rintro c ⟨⟩
    decide

/-! ## The pushdown -/

/-- Where a value may stand, the pushdown takes what begins one. -/
theorem step_value (he : expect = .value ∨ expect = .valueOrEnd) (stack : List Frame) {l : Lexeme} (hl : l ≠ .closeArray) :
    Progress.step (.reading expect stack) l = stepValue stack l := by
  rcases he with rfl | rfl
  · rfl
  · cases l with
    | closeArray => exact absurd rfl hl
    | _ => rcases stack with _ | ⟨_ | _, _⟩ <;> rfl

/-- The pushdown moves over a scalar. -/
theorem advance_scalar (he : expect = .value ∨ expect = .valueOrEnd) {blanks text : List Char} {v : Json}
    (hblanks : ∀ d ∈ blanks, isSpace d) {c : Char} {piece : List Char} (htext : text = c :: piece) (hc : isSpace c = false)
    (hwhole : v.isWhole) (h : lexeme (text ++ rest) = (.scalar v, rest)) :
    advance (.reading expect stack) (blanks ++ (text ++ rest)) = advance (deliver v stack) rest := by
  subst htext
  rw [List.cons_append, advance_lexeme _ hblanks hc h, step_value he stack (show Lexeme.scalar v ≠ .closeArray from nofun),
    stepValue, if_pos hwhole]

/-- The pushdown moves over a number. -/
theorem advance_number (he : expect = .value ∨ expect = .valueOrEnd) {blanks text : List Char} {v : Json}
    (hblanks : ∀ d ∈ blanks, isSpace d) {c : Char} {tail : List Char} (htext : text = c :: tail) (hc : isAsciiDigit c ∨ c = '-')
    (hwhole : v.isWhole) (h : number? (text ++ rest) = some (v, rest)) :
    advance (.reading expect stack) (blanks ++ (text ++ rest)) = advance (deliver v stack) rest := by
  have hspace : isSpace c = false := by
    by_contra h
    simp only [isSpace, Bool.not_eq_false, Bool.or_eq_true, decide_eq_true_eq] at h
    rcases h with ((rfl | rfl) | rfl) | rfl <;> exact absurd hc (by decide)
  rw [htext, List.cons_append] at h
  refine advance_scalar he hblanks htext hspace hwhole ?_
  rw [htext, List.cons_append]
  exact lexeme_number hc h

/-- The pushdown moves over a string where a value may stand. -/
theorem advance_text (he : expect = .value ∨ expect = .valueOrEnd) {blanks : List Char} (hblanks : ∀ d ∈ blanks, isSpace d) (s : String) :
    advance (.reading expect stack) (blanks ++ (renderText s ++ rest)) = advance (deliver (.str s) stack) rest :=
  advance_scalar he hblanks rfl (by decide) rfl (lexeme_renderText s rest)

/-- The pushdown moves over the name of a field. -/
theorem advance_key (he : expect = .key ∨ expect = .keyOrEnd) {blanks : List Char} (hblanks : ∀ d ∈ blanks, isSpace d)
    (before : List (String × Json)) (key k : String) :
    advance (.reading expect (.fields before key :: stack)) (blanks ++ (renderText k ++ ':' :: rest)) =
      advance (.reading .value (.fields before k :: stack)) rest := by
  have htext : renderText k ++ ':' :: rest = '"' :: (k.toList.flatMap renderChar ++ ['"'] ++ ':' :: rest) := by simp [renderText]
  have hlexeme := lexeme_renderText k (':' :: rest)
  have hstep : Progress.step (.reading expect (.fields before key :: stack)) (.scalar (.str k)) =
      .reading .colon (.fields before k :: stack) := by
    rcases he with rfl | rfl <;> rfl
  rw [htext] at hlexeme ⊢
  have hcolon : lexeme (':' :: ([] ++ rest)) = (.colon, rest) := rfl
  rw [advance_lexeme _ hblanks (by decide : isSpace '"' = false) hlexeme, hstep]
  exact advance_lexeme _ (fun d (hd : d ∈ []) => absurd hd List.not_mem_nil) (by decide) hcolon

/-- An integer begins with a digit or the sign. -/
theorem head_intDigits (n : Int) : ∃ c tail, intDigits n = c :: tail ∧ (isAsciiDigit c ∨ c = '-') := by
  cases n with
  | ofNat n =>
    obtain ⟨c, tail, hdigits⟩ := List.exists_cons_of_ne_nil (isWhole_natDigits n).nonempty
    exact ⟨c, tail, hdigits, Or.inl ((isWhole_natDigits n).digits c (hdigits ▸ List.mem_cons_self ..))⟩
  | negSucc n => exact ⟨'-', natDigits (n + 1), rfl, Or.inr rfl⟩

/-- The pushdown moves over a number of the format, or the null in its place. -/
theorem advance_float (he : expect = .value ∨ expect = .valueOrEnd) {blanks : List Char} (hblanks : ∀ d ∈ blanks, isSpace d)
    {x : Binary64} (hx : x.Canonical) (hrest : EndsNumber rest) :
    advance (.reading expect stack) (blanks ++ (renderFloat x ++ rest)) = advance (deliver (stored (.float x)) stack) rest := by
  cases x with
  | notANumber => exact advance_scalar he hblanks rfl (by decide) rfl rfl
  | infinite negative => exact advance_scalar he hblanks rfl (by decide) rfl rfl
  | finite negative m q =>
    obtain ⟨cs, n, g, hrender, hspelled, hvalue⟩ := spelled_renderIn numberLayout hx
    obtain ⟨c, tail, hcs, hc⟩ := hspelled.head
    have hread := number?_of_spelled hspelled negative hrest
    rw [hvalue, ← List.append_assoc] at hread
    rw [renderFloat, hrender, stored]
    cases negative with
    | true => exact advance_number he hblanks rfl (Or.inr rfl) rfl hread
    | false => exact advance_number he hblanks (by rw [hcs]; rfl) (Or.inl hc) rfl hread

/-- The pushdown moves over a mark and the blanks before it. -/
theorem advance_mark (p : Progress) {blanks : List Char} (hblanks : ∀ d ∈ blanks, isSpace d) {c : Char} {l : Lexeme}
    (hc : isSpace c = false) (h : lexeme (c :: rest) = (l, rest)) : advance p (blanks ++ c :: rest) = advance (p.step l) rest := by
  have hlexeme : lexeme (c :: ([] ++ rest)) = (l, rest) := h
  exact advance_lexeme p hblanks hc hlexeme

/-- The blank before the value of a field is one. -/
theorem isSpace_blank : ∀ d ∈ [' '], isSpace d := List.forall_mem_singleton.2 (by decide)

-- By recursion over the value. What is open around it stays as it is, and what follows must end a number, since the value may be one.
mutual
/-- The pushdown moves over the writing of a value. -/
theorem advance_render {rest : List Char} {stack : List Frame} {expect : Expect} (v : Json) (hv : v.Proper) (depth : Nat)
    (he : expect = .value ∨ expect = .valueOrEnd) {blanks : List Char} (hblanks : ∀ d ∈ blanks, isSpace d)
    (hrest : EndsNumber rest) :
    advance (.reading expect stack) (blanks ++ (render depth v ++ rest)) = advance (deliver v.stored stack) rest := by
  match v with
  | .null => exact advance_scalar he hblanks rfl (by decide) rfl rfl
  | .bool true => exact advance_scalar he hblanks rfl (by decide) rfl rfl
  | .bool false => exact advance_scalar he hblanks rfl (by decide) rfl rfl
  | .int n =>
    obtain ⟨c, tail, hdigits, hc⟩ := head_intDigits n
    rw [render]
    exact advance_number he hblanks hdigits hc rfl (number?_intDigits n hrest)
  | .float x =>
    rw [render]
    exact advance_float he hblanks hv hrest
  | .str s =>
    rw [render]
    exact advance_text he hblanks s
  | .arr [] =>
    show advance _ (blanks ++ '[' :: ([] ++ ']' :: rest)) = _
    rw [advance_mark _ hblanks (by decide) rfl, step_value he stack (show Lexeme.openArray ≠ .closeArray from nofun),
      advance_mark _ (by simp) (by decide) rfl]
    rfl
  | .arr (v :: vs) =>
    obtain ⟨hv, hvs⟩ := hv
    have htext : render depth (.arr (v :: vs)) ++ rest =
        '[' :: (newLine (depth + 1) ++ (render (depth + 1) v ++ (renderItems (depth + 1) vs ++ (newLine depth ++ ']' :: rest)))) := by
      simp [render]
    -- The first item stands where the array could have ended as well.
    rw [htext, advance_mark _ hblanks (by decide) rfl, step_value he stack (show Lexeme.openArray ≠ .closeArray from nofun), stepValue,
      advance_render v hv (depth + 1) (Or.inr rfl) (fun d hd => isSpace_of_mem_newLine hd) (endsNumber_renderItems _ _ _ _), deliver,
      advance_renderItems vs hvs]
    rfl
  | .obj [] =>
    show advance _ (blanks ++ '{' :: ([] ++ '}' :: rest)) = _
    rw [advance_mark _ hblanks (by decide) rfl, step_value he stack (show Lexeme.openObject ≠ .closeArray from nofun),
      advance_mark _ (by simp) (by decide) rfl]
    rfl
  | .obj ((k, v) :: fs) =>
    obtain ⟨hv, hfs⟩ := hv
    have htext : render depth (.obj ((k, v) :: fs)) ++ rest =
        '{' :: (newLine (depth + 1) ++ (renderText k ++ ':' ::
          ([' '] ++ (render (depth + 1) v ++ (renderFields (depth + 1) fs ++ (newLine depth ++ '}' :: rest)))))) := by
      simp [render]
    rw [htext, advance_mark _ hblanks (by decide) rfl, step_value he stack (show Lexeme.openObject ≠ .closeArray from nofun), stepValue,
      advance_key (Or.inr rfl) (fun d hd => isSpace_of_mem_newLine hd),
      advance_render v hv (depth + 1) (Or.inl rfl) isSpace_blank (endsNumber_renderFields _ _ _ _), deliver,
      advance_renderFields fs hfs]
    rfl
  | .broken => exact hv.elim

/-- The pushdown moves over the items behind the first and the end of an array. -/
theorem advance_renderItems {rest : List Char} {stack : List Frame} (vs : List Json) (hvs : ProperItems vs) (depth d : Nat)
    (before : List Json) :
    advance (.reading .more (.items before :: stack)) (renderItems depth vs ++ (newLine d ++ ']' :: rest)) =
      advance (deliver (.arr (before.reverse ++ storedItems vs)) stack) rest := by
  match vs with
  | [] =>
    rw [renderItems, List.nil_append, advance_mark _ (fun d hd => isSpace_of_mem_newLine hd) (by decide) rfl, storedItems,
      List.append_nil]
    rfl
  | v :: vs =>
    obtain ⟨hv, hvs⟩ := hvs
    have htext : renderItems depth (v :: vs) ++ (newLine d ++ ']' :: rest) =
        [] ++ ',' :: (newLine depth ++ (render depth v ++ (renderItems depth vs ++ (newLine d ++ ']' :: rest)))) := by
      simp [renderItems]
    rw [htext, advance_mark _ (by simp) (by decide) rfl, Progress.step,
      advance_render v hv depth (Or.inl rfl) (fun d hd => isSpace_of_mem_newLine hd) (endsNumber_renderItems _ _ _ _), deliver,
      advance_renderItems vs hvs, storedItems, List.reverse_cons, List.append_assoc, List.singleton_append]

/-- The pushdown moves over the fields behind the first and the end of an object. -/
theorem advance_renderFields {rest : List Char} {stack : List Frame} (fs : List (String × Json)) (hfs : ProperFields fs)
    (depth d : Nat) (before : List (String × Json)) (key : String) :
    advance (.reading .more (.fields before key :: stack)) (renderFields depth fs ++ (newLine d ++ '}' :: rest)) =
      advance (deliver (.obj (before.reverse ++ storedFields fs)) stack) rest := by
  match fs with
  | [] =>
    rw [renderFields, List.nil_append, advance_mark _ (fun d hd => isSpace_of_mem_newLine hd) (by decide) rfl, storedFields,
      List.append_nil]
    rfl
  | (k, v) :: fs =>
    obtain ⟨hv, hfs⟩ := hfs
    have htext : renderFields depth ((k, v) :: fs) ++ (newLine d ++ '}' :: rest) =
        [] ++ ',' :: (newLine depth ++ (renderText k ++ ':' ::
          ([' '] ++ (render depth v ++ (renderFields depth fs ++ (newLine d ++ '}' :: rest)))))) := by
      simp [renderFields]
    rw [htext, advance_mark _ (by simp) (by decide) rfl, Progress.step,
      advance_key (Or.inl rfl) (fun d hd => isSpace_of_mem_newLine hd),
      advance_render v hv depth (Or.inl rfl) isSpace_blank (endsNumber_renderFields _ _ _ _), deliver,
      advance_renderFields fs hfs, storedFields, List.reverse_cons, List.append_assoc, List.singleton_append]
end

/-- A value in writing is read as it was, but for numbers that are not finite, and nothing stands behind it. -/
theorem read_render (v : Json) (hv : v.Proper) : read (v.render 0) = ⟨v.stored, true⟩ := by
  have hmoved : advance (.reading .value []) ([] ++ (v.render 0 ++ [])) = advance (deliver v.stored []) [] :=
    advance_render v hv 0 (Or.inl rfl) (fun d hd => absurd hd List.not_mem_nil) (fun c hc => absurd hc nofun)
  have hend : advance (deliver v.stored []) [] = deliver v.stored [] := by
    rw [advance, lexemes]
    rfl
  rw [List.nil_append, List.append_nil, hend] at hmoved
  show (advance (.reading .value []) (v.render 0)).close = _
  rw [hmoved]
  rfl

end Treebank.Json

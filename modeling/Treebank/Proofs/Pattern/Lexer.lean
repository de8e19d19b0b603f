import Treebank.Pattern.Lexer
import Treebank.Proofs.Except
import Mathlib.Data.List.Basic

/-!
# Words end where they end

What is read at the start of a text does not depend on what follows, as long as no word runs into it: a space or a closing bracket
ends every word. The input is only looked at to tell the place of a fault.
-/

namespace Treebank.Pattern

/-- Text that no word runs into. -/
def Stops (more : List Char) : Prop := ∀ c ∈ more.head?, c = ' ' ∨ c = ']'

/-- A reader of words that does not depend on what follows. -/
def Local {α : Type} (read : Input → List Char → Except CompileError (α × List Char)) : Prop :=
  ∀ {i i' : Input} {cs more rest : List Char} {a : α}, Stops more → read i cs = .ok (a, rest) →
    read i' (cs ++ more) = .ok (a, rest ++ more)

variable {cs more rest : List Char} {i i' : Input} {p : Char → Bool}

theorem stops_nil : Stops [] := by simp [Stops]

theorem stops_space (cs : List Char) : Stops (' ' :: cs) := by simp [Stops]

theorem stops_bracket (cs : List Char) : Stops (']' :: cs) := by simp [Stops]

/-! ## Runs of characters -/

/-- A run does not go on into text that it stops at. -/
theorem takeWhile_append_of_stops (hs : Stops more) (hp : p ' ' = false ∧ p ']' = false) (cs : List Char) :
    (cs ++ more).takeWhile p = cs.takeWhile p := by
  induction cs with
  | nil =>
    cases more with
    | nil => rfl
    | cons c more =>
      have : p c = false := by
        rcases hs c rfl with rfl | rfl
        · exact hp.1
        · exact hp.2
      simp [this]
  | cons c cs ih => simp only [List.cons_append, List.takeWhile_cons, ih]

/-- Behind a run stands what followed it, and then the rest. -/
theorem dropWhile_append_of_stops (hs : Stops more) (hp : p ' ' = false ∧ p ']' = false) (cs : List Char) :
    (cs ++ more).dropWhile p = cs.dropWhile p ++ more := by
  have h := List.takeWhile_append_dropWhile (p := p) (l := cs ++ more)
  rw [takeWhile_append_of_stops hs hp] at h
  have h' := List.takeWhile_append_dropWhile (p := p) (l := cs)
  exact List.append_cancel_left (h.trans (by rw [← List.append_assoc, h']))

/-- A run that ends within a text ends there, whatever follows. -/
theorem takeWhile_append_of_ne_nil (h : cs.dropWhile p ≠ []) (more : List Char) :
    (cs ++ more).takeWhile p = cs.takeWhile p := by
  induction cs with
  | nil => simp at h
  | cons c cs ih =>
    rw [List.dropWhile_cons] at h
    rw [List.cons_append, List.takeWhile_cons, List.takeWhile_cons]
    split
    · rename_i hc
      rw [if_pos hc] at h
      rw [ih h]
    · rfl

/-- Behind a run that ends within a text stands what followed it, and then the rest. -/
theorem dropWhile_append_of_ne_nil (h : cs.dropWhile p ≠ []) (more : List Char) :
    (cs ++ more).dropWhile p = cs.dropWhile p ++ more := by
  rw [List.dropWhile_append, if_neg (by simpa using h)]

/-- Leading blanks end within a text that is not blank. -/
theorem trimStart_append {c : Char} (h : Text.trimStart cs = c :: rest) (more : List Char) :
    Text.trimStart (cs ++ more) = c :: (rest ++ more) := by
  unfold Text.trimStart at h ⊢
  rw [dropWhile_append_of_ne_nil (by rw [h]; exact List.cons_ne_nil _ _), h]
  rfl

theorem local_takeRun (hp : p ' ' = false ∧ p ']' = false) (missing : Fault) : Local fun i => takeRun i p missing := by
  intro i i' cs more rest a hs h
  simp only [takeRun] at h ⊢
  rw [takeWhile_append_of_stops hs hp, dropWhile_append_of_stops hs hp]
  split at h
  · cases h
  · rename_i hne
    rw [if_neg hne]
    cases h
    rfl

/-- A mark that is expected is there, whatever follows. -/
theorem expect_append {mark : Char} (h : expect i mark cs = .ok rest) (more : List Char) :
    expect i' mark (cs ++ more) = .ok (rest ++ more) := by
  unfold expect at h ⊢
  cases ht : Text.trimStart cs with
  | nil =>
    rw [ht] at h
    cases h
  | cons c cs' =>
    rw [ht] at h
    rw [trimStart_append ht]
    simp only at h ⊢
    split at h
    · rename_i hc
      rw [if_pos hc]
      cases h
      rfl
    · cases h

/-- A character that stands by itself before the rest of a source is no backslash, as something follows. -/
theorem ne_backslash_of_regexSource? {c : Char} {found : List Char × List Char} (hself : ∀ d tail, c = '\\' → cs = d :: tail → False)
    (h : regexSource? cs = some found) : c ≠ '\\' := by
  rintro rfl
  cases cs with
  | nil => cases h
  | cons d tail => exact hself d tail rfl rfl

/-- The source of a regular expression is read from what stands before a slash, whatever is behind that; without a slash in it, it is just
what stands there. -/
theorem regexSource?_eq_some {source : List Char} (h : regexSource? cs = some (source, rest)) :
    ∃ raw, cs = raw ++ '/' :: rest ∧ (∀ more, regexSource? (raw ++ '/' :: more) = some (source, more)) ∧
      ('/' ∉ source → raw = source) := by
  induction cs using regexSource?.induct generalizing source with
  | case1 => cases h
  | case2 cs ih =>
    simp only [regexSource?, Option.map_eq_some_iff, Prod.mk.injEq] at h
    obtain ⟨⟨s, r⟩, hr, rfl, rfl⟩ := h
    obtain ⟨raw, rfl, hread, -⟩ := ih hr
    exact ⟨'\\' :: '/' :: raw, rfl, fun more => by simp [regexSource?, hread more], fun hs => absurd (List.mem_cons_self ..) hs⟩
  | case3 c cs hc ih =>
    rw [regexSource?.eq_3 _ _ hc] at h
    simp only [Option.map_eq_some_iff, Prod.mk.injEq] at h
    obtain ⟨⟨s, r⟩, hr, rfl, rfl⟩ := h
    obtain ⟨raw, rfl, hread, hsame⟩ := ih hr
    refine ⟨'\\' :: c :: raw, rfl, fun more => ?_, fun hs => ?_⟩
    · rw [List.cons_append, List.cons_append, regexSource?.eq_3 _ _ hc, hread]
      rfl
    · simp only [List.mem_cons, not_or] at hs
      rw [hsame hs.2.2]
  | case4 cs =>
    simp only [regexSource?, Option.some.injEq, Prod.mk.injEq] at h
    obtain ⟨rfl, rfl⟩ := h
    exact ⟨[], rfl, fun more => by simp [regexSource?], fun _ => rfl⟩
  | case5 c cs h1 h2 h3 ih =>
    rw [regexSource?.eq_5 _ _ h1 h2 h3] at h
    simp only [Option.map_eq_some_iff, Prod.mk.injEq] at h
    obtain ⟨⟨s, r⟩, hr, rfl, rfl⟩ := h
    obtain ⟨raw, rfl, hread, hsame⟩ := ih hr
    have hno := ne_backslash_of_regexSource? h2 hr
    refine ⟨c :: raw, rfl, fun more => ?_, fun hs => ?_⟩
    · rw [List.cons_append, regexSource?.eq_5 _ _ (fun _ hc => absurd hc hno) (fun _ _ hc => absurd hc hno) h3, hread]
      rfl
    · rw [List.mem_cons, not_or] at hs
      rw [hsame hs.2]

/-- A source with a slash in it is read up to that slash, whatever is behind it. -/
theorem regexSource?_of_mem {source : List Char} (h : regexSource? cs = some (source, rest)) (hslash : '/' ∈ source) :
    ∃ before, '/' ∉ before ∧ ∀ more, ∃ after, regexSource? (source ++ more) = some (before, after) := by
  induction cs using regexSource?.induct generalizing source with
  | case1 => cases h
  | case2 cs ih =>
    simp only [regexSource?, Option.map_eq_some_iff, Prod.mk.injEq] at h
    obtain ⟨⟨s, r⟩, -, rfl, rfl⟩ := h
    exact ⟨[], List.not_mem_nil, fun more => ⟨s ++ more, by simp [regexSource?]⟩⟩
  | case3 c cs hc ih =>
    rw [regexSource?.eq_3 _ _ hc] at h
    simp only [Option.map_eq_some_iff, Prod.mk.injEq] at h
    obtain ⟨⟨s, r⟩, hr, rfl, rfl⟩ := h
    have hne : c ≠ '/' := fun e => hc e
    have hs : '/' ∈ s := by simpa [hne.symm] using hslash
    obtain ⟨before, hbefore, hread⟩ := ih hr hs
    refine ⟨'\\' :: c :: before, by simp [hne.symm, hbefore], fun more => ?_⟩
    obtain ⟨after, hafter⟩ := hread more
    exact ⟨after, by rw [List.cons_append, List.cons_append, regexSource?.eq_3 _ _ hc, hafter, Option.map_some]⟩
  | case4 cs =>
    simp only [regexSource?, Option.some.injEq, Prod.mk.injEq] at h
    obtain ⟨rfl, rfl⟩ := h
    exact absurd hslash List.not_mem_nil
  | case5 c cs h1 h2 h3 ih =>
    rw [regexSource?.eq_5 _ _ h1 h2 h3] at h
    simp only [Option.map_eq_some_iff, Prod.mk.injEq] at h
    obtain ⟨⟨s, r⟩, hr, rfl, rfl⟩ := h
    have hno : c ≠ '\\' := ne_backslash_of_regexSource? h2 hr
    have hne : c ≠ '/' := fun e => h3 e
    have hs : '/' ∈ s := by simpa [hne.symm] using hslash
    obtain ⟨before, hbefore, hread⟩ := ih hr hs
    refine ⟨c :: before, by simp [hne.symm, hbefore], fun more => ?_⟩
    obtain ⟨after, hafter⟩ := hread more
    refine ⟨after, ?_⟩
    rw [List.cons_append, regexSource?.eq_5 _ _ (fun _ hc => absurd hc hno) (fun _ _ hc => absurd hc hno) h3, hafter, Option.map_some]

theorem regexSource?_append {source : List Char} (h : regexSource? cs = some (source, rest)) (more : List Char) :
    regexSource? (cs ++ more) = some (source, rest ++ more) := by
  obtain ⟨raw, rfl, hread, -⟩ := regexSource?_eq_some h
  rw [List.append_assoc, List.cons_append]
  exact hread _

/-- A regular expression is read if its source ends, and compiles. -/
theorem takeRegex_eq_ok_iff {slash : List Char} {source : String} {r : Regex} : takeRegex i slash = .ok ((source, r), rest) ↔
    regexSource? (slash.drop 1) = some (source.toList, rest) ∧ Regex.compile source = .ok r := by
  unfold takeRegex
  cases hr : regexSource? (slash.drop 1) with
  | none => simp
  | some found =>
    obtain ⟨read, after⟩ := found
    simp only [Option.some.injEq, Prod.mk.injEq]
    constructor
    · intro h
      cases hc : Regex.compile (String.ofList read) with
      | error e =>
        rw [hc] at h
        cases e <;> cases h
      | ok r' =>
        rw [hc] at h
        cases h
        exact ⟨⟨String.toList_ofList.symm, rfl⟩, hc⟩
    · rintro ⟨⟨rfl, rfl⟩, hc⟩
      rw [String.ofList_toList, hc]

theorem takeRegex_append {slash : List Char} {a : String × Regex} (hslash : slash ≠ [])
    (h : takeRegex i slash = .ok (a, rest)) (more : List Char) : takeRegex i' (slash ++ more) = .ok (a, rest ++ more) := by
  obtain ⟨source, r⟩ := a
  obtain ⟨hread, hcompile⟩ := takeRegex_eq_ok_iff.1 h
  refine takeRegex_eq_ok_iff.2 ⟨?_, hcompile⟩
  rw [List.drop_append_of_le_length (List.length_pos_iff.2 hslash)]
  exact regexSource?_append hread more

/-! ## Descriptions -/

/-- Whether the values of an attribute are well formed does not depend on where they stand. -/
theorem literals_eq_ok {key : String} {start start' : List Char} {raws : List (List Char)} {tests : List Test}
    (h : literals i key start raws = .ok tests) : literals i' key start' raws = .ok tests := by
  induction raws generalizing tests with
  | nil => exact h
  | cons raw raws ih =>
    simp only [literals] at h ⊢
    split at h
    · cases h
    · rename_i hv
      rw [if_neg hv]
      obtain ⟨ts, hts, h⟩ := bind_eq_ok_iff.1 h
      rw [ih hts]
      exact h

theorem isKeyChar_stops : isKeyChar ' ' = false ∧ isKeyChar ']' = false := by decide

theorem isNameChar_stops : isNameChar ' ' = false ∧ isNameChar ']' = false := by decide

theorem isLabelChar_stops : isLabelChar ' ' = false ∧ isLabelChar ']' = false := by decide

theorem isOperatorChar_stops : isOperatorChar ' ' = false ∧ isOperatorChar ']' = false := by decide

theorem isDecimalDigit_stops : Text.isDecimalDigit ' ' = false ∧ Text.isDecimalDigit ']' = false := by decide

/-- How the value of an attribute is read from the text `start`. -/
inductive ReadsValue (i : Input) (key : String) (start : List Char) : List Test → List Char → Prop where
  | regex {source : String} {r : Regex} {rest : List Char} (hslash : start.head? = some '/')
      (h : takeRegex i start = .ok ((source, r), rest)) : ReadsValue i key start [⟨key, .regex source r⟩] rest
  | any (hslash : start.head? ≠ some '/') (h : Text.trim (start.takeWhile isValueChar) = ['_', '_']) :
      ReadsValue i key start [⟨key, .any⟩] (start.dropWhile isValueChar)
  | literal {tests : List Test} (hslash : start.head? ≠ some '/')
      (hany : Text.trim (start.takeWhile isValueChar) ≠ ['_', '_'])
      (h : literals i key start (Text.splitOn '|' (Text.trim (start.takeWhile isValueChar))) = .ok tests) :
      ReadsValue i key start tests (start.dropWhile isValueChar)

/-- An attribute is read as its name and, behind a colon, its value. -/
theorem takeAttribute_eq_ok_iff {key : String} {tests : List Test} :
    takeAttribute i cs = .ok ((key, tests), rest) ↔ ∃ after start, takeRun i isKeyChar .attributeMissing cs = .ok (key, after) ∧
      expect i ':' after = .ok start ∧ ReadsValue i key (Text.trimStart start) tests rest := by
  simp only [takeAttribute, bind_eq_ok_iff]
  constructor
  · rintro ⟨⟨key', after⟩, hrun, start, hexpect, h⟩
    simp only at h
    split at h
    · rename_i hslash
      obtain ⟨⟨⟨source, r⟩, rest'⟩, hr, h⟩ := bind_eq_ok_iff.1 h
      cases h
      exact ⟨after, start, hrun, hexpect, .regex hslash hr⟩
    rename_i hslash
    split at h
    · rename_i hany
      cases h
      exact ⟨after, start, hrun, hexpect, .any hslash hany⟩
    · rename_i hany
      obtain ⟨tests', hl, h⟩ := bind_eq_ok_iff.1 h
      cases h
      exact ⟨after, start, hrun, hexpect, .literal hslash hany hl⟩
  · rintro ⟨after, start, hrun, hexpect, h⟩
    refine ⟨_, hrun, _, hexpect, ?_⟩
    simp only
    cases h with
    | regex hslash hr =>
      rw [if_pos hslash]
      exact bind_eq_ok_iff.2 ⟨_, hr, rfl⟩
    | any hslash hany =>
      rw [if_neg hslash, if_pos hany]
      rfl
    | literal hslash hany hl =>
      rw [if_neg hslash, if_neg hany]
      exact bind_eq_ok_iff.2 ⟨_, hl, rfl⟩

/-- A value with something behind it. -/
theorem readsValue_append {key : String} {start : List Char} {tests : List Test} (h : ReadsValue i key start tests rest)
    (hrest : rest ≠ []) (more : List Char) : ReadsValue i' key (start ++ more) tests (rest ++ more) := by
  have hhead : start ≠ [] → (start ++ more).head? = start.head? := List.head?_append_of_ne_nil start
  have hne : start.dropWhile isValueChar ≠ [] → start ≠ [] := by
    rintro hend rfl
    exact hend rfl
  cases h with
  | regex hslash hr =>
    have hstart : start ≠ [] := by
      rintro rfl
      cases hslash
    exact .regex ((hhead hstart).trans hslash) (takeRegex_append hstart hr more)
  | any hslash hany =>
    rw [← dropWhile_append_of_ne_nil hrest]
    refine .any ?_ ?_
    · rwa [hhead (hne hrest)]
    · rwa [takeWhile_append_of_ne_nil hrest]
  | literal hslash hany hl =>
    rw [← dropWhile_append_of_ne_nil hrest]
    refine .literal ?_ ?_ ?_
    · rwa [hhead (hne hrest)]
    · rwa [takeWhile_append_of_ne_nil hrest]
    · rw [takeWhile_append_of_ne_nil hrest]
      exact literals_eq_ok hl

/-- An attribute with something behind it. -/
theorem takeAttribute_append {a : String × List Test} (hs : Stops more) (h : takeAttribute i cs = .ok (a, rest))
    (hrest : rest ≠ []) : takeAttribute i' (cs ++ more) = .ok (a, rest ++ more) := by
  obtain ⟨key, tests⟩ := a
  obtain ⟨after, start, hrun, hexpect, hvalue⟩ := takeAttribute_eq_ok_iff.1 h
  refine takeAttribute_eq_ok_iff.2 ⟨_, _, local_takeRun isKeyChar_stops _ hs hrun, expect_append hexpect more, ?_⟩
  cases ht : Text.trimStart start with
  | nil =>
    -- Without a value there is nothing behind it.
    rw [ht] at hvalue
    cases hvalue with
    | regex hslash hr => cases hslash
    | any hslash hany => exact absurd rfl hrest
    | literal hslash hany hl => exact absurd rfl hrest
  | cons c value =>
    rw [trimStart_append ht]
    rw [ht] at hvalue
    exact readsValue_append hvalue hrest more

/-- An entry of a description with something behind it. -/
theorem takeEntry_append {d d' : Description} (hs : Stops more) (h : takeEntry i d cs = .ok (d', rest)) (hrest : rest ≠ []) :
    takeEntry i' d (cs ++ more) = .ok (d', rest ++ more) := by
  cases cs with
  | nil => cases h
  | cons c cs =>
    by_cases hc : c = '$'
    · subst hc
      cases h
      rfl
    · have hno : ∀ after, c :: cs = '$' :: after → False := fun after e => hc (List.cons.inj e).1
      have hno' : ∀ after, c :: (cs ++ more) = '$' :: after → False := fun after e => hc (List.cons.inj e).1
      rw [List.cons_append, takeEntry.eq_2 _ _ _ hno']
      rw [takeEntry.eq_2 _ _ _ hno] at h
      obtain ⟨⟨⟨key, tests⟩, rest'⟩, ha, h⟩ := bind_eq_ok_iff.1 h
      cases h
      exact bind_eq_ok_iff.2 ⟨_, takeAttribute_append hs ha hrest, rfl⟩

/-- An entry behind blanks, with something behind it that is not blank. -/
theorem takeEntry_trimStart_append {d d' : Description} (hs : Stops more) (h : takeEntry i d (Text.trimStart cs) = .ok (d', rest))
    {c : Char} {after : List Char} (hrest : Text.trimStart rest = c :: after) :
    takeEntry i' d (Text.trimStart (cs ++ more)) = .ok (d', rest ++ more) := by
  have hne : rest ≠ [] := by
    rintro rfl
    cases hrest
  cases ht : Text.trimStart cs with
  | nil =>
    rw [ht] at h
    cases h
  | cons b cs' =>
    rw [ht] at h
    rw [trimStart_append ht, ← List.cons_append]
    exact takeEntry_append hs h hne

/-- The entries of a description end with its brace. -/
theorem takeEntries_append {d d' : Description} (hs : Stops more) (h : takeEntries i d cs = .ok (d', rest)) :
    takeEntries i' d (cs ++ more) = .ok (d', rest ++ more) := by
  induction d, cs using takeEntries.induct i with
  | case1 d cs e he =>
    rw [takeEntries, he] at h
    cases h
  | case2 d cs d₁ after he rest' ht =>
    rw [takeEntries, he] at h
    rw [takeEntries, takeEntry_trimStart_append hs he ht]
    simp only [ht, trimStart_append ht] at h ⊢
    cases h
    rfl
  | case3 d cs d₁ after he rest' ht hlt ih =>
    rw [takeEntries, he] at h
    rw [takeEntries, takeEntry_trimStart_append hs he ht]
    simp only [ht, if_pos hlt] at h
    simp only [trimStart_append ht]
    rw [if_pos (by simpa using hlt)]
    exact ih h
  | case4 d cs d₁ after he rest' ht hlt =>
    rw [takeEntries, he] at h
    simp only [ht, if_neg hlt] at h
    cases h
  | case5 d cs d₁ after he h1 h2 =>
    rw [takeEntries, he] at h
    simp only at h
    cases h

theorem local_takeBraces (negated : Bool) : Local fun i => takeBraces i negated := by
  intro i i' cs more rest d hs h
  simp only [takeBraces] at h ⊢
  split at h
  · rename_i inner
    simp only [List.cons_append]
    cases ht : Text.trimStart inner with
    | nil =>
      rw [ht] at h
      have hnil : takeEntry i { negated := negated } [] = .error (i.fault [] .attributeMissing) := rfl
      change takeEntries i { negated := negated } [] = _ at h
      rw [takeEntries, show Text.trimStart [] = [] from rfl, hnil] at h
      cases h
    | cons c text =>
      rw [ht] at h
      rw [trimStart_append ht]
      by_cases hc : c = '\x7d'
      · subst hc
        cases h
        rfl
      · split at h
        · rename_i e
          exact absurd (List.cons.inj e).1 hc
        · split
          · rename_i e
            exact absurd (List.cons.inj e).1 hc
          · exact takeEntries_append hs h
  · cases h

theorem local_takeDescription : Local takeDescription := by
  intro i i' cs more rest d hs h
  unfold takeDescription at h ⊢
  cases ht : Text.trimStart cs with
  | nil =>
    rw [ht] at h
    cases h
  | cons c text =>
    rw [ht] at h
    rw [trimStart_append ht]
    by_cases hc : c = '!'
    · subst hc
      simp only at h ⊢
      cases hb : Text.trimStart text with
      | nil =>
        rw [hb] at h
        cases h
      | cons b inner =>
        rw [hb] at h
        rw [trimStart_append hb]
        exact local_takeBraces true hs h
    · split at h
      · rename_i e
        exact absurd (List.cons.inj e).1 hc
      · split
        · rename_i e
          exact absurd (List.cons.inj e).1 hc
        · exact local_takeBraces false hs h

/-- Text that stops words does not begin with an equals sign. -/
theorem Stops.head_ne (hs : Stops more) (after : List Char) : more ≠ '=' :: after := by
  rintro rfl
  rcases hs '=' rfl with h | h <;> cases h

/-- What does not begin with an equals sign does not come to begin with one. -/
theorem append_ne_equals (hs : Stops more) (h : ∀ after, cs = '=' :: after → False) (after : List Char) :
    cs ++ more = '=' :: after → False := by
  intro e
  cases cs with
  | nil => exact hs.head_ne _ e
  | cons c cs =>
    rw [List.cons_append, List.cons.injEq] at e
    exact h cs (by rw [e.1])

theorem local_takeName (missing : Fault) : Local fun i => takeName i missing := by
  intro i i' cs more rest name hs h
  simp only at h ⊢
  cases cs with
  | nil =>
    cases h
    exact takeName.eq_3 _ _ _ (fun after e => hs.head_ne _ e) (fun after e => hs.head_ne _ e)
  | cons c cs =>
    by_cases hc : c = '='
    · subst hc
      by_cases he : ∃ after, cs = '=' :: after
      · obtain ⟨after, rfl⟩ := he
        cases h
        rfl
      · have hno : ∀ after, cs = '=' :: after → False := fun after e => he ⟨after, e⟩
        rw [takeName.eq_2 _ _ _ hno] at h
        obtain ⟨⟨run, rest'⟩, hr, h⟩ := bind_eq_ok_iff.1 h
        cases h
        rw [List.cons_append, takeName.eq_2 _ _ _ (append_ne_equals hs hno)]
        exact bind_eq_ok_iff.2 ⟨_, local_takeRun isNameChar_stops missing hs hr, rfl⟩
    · have hno : ∀ {tail : List Char} after, c :: tail = '=' :: after → False := fun after e => hc (List.cons.inj e).1
      rw [takeName.eq_3 _ _ _ (fun after e => hno _ e) (fun after e => hno _ e)] at h
      rw [List.cons_append, takeName.eq_3 _ _ _ (fun after e => hno _ e) (fun after e => hno _ e)]
      cases h
      rfl

/-! ## Operators -/

/-- The bounds on the length of a path. -/
theorem takeDepth_append (hs : Stops more) (cs : List Char) :
    takeDepth (cs ++ more) = ((takeDepth cs).1, (takeDepth cs).2 ++ more) := by
  simp only [takeDepth]
  rw [takeWhile_append_of_stops hs isDecimalDigit_stops, dropWhile_append_of_stops hs isDecimalDigit_stops]
  split
  · rfl
  · cases hd : cs.dropWhile Text.isDecimalDigit with
    | nil =>
      cases more with
      | nil => rfl
      | cons c more => rcases hs c rfl with rfl | rfl <;> rfl
    | cons c after =>
      by_cases hc : c = ','
      · subst hc
        simp only [List.cons_append]
        rw [takeWhile_append_of_stops hs isDecimalDigit_stops, dropWhile_append_of_stops hs isDecimalDigit_stops]
        split <;> rfl
      · simp [hc]

/-- The sign of an operator. -/
theorem operatorSign_append (hs : Stops more) (cs : List Char) : operatorSign (cs ++ more) = operatorSign cs := by
  by_cases he : ∃ after, cs = '=' :: '=' :: after
  · obtain ⟨after, rfl⟩ := he
    rfl
  · have hno : ∀ after, cs = '=' :: '=' :: after → False := fun after e => he ⟨after, e⟩
    have hno' : ∀ after, cs ++ more = '=' :: '=' :: after → False := by
      intro after e
      cases cs with
      | nil => exact hs.head_ne _ e
      | cons c cs =>
        obtain ⟨rfl, e'⟩ := List.cons.inj e
        exact append_ne_equals hs (fun after (h : cs = '=' :: after) => hno after (by rw [h])) after e'
    rw [operatorSign.eq_2 _ hno, operatorSign.eq_2 _ hno', takeWhile_append_of_stops hs isOperatorChar_stops]

/-- The sign of an operator stands at the start of the text. -/
theorem length_operatorSign_le (cs : List Char) : (operatorSign cs).length ≤ cs.length := by
  unfold operatorSign
  split
  · simp
  · exact (List.takeWhile_sublist _).length_le

/-- The subtypes of a label. -/
theorem labelTail_append (hs : Stops more) (cs : List Char) :
    labelTail (cs ++ more) = ((labelTail cs).1, (labelTail cs).2 ++ more) := by
  induction cs using labelTail.induct with
  | case1 rest part hpart =>
    have hpart : (rest.takeWhile isLabelChar).isEmpty = true := hpart
    rw [List.cons_append, labelTail, labelTail, takeWhile_append_of_stops hs isLabelChar_stops, if_pos hpart, if_pos hpart]
    rfl
  | case2 rest part hpart tail after ht ih =>
    have hpart : ¬ (rest.takeWhile isLabelChar).isEmpty = true := hpart
    rw [List.cons_append, labelTail, labelTail, takeWhile_append_of_stops hs isLabelChar_stops, if_neg hpart, if_neg hpart,
      dropWhile_append_of_stops hs isLabelChar_stops, ih, ht]
  | case3 cs hno =>
    have hno' : ∀ after, cs ++ more = ':' :: after → False := by
      intro after e
      cases cs with
      | nil => rcases hs ':' (by rw [List.nil_append] at e; rw [e]; rfl) with h | h <;> cases h
      | cons c cs =>
        rw [List.cons_append, List.cons.injEq] at e
        exact hno cs (by rw [e.1])
    rw [labelTail.eq_2 _ hno, labelTail.eq_2 _ hno']

theorem local_takeLabel : Local takeLabel := by
  intro i i' cs more rest l hs h
  cases cs with
  | nil =>
    cases h
    cases more with
    | nil => rfl
    | cons c more => rcases hs c rfl with rfl | rfl <;> rfl
  | cons c cs =>
    rw [List.cons_append]
    by_cases hslash : c = '/'
    · subst hslash
      obtain ⟨⟨⟨source, r⟩, rest'⟩, hr, h⟩ := bind_eq_ok_iff.1 h
      cases h
      exact bind_eq_ok_iff.2 ⟨_, takeRegex_append (List.cons_ne_nil _ cs) hr more, rfl⟩
    · by_cases hany : c = '%'
      · subst hany
        cases h
        rfl
      · rw [takeLabel.eq_3 _ _ _ hslash hany] at h ⊢
        split at h
        · rename_i hl
          rw [if_pos hl]
          have hrun := takeWhile_append_of_stops hs isLabelChar_stops (c :: cs)
          have hafter := dropWhile_append_of_stops hs isLabelChar_stops (c :: cs)
          rw [List.cons_append] at hrun hafter
          rw [hrun, hafter, labelTail_append hs]
          cases h
          rfl
        · rename_i hl
          rw [if_neg hl]
          cases h
          rfl

/-- The sign of a kind is its own. -/
theorem ofSign?_eq_some_iff {sign : String} {kind : Kind} : Kind.ofSign? sign = some kind ↔ kind.sign = sign := by
  constructor
  · intro h
    have hfound : (kind.sign == sign) = true := List.find?_some (p := fun kind : Kind => kind.sign == sign) h
    exact eq_of_beq hfound
  · rintro rfl
    cases kind <;> rfl

/-- An operator is read as its bounds, its sign, its label and the name of its edge. -/
theorem takeOperator_eq_ok_iff {o : Operator} : takeOperator i cs = .ok (o, rest) ↔ ∃ depth text rest₁,
    takeDepth cs = (depth, text) ∧ operatorSign text = o.kind.sign.toList ∧
      (depth.isSome = true → o.kind.isTransitive = true ∧ depthFits o.minDepth o.maxDepth = true) ∧
        depth.getD (0, 0) = (o.minDepth, o.maxDepth) ∧
          takeLabel i (text.drop o.kind.sign.toList.length) = .ok (o.label, rest₁) ∧
            takeName i .edgeNameMissing rest₁ = .ok (o.edgeName, rest) ∧
              (o.kind.followsEdges = false → o.label = .any ∧ o.edgeName = none) := by
  obtain ⟨⟨depth, text⟩, hd⟩ : ∃ p, takeDepth cs = p := ⟨_, rfl⟩
  simp only [takeOperator, hd]
  constructor
  · intro h
    split at h
    · cases h
    split at h
    · cases h
    rename_i kind hkind
    have hsign := ofSign?_eq_some_iff.1 hkind
    split at h
    · cases h
    rename_i hrefused
    split at h
    · cases h
    rename_i hfits
    obtain ⟨⟨label, rest₁⟩, hlabel, h⟩ := bind_eq_ok_iff.1 h
    obtain ⟨⟨name, rest₂⟩, hname, h⟩ := bind_eq_ok_iff.1 h
    simp only at h
    split at h
    · cases h
    rename_i hfollows
    cases h
    have htext : kind.sign.toList = operatorSign text := by rw [hsign, String.toList_ofList]
    refine ⟨depth, text, rest₁, rfl, htext.symm, fun hsome => ?_, rfl, by rwa [htext], hname, fun hno => ?_⟩
    · simpa [hsome] using And.intro hrefused hfits
    · simpa [hno] using hfollows
  · rintro ⟨depth', text', rest₁, e, hsign, hdepth, hbounds, hlabel, hname, hfollows⟩
    cases e
    obtain ⟨kind, label, low, high, edgeName⟩ := o
    have hsome : kind.sign.toList.isEmpty = false := by cases kind <;> rfl
    have hkind : Kind.ofSign? (String.ofList kind.sign.toList) = some kind := by
      rw [String.ofList_toList]
      exact ofSign?_eq_some_iff.2 rfl
    have hrefused : (depth.isSome && !kind.isTransitive) = false := by
      cases hsome : depth.isSome with
      | false => rfl
      | true => simp [(hdepth hsome).1]
    have hfits : (depth.isSome && !depthFits (depth.getD (0, 0)).1 (depth.getD (0, 0)).2) = false := by
      cases hsome : depth.isSome with
      | false => rfl
      | true => simp [hbounds, (hdepth hsome).2]
    have hlabelled : (!kind.followsEdges && (label != .any || edgeName.isSome)) = false := by
      cases hedges : kind.followsEdges with
      | true => rfl
      | false =>
        obtain ⟨hany, hnone⟩ := hfollows hedges
        simp only at hany hnone
        simp [hany, hnone]
    rw [hsign, if_neg (by simp [hsome])]
    simp only [hkind, hrefused, hfits, Bool.false_eq_true, if_false]
    refine bind_eq_ok_iff.2 ⟨_, hlabel, bind_eq_ok_iff.2 ⟨_, hname, ?_⟩⟩
    simp only [hlabelled, hbounds, Bool.false_eq_true, if_false]
    rfl

theorem local_takeOperator : Local takeOperator := by
  intro i i' cs more rest o hs h
  obtain ⟨depth, text, rest₁, hd, hsign, hdepth, hbounds, hlabel, hname, hfollows⟩ := takeOperator_eq_ok_iff.1 h
  refine takeOperator_eq_ok_iff.2
    ⟨depth, text ++ more, rest₁ ++ more, ?_, ?_, hdepth, hbounds, ?_, local_takeName _ hs hname, hfollows⟩
  · rw [takeDepth_append hs, hd]
  · rw [operatorSign_append hs, hsign]
  · rw [List.drop_append_of_le_length (hsign ▸ length_operatorSign_le text)]
    exact local_takeLabel hs hlabel

end Treebank.Pattern

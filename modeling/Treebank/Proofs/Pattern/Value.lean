import Treebank.Proofs.Pattern.Step
import Treebank.Proofs.Text.Digit
import Treebank.Proofs.Text.Pieces
import Mathlib.Data.List.TakeWhile

/-!
# Values in writing

What is required of the value of an attribute is read again from its own text, at the end of an entry, if it says what it is: a literal
does not look like something else, and a regular expression holds no slash.
-/

namespace Treebank.Pattern

variable {i i' : Input} {cs rest word more : List Char} {p : Char → Bool}

/-! ## Runs of characters -/

/-- A run goes to the first character that is not in it. -/
theorem run_append {word : List Char} (hword : ∀ c ∈ word, p c = true) (more : List Char) (hmore : ∀ c ∈ more.head?, p c = false) :
    (word ++ more).takeWhile p = word ∧ (word ++ more).dropWhile p = more := by
  rw [List.takeWhile_append_of_pos hword, List.dropWhile_append_of_pos hword]
  cases more with
  | nil => simp
  | cons c more => simp [hmore c rfl]

/-- A run is read again. -/
theorem takeRun_append {missing : Fault} (hne : word ≠ []) (hword : ∀ c ∈ word, p c = true)
    (hmore : ∀ c ∈ more.head?, p c = false) : takeRun i p missing (word ++ more) = .ok (String.ofList word, more) := by
  obtain ⟨htake, hdrop⟩ := run_append hword more hmore
  rw [takeRun, htake, hdrop, if_neg (by simpa using hne)]

/-- A run is not empty, and holds its characters alone. -/
theorem of_takeRun {missing : Fault} {name : String} (h : takeRun i p missing cs = .ok (name, rest)) :
    name.toList ≠ [] ∧ ∀ c ∈ name.toList, p c = true := by
  unfold takeRun at h
  split at h
  · cases h
  · rename_i hne
    cases h
    rw [String.toList_ofList]
    exact ⟨by simpa using hne, fun c hc => List.mem_takeWhile_imp hc⟩

/-- The characters of attribute names are no blanks. -/
theorem isBlank_of_isKeyChar {c : Char} (h : isKeyChar c = true) : Text.isBlank c = false := by
  have hrange : 45 ≤ c.toNat ∧ c.toNat ≤ 122 := by
    simp only [isKeyChar, isNameChar, isLetter, Text.isAsciiDigit, Bool.or_eq_true, Bool.and_eq_true, decide_eq_true_eq,
      Char.le_def, UInt32.le_iff_toNat_le] at h
    rcases h with ((((⟨hle, hge⟩ | ⟨hle, hge⟩) | ⟨hle, hge⟩) | rfl) | rfl) | rfl
    · exact ⟨Nat.le_trans (by decide) hle, Nat.le_trans hge (by decide)⟩
    · exact ⟨Nat.le_trans (by decide) hle, Nat.le_trans hge (by decide)⟩
    · exact ⟨Nat.le_trans (by decide) hle, Nat.le_trans hge (by decide)⟩
    · decide
    · decide
    · decide
  obtain ⟨hle, hge⟩ := hrange
  unfold Text.isBlank
  generalize c.toNat = n at hle hge
  interval_cases n <;> decide

/-! ## Regular expressions -/

/-- A regular expression without a slash is read again. -/
theorem takeRegex_source {slash : List Char} {source : String} {r : Regex} (h : takeRegex i slash = .ok ((source, r), rest))
    (hs : '/' ∉ source.toList) (more : List Char) :
    takeRegex i' ('/' :: (source.toList ++ '/' :: more)) = .ok ((source, r), more) := by
  obtain ⟨hread, hcompile⟩ := takeRegex_eq_ok_iff.1 h
  obtain ⟨raw, -, hread, hsame⟩ := regexSource?_eq_some hread
  rw [hsame hs] at hread
  exact takeRegex_eq_ok_iff.2 ⟨hread more, hcompile⟩

/-! ## Restrictions -/

/-- Whether the value of an attribute says in writing what it is: a literal does not begin with a slash, which opens a regular
expression, and is not the sign for any value; a regular expression holds no slash, which would end it. -/
def Value.legible : Value → Bool
  | .literal text => text.toList.head? != some '/' && text != "__"
  | .regex source _ => !source.toList.contains '/'
  | .any => true

/-- A restriction that is read again from its text, at the end of an entry. -/
def Test.ReadsBack (t : Test) : Prop :=
  ∀ {i : Input} {c : Char} {more : List Char}, isValueChar c = false →
    takeAttribute i (t.text.toList ++ c :: more) = .ok ((t.key, [t]), c :: more)

/-- The literal values of an attribute are what stands between the bars, without blanks around it. -/
theorem of_literals {key : String} {start : List Char} {raws : List (List Char)} {tests : List Test}
    (h : literals i key start raws = .ok tests) :
    tests.length = raws.length ∧
      ∀ t ∈ tests, ∃ raw ∈ raws, Text.trim raw ≠ [] ∧ t = ⟨key, .literal (String.ofList (Text.trim raw))⟩ := by
  induction raws generalizing tests with
  | nil =>
    cases h
    simp
  | cons raw raws ih =>
    unfold literals at h
    simp only at h
    split at h
    · cases h
    rename_i hv
    obtain ⟨ts, hts, h⟩ := bind_eq_ok_iff.1 h
    cases h
    obtain ⟨hlength, hall⟩ := ih hts
    refine ⟨by simp [hlength], fun t ht => ?_⟩
    rcases List.mem_cons.1 ht with rfl | ht
    · exact ⟨raw, List.mem_cons_self .., by simpa using hv, rfl⟩
    · obtain ⟨raw', hraw, htext⟩ := hall t ht
      exact ⟨raw', List.mem_cons_of_mem _ hraw, htext⟩

/-- A value in writing. -/
def Value.text : Value → List Char
  | .any => ['_', '_']
  | .regex source _ => '/' :: (source.toList ++ ['/'])
  | .literal text => text.toList

theorem Test.toList_text (t : Test) : t.text.toList = t.key.toList ++ ':' :: t.value.text := by
  unfold Test.text Value.text
  cases t.value <;> simp

/-- A value that stands at the end of an entry is read again if it says what it is. -/
theorem ReadsValue.again {key : String} {start : List Char} {tests : List Test} (h : ReadsValue i key start tests rest) {t : Test}
    (ht : t ∈ tests) :
    t.key = key ∧ (∃ c value, t.value.text = c :: value ∧ Text.isBlank c = false) ∧
      (t.value.legible = true → ∀ {i' : Input} {c : Char} {more : List Char}, isValueChar c = false →
        ReadsValue i' key (t.value.text ++ c :: more) [t] (c :: more)) := by
  cases h with
  | regex hslash hr =>
    rw [List.mem_singleton.1 ht]
    refine ⟨rfl, ⟨'/', _, rfl, by decide⟩, fun hl i' c more hc => .regex rfl ?_⟩
    rename_i source r
    have hs : '/' ∉ source.toList := by simpa [Value.legible] using hl
    simpa [Value.text] using takeRegex_source hr hs (c :: more)
  | any hslash hany =>
    rw [List.mem_singleton.1 ht]
    refine ⟨rfl, ⟨'_', _, rfl, by decide⟩, fun hl i' c more hc => ?_⟩
    have hmarks : ∀ b ∈ ['_', '_'], isValueChar b = true := List.all_eq_true.1 (by decide)
    obtain ⟨htake, hdrop⟩ := run_append hmarks (c :: more) (by simpa using hc)
    have hread : ReadsValue i' key (['_', '_'] ++ c :: more) [⟨key, .any⟩] ((['_', '_'] ++ c :: more).dropWhile isValueChar) :=
      .any (by simp) (by rw [htake]; decide)
    rwa [hdrop] at hread
  | literal hslash hany hl =>
    obtain ⟨raw, hraw, hne, rfl⟩ := (of_literals hl).2 t ht
    obtain ⟨hbar, hsub⟩ := Text.of_mem_splitOn hraw
    have hin : ∀ c ∈ Text.trim raw, isValueChar c = true := fun c hc =>
      List.mem_takeWhile_imp (Text.trim_subset _ (hsub (Text.trim_subset raw hc)))
    obtain ⟨b, value, hvalue⟩ := List.exists_cons_of_ne_nil hne
    have hblank : Text.isBlank b = false := by
      have hstart := Text.trimStart_trim raw
      rw [hvalue] at hstart
      simpa using List.dropWhile_eq_self_iff.1 hstart (Nat.zero_lt_succ _)
    refine ⟨rfl, ⟨b, value, by rw [Value.text, String.toList_ofList, hvalue], hblank⟩, fun hl i' c more hc => ?_⟩
    simp only [Value.legible, String.toList_ofList, Bool.and_eq_true, bne_iff_ne] at hl
    obtain ⟨htake, hdrop⟩ := run_append hin (c :: more) (by simpa using hc)
    rw [Value.text, String.toList_ofList]
    -- Alone, the value has no bar, no mark that ends it, and no blanks around it.
    have hread : ReadsValue i' key (Text.trim raw ++ c :: more) [⟨key, .literal (String.ofList (Text.trim raw))⟩]
        ((Text.trim raw ++ c :: more).dropWhile isValueChar) := by
      refine .literal ?_ ?_ ?_
      · rw [hvalue, List.cons_append, List.head?_cons]
        simpa [hvalue] using hl.1
      · rw [htake, Text.trim_trim]
        exact fun h => hl.2 (by rw [h])
      · rw [htake, Text.trim_trim, Text.splitOn_of_notMem fun h => hbar (Text.trim_subset raw h)]
        simp only [literals, Text.trim_trim]
        rw [if_neg (by simpa using hne)]
        rfl
    rwa [hdrop] at hread

/-- A restriction as reading makes it. -/
def Test.IsRead (t : Test) : Prop := ∃ i cs key tests rest, takeAttribute i cs = .ok ((key, tests), rest) ∧ t ∈ tests

/-- A restriction that is read again is read. -/
theorem Test.ReadsBack.isRead {t : Test} (h : t.ReadsBack) : t.IsRead :=
  ⟨Input.of "", _, t.key, [t], [';'], h (by decide), List.mem_singleton_self t⟩

/-- A restriction that was read begins with the name of its attribute. -/
theorem Test.IsRead.head {t : Test} (ht : t.IsRead) : ∃ c text, t.text.toList = c :: text ∧ isKeyChar c = true := by
  obtain ⟨i, cs, key, tests, rest, hread, ht⟩ := ht
  obtain ⟨after, start, hrun, -, hvalue⟩ := takeAttribute_eq_ok_iff.1 hread
  obtain ⟨hne, hkey⟩ := of_takeRun hrun
  obtain ⟨rfl, -⟩ := hvalue.again ht
  obtain ⟨c, name, hcons⟩ := List.exists_cons_of_ne_nil hne
  refine ⟨c, name ++ ':' :: t.value.text, ?_, hkey c (hcons ▸ List.mem_cons_self ..)⟩
  rw [Test.toList_text, hcons, List.cons_append]

/-- The text of a restriction is read as the name of its attribute and, behind a colon, what its value is read as. -/
theorem Test.IsRead.takeAttribute_iff {t : Test} (ht : t.IsRead) {key : String} {tests : List Test} :
    takeAttribute i (t.text.toList ++ more) = .ok ((key, tests), rest) ↔
      t.key = key ∧ ReadsValue i key (t.value.text ++ more) tests rest := by
  obtain ⟨i₀, cs, key₀, tests₀, rest₀, hread, ht⟩ := ht
  obtain ⟨after, start, hrun, -, hvalue⟩ := takeAttribute_eq_ok_iff.1 hread
  obtain ⟨hne, hkey⟩ := of_takeRun hrun
  obtain ⟨rfl, ⟨b, value, htext, hb⟩, -⟩ := hvalue.again ht
  have hname : takeRun i isKeyChar .attributeMissing (t.key.toList ++ ':' :: (t.value.text ++ more)) =
      .ok (t.key, ':' :: (t.value.text ++ more)) := by
    rw [takeRun_append hne hkey (by rintro _ ⟨⟩; decide), String.ofList_toList]
  have hcolon : expect i ':' (':' :: (t.value.text ++ more)) = .ok (t.value.text ++ more) := rfl
  have hstart : Text.trimStart (t.value.text ++ more) = t.value.text ++ more := by
    rw [htext]
    exact List.dropWhile_cons_of_neg (by simp [hb])
  rw [Test.toList_text, List.append_assoc, List.cons_append, takeAttribute_eq_ok_iff, hname]
  constructor
  · rintro ⟨after, start, ⟨⟩, hexpect, hvalue⟩
    rw [hcolon] at hexpect
    cases hexpect
    exact ⟨rfl, hstart ▸ hvalue⟩
  · rintro ⟨rfl, hvalue⟩
    exact ⟨_, _, rfl, hcolon, hstart.symm ▸ hvalue⟩

/-- A restriction that was read is read again if its value says what it is. -/
theorem Test.IsRead.readsBack {t : Test} (ht : t.IsRead) (hl : t.value.legible = true) : t.ReadsBack := by
  intro i' c more hc
  obtain ⟨i, cs, key, tests, rest, hread, hmem⟩ := id ht
  obtain ⟨after, start, -, -, hvalue⟩ := takeAttribute_eq_ok_iff.1 hread
  obtain ⟨rfl, -, hagain⟩ := hvalue.again hmem
  exact ht.takeAttribute_iff.2 ⟨rfl, hagain hl hc⟩

/-- Restrictions that were read are of the attribute that was read, and are read again if their values say what they are. -/
theorem readsBack_of_takeAttribute {key : String} {tests : List Test} (h : takeAttribute i cs = .ok ((key, tests), rest)) {t : Test}
    (ht : t ∈ tests) : t.key = key ∧ (t.value.legible = true → t.ReadsBack) := by
  obtain ⟨after, start, -, -, hvalue⟩ := takeAttribute_eq_ok_iff.1 h
  exact ⟨(hvalue.again ht).1, Test.IsRead.readsBack ⟨i, cs, key, tests, rest, h, ht⟩⟩

end Treebank.Pattern

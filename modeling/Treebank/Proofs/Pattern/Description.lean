import Treebank.Proofs.Pattern.Value

/-!
# Descriptions in writing

A description that was read is put together group by group, and is read again from its own text if all its values say what they are;
so is the place that it describes.
-/

namespace Treebank.Pattern

variable {i i' : Input} {cs rest more : List Char}

/-! ## Groups of restrictions -/

/-- A description as reading puts it together: one group for each attribute, with restrictions of that attribute, which are read again
if their values say what they are. -/
structure Description.Grouped (d : Description) : Prop where
  nodup : (Pairs.keys d.groups).Nodup
  nonempty : ∀ g ∈ d.groups, g.2 ≠ []
  tests : ∀ g ∈ d.groups, ∀ t ∈ g.2, t.key = g.1 ∧ (t.value.legible = true → t.ReadsBack)

variable {d d' : Description}

theorem grouped_of_groups_eq_nil (h : d.groups = []) : d.Grouped := by
  refine ⟨?_, ?_, ?_⟩
  · rw [h]
    exact List.nodup_nil
  · simp [h]
  · simp [h]

/-- What stands in the groups after an attribute was restricted: the new restrictions, and those from before. -/
theorem mem_restrict {key : String} {tests : List Test} {g : String × List Test} {t : Test} (hg : g ∈ (d.restrict key tests).groups)
    (ht : t ∈ g.2) : (g.1 = key ∧ t ∈ tests) ∨ ∃ g' ∈ d.groups, g'.1 = g.1 ∧ t ∈ g'.2 := by
  rcases Pairs.mem_of_mem_put hg with rfl | hg
  · rcases List.mem_append.1 ht with ht | ht
    · cases hold : d.groups.lookup key with
      | none => simp [hold] at ht
      | some old =>
        rw [hold] at ht
        exact .inr ⟨(key, old), Pairs.mem_of_lookup_eq hold, rfl, ht⟩
    · exact .inl ⟨rfl, ht⟩
  · exact .inr ⟨g, hg, rfl, ht⟩

/-- The restrictions of an attribute join those of the same one. -/
theorem Description.Grouped.restrict {key : String} {tests : List Test} (h : d.Grouped) (hne : tests ≠ [])
    (ht : ∀ t ∈ tests, t.key = key ∧ (t.value.legible = true → t.ReadsBack)) : (d.restrict key tests).Grouped := by
  refine ⟨Pairs.nodup_keys_put h.nodup _ _, fun g hg => ?_, fun g hg t htest => ?_⟩
  · rcases Pairs.mem_of_mem_put hg with rfl | hg
    · simp [hne]
    · exact h.nonempty g hg
  · rcases mem_restrict hg htest with ⟨hkey, htest⟩ | ⟨g', hg', hkey, htest⟩
    · exact hkey ▸ ht t htest
    · exact hkey ▸ h.tests g' hg' t htest

/-- An attribute that is read is restricted by something. -/
theorem ne_nil_of_takeAttribute {key : String} {tests : List Test} (h : takeAttribute i cs = .ok ((key, tests), rest)) :
    tests ≠ [] := by
  obtain ⟨after, start, -, -, hvalue⟩ := takeAttribute_eq_ok_iff.1 h
  cases hvalue with
  | regex hslash hr => simp
  | any hslash hany => simp
  | literal hslash hany hl =>
    have hpieces : ∀ text : List Char, Text.splitOn '|' text ≠ [] := by
      intro text
      induction text with
      | nil => simp [Text.splitOn]
      | cons c text ih =>
        rw [Text.splitOn]
        split
        · simp
        · split <;> simp
    rintro rfl
    exact hpieces _ (List.length_eq_zero_iff.1 (of_literals hl).1.symm)

theorem Description.Grouped.takeEntry (h : d.Grouped) (htake : takeEntry i d cs = .ok (d', rest)) : d'.Grouped := by
  unfold Pattern.takeEntry at htake
  split at htake
  · cases htake
    exact ⟨h.nodup, h.nonempty, h.tests⟩
  · obtain ⟨⟨⟨key, tests⟩, rest'⟩, hattribute, htake⟩ := bind_eq_ok_iff.1 htake
    cases htake
    exact h.restrict (ne_nil_of_takeAttribute hattribute) fun t ht => readsBack_of_takeAttribute hattribute ht

/-- What every entry keeps holds of the description that entries make up. -/
theorem takeEntries_invariant {I : Description → Prop}
    (keep : ∀ {d d' : Description} {cs rest : List Char}, I d → takeEntry i d cs = .ok (d', rest) → I d')
    (hd : I d) (h : takeEntries i d cs = .ok (d', rest)) : I d' := by
  induction d, cs using takeEntries.induct i with
  | case1 d cs e he =>
    rw [takeEntries, he] at h
    cases h
  | case2 d cs d₁ after he rest' ht =>
    rw [takeEntries, he] at h
    simp only [ht] at h
    cases h
    exact keep hd he
  | case3 d cs d₁ after he rest' ht hlt ih =>
    rw [takeEntries, he] at h
    simp only [ht, if_pos hlt] at h
    exact ih (keep hd he) h
  | case4 d cs d₁ after he rest' ht hlt =>
    rw [takeEntries, he] at h
    simp only [ht, if_neg hlt] at h
    cases h
  | case5 d cs d₁ after he h1 h2 =>
    rw [takeEntries, he] at h
    simp only at h
    cases h

/-- What holds of a description without entries, and is kept by every entry, holds of a description that was read. -/
theorem takeDescription_invariant {I : Description → Prop} (blank : ∀ negated, I { negated := negated })
    (keep : ∀ {d d' : Description} {cs rest : List Char}, I d → takeEntry i d cs = .ok (d', rest) → I d')
    (h : takeDescription i cs = .ok (d, rest)) : I d := by
  have hbraces : ∀ {negated : Bool} {text : List Char}, takeBraces i negated text = .ok (d, rest) → I d := by
    intro negated text h
    unfold takeBraces at h
    split at h
    · split at h
      · cases h
        exact blank negated
      · exact takeEntries_invariant keep (blank negated) h
    · cases h
  unfold takeDescription at h
  split at h
  · exact hbraces h
  · exact hbraces h

/-- A description that was read is put together group by group. -/
theorem grouped_of_takeDescription (h : takeDescription i cs = .ok (d, rest)) : d.Grouped :=
  takeDescription_invariant (fun _ => grouped_of_groups_eq_nil rfl) (fun hd htake => hd.takeEntry htake) h

/-- One restriction after the other makes up a group. -/
theorem foldl_restrict_group {groups : List (String × List Test)} {key : String} {tests : List Test} (hkey : key ∉ Pairs.keys groups)
    (ht : ∀ t ∈ tests, t.key = key) (before : List Test) :
    tests.foldl (fun d t => d.restrict t.key [t]) { d with groups := groups ++ [(key, before)] } =
      { d with groups := groups ++ [(key, before ++ tests)] } := by
  induction tests generalizing before with
  | nil => simp
  | cons t tests ih =>
    obtain ⟨rfl, ht⟩ := List.forall_mem_cons.1 ht
    have hlookup : (groups ++ [(t.key, before)]).lookup t.key = some before := by
      have hnone : groups.lookup t.key = none := Pairs.lookup_eq_none_iff_notMem.2 hkey
      rw [List.lookup_append, hnone]
      simp
    rw [List.foldl_cons, Description.restrict]
    simp only [hlookup, Option.getD_some, Pairs.put_concat hkey]
    rw [ih ht, List.append_assoc, List.singleton_append]

/-- The restrictions of a description, one after the other, make up its groups. -/
theorem foldl_restrict {groups more : List (String × List Test)} (hnodup : (Pairs.keys (groups ++ more)).Nodup)
    (hne : ∀ g ∈ more, g.2 ≠ []) (ht : ∀ g ∈ more, ∀ t ∈ g.2, t.key = g.1) :
    (more.flatMap (·.2)).foldl (fun d t => d.restrict t.key [t]) { d with groups := groups } =
      { d with groups := groups ++ more } := by
  induction more generalizing groups with
  | nil => simp
  | cons g more ih =>
    obtain ⟨key, tests⟩ := g
    obtain ⟨hg, hne⟩ := List.forall_mem_cons.1 hne
    obtain ⟨htest, ht⟩ := List.forall_mem_cons.1 ht
    have hkey : key ∉ Pairs.keys groups := by
      intro hmem
      simp only [Pairs.keys, List.map_append, List.map_cons, List.nodup_append] at hnodup
      exact hnodup.2.2 key hmem key (List.mem_cons_self ..) rfl
    have hgroup : tests.foldl (fun d t => d.restrict t.key [t]) { d with groups := groups } =
        { d with groups := groups ++ [(key, tests)] } := by
      cases tests with
      | nil => exact absurd rfl hg
      | cons t tests =>
        obtain ⟨rfl, htest⟩ := List.forall_mem_cons.1 htest
        have hnone : groups.lookup t.key = none := Pairs.lookup_eq_none_iff_notMem.2 hkey
        rw [List.foldl_cons, Description.restrict]
        simp only [hnone, Option.getD_none, List.nil_append, Pairs.put_of_notMem hkey]
        exact foldl_restrict_group hkey htest [t]
    rw [List.flatMap_cons, List.foldl_append, hgroup, ih (by simpa using hnodup) hne ht]
    simp

/-! ## Descriptions -/

/-- An entry that begins with the name of an attribute restricts that. -/
theorem takeEntry_named_iff {c : Char} (hc : isKeyChar c = true) {text : List Char} :
    takeEntry i d (Text.trimStart (c :: text)) = .ok (d', rest) ↔
      ∃ key tests, takeAttribute i (c :: text) = .ok ((key, tests), rest) ∧ d' = d.restrict key tests := by
  have hstart : Text.trimStart (c :: text) = c :: text := List.dropWhile_cons_of_neg (by simp [isBlank_of_isKeyChar hc])
  have hroot : ∀ after, c :: text = '$' :: after → False := by
    intro after e
    rw [(List.cons.inj e).1] at hc
    exact absurd hc (by decide)
  rw [hstart, takeEntry.eq_2 _ _ _ hroot, bind_eq_ok_iff]
  constructor
  · rintro ⟨⟨⟨key, tests⟩, after⟩, hattribute, h⟩
    cases h
    exact ⟨key, tests, hattribute, rfl⟩
  · rintro ⟨key, tests, hattribute, rfl⟩
    exact ⟨_, hattribute, rfl⟩

/-- A restriction at the end of an entry joins its group. -/
theorem takeEntry_text {t : Test} (h : t.ReadsBack) {c : Char} (hc : isValueChar c = false) (more : List Char) :
    takeEntry i d (Text.trimStart (t.text.toList ++ c :: more)) = .ok (d.restrict t.key [t], c :: more) := by
  have hattribute : takeAttribute i (t.text.toList ++ c :: more) = .ok ((t.key, [t]), c :: more) := h hc
  obtain ⟨b, text, htext, hb⟩ := h.isRead.head
  rw [htext, List.cons_append] at hattribute ⊢
  exact (takeEntry_named_iff hb).2 ⟨_, _, hattribute, rfl⟩

/-- The last entry. -/
theorem takeEntries_last (h : takeEntry i d (Text.trimStart cs) = .ok (d', '\x7d' :: more)) : takeEntries i d cs = .ok (d', more) := by
  have hstart : Text.trimStart ('\x7d' :: more) = '\x7d' :: more := rfl
  rw [takeEntries, h]
  simp only [hstart]

/-- An entry before another one. -/
theorem takeEntries_next (h : takeEntry i d (Text.trimStart cs) = .ok (d', ';' :: more)) (hlt : more.length < cs.length) :
    takeEntries i d cs = takeEntries i d' more := by
  have hstart : Text.trimStart (';' :: more) = ';' :: more := rfl
  rw [takeEntries, h]
  simp only [hstart, if_pos hlt]

/-- Restrictions before other entries join their groups, one after the other. -/
theorem takeEntries_before {before : List Test} {pieces : List (List Char)} (h : ∀ t ∈ before, t.ReadsBack) (hne : pieces ≠ [])
    (d : Description) (more : List Char) :
    takeEntries i d ([';'].intercalate (before.map (·.text.toList) ++ pieces) ++ '\x7d' :: more) =
      takeEntries i (before.foldl (fun d t => d.restrict t.key [t]) d) ([';'].intercalate pieces ++ '\x7d' :: more) := by
  induction before generalizing d with
  | nil => rfl
  | cons t before ih =>
    obtain ⟨ht, h⟩ := List.forall_mem_cons.1 h
    obtain ⟨piece, others, hcons⟩ := List.exists_cons_of_ne_nil (List.append_ne_nil_of_right_ne_nil (before.map (·.text.toList)) hne)
    have hrest := ih h (d.restrict t.key [t])
    rw [hcons] at hrest
    rw [List.map_cons, List.cons_append, hcons, List.intercalate_cons_cons, List.append_assoc, List.append_assoc,
      List.singleton_append, takeEntries_next (takeEntry_text ht (by decide) _) (by simp; omega)]
    exact hrest

/-- Restrictions are read one after the other, up to the closing brace. -/
theorem takeEntries_tests {tests : List Test} (hne : tests ≠ []) (h : ∀ t ∈ tests, t.ReadsBack) (d : Description)
    (more : List Char) : takeEntries i d ([';'].intercalate (tests.map (·.text.toList)) ++ '\x7d' :: more) =
      .ok (tests.foldl (fun d t => d.restrict t.key [t]) d, more) := by
  obtain ⟨before, last, rfl⟩ := List.eq_nil_or_concat tests |>.resolve_left hne
  rw [List.concat_eq_append] at h ⊢
  obtain ⟨hbefore, hlast⟩ := List.forall_mem_append.1 h
  rw [List.map_append, takeEntries_before hbefore (by simp), List.map_singleton, List.intercalate_singleton, List.foldl_append]
  exact takeEntries_last (takeEntry_text (hlast last (List.mem_singleton_self _)) (by decide) more)

/-- The mark of a root is read before other entries. -/
theorem takeEntries_root {pieces : List (List Char)} (hne : pieces ≠ []) (d : Description) (root : Bool) (more : List Char) :
    takeEntries i d ([';'].intercalate ((if root then [['$']] else []) ++ pieces) ++ '\x7d' :: more) =
      takeEntries i { d with root := d.root || root } ([';'].intercalate pieces ++ '\x7d' :: more) := by
  obtain ⟨piece, others, rfl⟩ := List.exists_cons_of_ne_nil hne
  cases root with
  | false =>
    rw [Bool.or_false]
    rfl
  | true =>
    have hroot : ∀ rest, takeEntry i d (Text.trimStart ('$' :: rest)) = .ok ({ d with root := true }, rest) := fun _ => rfl
    rw [if_pos rfl, List.singleton_append, List.intercalate_cons_cons, List.append_assoc, List.append_assoc, List.singleton_append,
      List.singleton_append, takeEntries_next (hroot _) (by simp only [List.length_cons]; omega), Bool.or_true]

/-- Whether all values of a description say in writing what they are. -/
def Description.legible (d : Description) : Bool := d.groups.all fun g => g.2.all fun t => t.value.legible

/-- The entries of a description in writing. -/
def Description.entries (d : Description) : List (List Char) :=
  (if d.root then [['$']] else []) ++ (d.groups.flatMap (·.2)).map (·.text.toList)

theorem Description.toList_text (d : Description) :
    d.text.toList = (if d.negated then ['!'] else []) ++ '\x7b' :: ([';'].intercalate d.entries ++ ['\x7d']) := by
  have hentries : ((if d.root then ["$"] else []) ++ d.groups.flatMap fun g => g.2.map Test.text).map String.toList = d.entries := by
    unfold entries
    rw [List.map_append, List.map_flatMap, List.map_flatMap]
    simp only [List.map_map]
    cases d.root <;> rfl
  unfold Description.text
  simp only [String.toList_append, String.toList_intercalate, hentries]
  cases d.negated <;> simp

/-- A text that is joined begins as its first piece does. -/
theorem intercalate_eq_cons (sep c : Char) (piece : List Char) (pieces : List (List Char)) :
    ∃ rest, [sep].intercalate ((c :: piece) :: pieces) = c :: rest := by
  cases pieces with
  | nil => exact ⟨piece, List.intercalate_singleton⟩
  | cons next pieces => exact ⟨_, by rw [List.intercalate_cons_cons, List.append_assoc, List.cons_append]⟩

/-- The restrictions of a description are read again if its values say what they are. -/
theorem Description.Grouped.readsBack (hd : d.Grouped) (hl : d.legible = true) : ∀ t ∈ d.groups.flatMap (·.2), t.ReadsBack := by
  intro t ht
  obtain ⟨g, hg, htest⟩ := List.mem_flatMap.1 ht
  exact (hd.tests g hg t htest).2 (List.all_eq_true.1 (List.all_eq_true.1 hl g hg) t htest)

/-- Entries begin with a mark or with the name of an attribute. -/
theorem entries_eq_cons (hread : ∀ t ∈ d.groups.flatMap (·.2), t.IsRead) (hne : d.entries ≠ []) :
    ∃ c rest, [';'].intercalate d.entries = c :: rest ∧ Text.isBlank c = false ∧ c ≠ '\x7d' := by
  obtain ⟨groups, root, negated⟩ := d
  unfold Description.entries at hne ⊢
  cases root with
  | true =>
    obtain ⟨rest, hrest⟩ := intercalate_eq_cons ';' '$' [] _
    exact ⟨'$', rest, hrest, by decide, by decide⟩
  | false =>
    cases hall : groups.flatMap (·.2) with
    | nil => simp [hall] at hne
    | cons t tests =>
      obtain ⟨c, text, htext, hc⟩ := (hread t (hall ▸ List.mem_cons_self ..)).head
      obtain ⟨rest, hrest⟩ := intercalate_eq_cons ';' c text _
      refine ⟨c, rest, ?_, isBlank_of_isKeyChar hc, ?_⟩
      · rw [if_neg (by simp), List.nil_append, List.map_cons, htext]
        exact hrest
      · rintro rfl
        exact absurd hc (by decide)

/-- The restrictions of a description, joined one after the other to a description without any, make it up. -/
theorem Description.Grouped.foldl_restrict (hd : d.Grouped) :
    (d.groups.flatMap (·.2)).foldl (fun d t => d.restrict t.key [t]) { d with groups := [] } = d := by
  have hkeys : (Pairs.keys ([] ++ d.groups)).Nodup := hd.nodup
  exact Pattern.foldl_restrict hkeys hd.nonempty fun g hg t ht => (hd.tests g hg t ht).1

/-- The entries of a description, if there are any, make it up. -/
theorem takeEntries_entries (hd : d.Grouped) (hl : d.legible = true) (hne : d.entries ≠ []) (more : List Char) :
    takeEntries i { negated := d.negated } ([';'].intercalate d.entries ++ '\x7d' :: more) = .ok (d, more) := by
  have htests := hd.readsBack hl
  have hfold := hd.foldl_restrict
  obtain ⟨groups, root, negated⟩ := d
  unfold Description.entries at hne ⊢
  by_cases hsome : groups.flatMap (·.2) = []
  · -- The mark of a root is the only entry.
    rw [hsome] at hfold hne ⊢
    cases root with
    | false => exact absurd rfl hne
    | true =>
      rw [List.foldl_nil] at hfold
      rw [← hfold]
      exact takeEntries_last rfl
  · rw [takeEntries_root (by simpa using hsome), takeEntries_tests hsome htests]
    exact congrArg (fun d => Except.ok (d, more)) hfold

/-- A description without entries is blank, but for its negation. -/
theorem eq_of_entries_eq_nil (hd : d.Grouped) (h : d.entries = []) : d = { negated := d.negated } := by
  obtain ⟨groups, root, negated⟩ := d
  cases root with
  | true => simp [Description.entries] at h
  | false =>
    cases groups with
    | nil => rfl
    | cons g groups =>
      have hne := hd.nonempty g (List.mem_cons_self ..)
      simp [Description.entries, hne] at h

/-- Between braces the entries of a description are read, if there are any. -/
theorem takeBraces_entries (hread : ∀ t ∈ d.groups.flatMap (·.2), t.IsRead) (hne : d.entries ≠ []) (negated : Bool) (more : List Char) :
    takeBraces i negated ('\x7b' :: ([';'].intercalate d.entries ++ '\x7d' :: more)) =
      takeEntries i { negated := negated } ([';'].intercalate d.entries ++ '\x7d' :: more) := by
  obtain ⟨c, rest, htext, hblank, hbrace⟩ := entries_eq_cons hread hne
  have hstart : Text.trimStart (c :: (rest ++ '\x7d' :: more)) = c :: (rest ++ '\x7d' :: more) :=
    List.dropWhile_cons_of_neg (by simp [hblank])
  rw [htext, List.cons_append]
  unfold takeBraces
  simp only [hstart]
  split
  · rename_i e
    exact absurd (List.cons.inj e).1 hbrace
  · rfl

/-- The braces of a description are read again, with what is between them. -/
theorem takeBraces_text (hd : d.Grouped) (hl : d.legible = true) (more : List Char) :
    takeBraces i d.negated ('\x7b' :: ([';'].intercalate d.entries ++ '\x7d' :: more)) = .ok (d, more) := by
  by_cases hne : d.entries = []
  · rw [hne, eq_of_entries_eq_nil hd hne]
    rfl
  · rw [takeBraces_entries (fun t ht => Test.ReadsBack.isRead (hd.readsBack hl t ht)) hne]
    exact takeEntries_entries hd hl hne more

/-- The text of a description is read from its braces on. -/
theorem takeDescription_eq_takeBraces (d : Description) (more : List Char) : takeDescription i (d.text.toList ++ more) =
    takeBraces i d.negated ('\x7b' :: ([';'].intercalate d.entries ++ '\x7d' :: more)) := by
  have hbody : '\x7b' :: ([';'].intercalate d.entries ++ ['\x7d']) ++ more =
      '\x7b' :: ([';'].intercalate d.entries ++ '\x7d' :: more) := by simp
  rw [Description.toList_text, List.append_assoc, hbody]
  cases d.negated <;> rfl

/-- A description that was read is read again. -/
theorem takeDescription_text (hd : d.Grouped) (hl : d.legible = true) (more : List Char) :
    takeDescription i (d.text.toList ++ more) = .ok (d, more) :=
  (takeDescription_eq_takeBraces d more).trans (takeBraces_text hd hl more)

/-! ## Places -/

/-- Text that no name of a token runs into: what may stand behind a place in writing. -/
def Breaks (more : List Char) : Prop := ∀ c ∈ more.head?, c = ' ' ∨ c = ')' ∨ c = ']'

theorem breaks_nil : Breaks [] := by simp [Breaks]

theorem breaks_cons {c : Char} (hc : c = ' ' ∨ c = ')' ∨ c = ']') (more : List Char) : Breaks (c :: more) := by
  rintro _ ⟨⟩
  exact hc

/-- A name in writing, behind an equals sign. -/
def nameText (name : Option String) : List Char := ((name.map ("=" ++ ·)).getD "").toList

/-- A name that was read is read again, where no name runs into what follows. -/
theorem takeName_text {missing missing' : Fault} {name : Option String} (h : takeName i missing cs = .ok (name, rest))
    (hmore : ∀ c ∈ more.head?, isNameChar c = false ∧ c ≠ '=') :
    takeName i' missing' (nameText name ++ more) = .ok (name, more) := by
  cases name with
  | none =>
    have hno : ∀ rest, more = '=' :: rest → False := by
      rintro rest rfl
      exact (hmore '=' rfl).2 rfl
    exact takeName.eq_3 _ _ _ (fun rest e => hno _ e) (fun rest e => hno _ e)
  | some name =>
    -- A name was read, so it is a run of its characters.
    obtain ⟨hne, hname⟩ : name.toList ≠ [] ∧ ∀ c ∈ name.toList, isNameChar c = true := by
      unfold takeName at h
      split at h
      · cases h
      · obtain ⟨⟨run, rest'⟩, hrun, h⟩ := bind_eq_ok_iff.1 h
        cases h
        exact of_takeRun hrun
      · cases h
    have htext : nameText (some name) ++ more = '=' :: (name.toList ++ more) := by simp [nameText]
    have hdouble : ∀ rest, name.toList ++ more = '=' :: rest → False := by
      intro rest e
      obtain ⟨c, run, hcons⟩ := List.exists_cons_of_ne_nil hne
      rw [hcons, List.cons_append] at e
      have hc := hname c (hcons ▸ List.mem_cons_self ..)
      rw [(List.cons.inj e).1] at hc
      exact absurd hc (by decide)
    have hrun : takeRun i' isNameChar missing' (name.toList ++ more) = .ok (String.ofList name.toList, more) :=
      takeRun_append hne hname fun c hc => (hmore c hc).1
    rw [htext, takeName.eq_2 _ _ _ hdouble, hrun, String.ofList_toList]
    rfl

theorem Breaks.name (h : Breaks more) : ∀ c ∈ more.head?, isNameChar c = false ∧ c ≠ '=' := by
  intro c hc
  rcases h c hc with rfl | rfl | rfl <;> decide

theorem Place.toList_text (p : Place) : p.text.toList = p.description.text.toList ++ nameText p.name := by
  rw [Place.text, String.toList_append, nameText]

/-- A place that was read is read again. -/
theorem readsPlace_text {place : Place} (hread : place.IsRead) (hl : place.description.legible = true) (hmore : Breaks more) :
    ReadsPlace i (place.text.toList ++ more) place more := by
  obtain ⟨i₀, cs, rest, rest₁, hd, hname⟩ := hread
  rw [Place.toList_text, List.append_assoc]
  exact ⟨_, takeDescription_text (grouped_of_takeDescription hd) hl _, takeName_text hname hmore.name⟩

/-- A place begins with a brace, or with an exclamation mark before it. -/
theorem Place.text_eq_cons (p : Place) : ∃ c text, p.text.toList = c :: text ∧ (c = '!' ∨ c = '\x7b') := by
  rw [Place.toList_text, Description.toList_text]
  cases p.description.negated with
  | true => exact ⟨'!', _, rfl, .inl rfl⟩
  | false => exact ⟨'\x7b', _, rfl, .inr rfl⟩

end Treebank.Pattern

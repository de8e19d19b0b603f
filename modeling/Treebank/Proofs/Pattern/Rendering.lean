import Treebank.Proofs.Pattern.RoundTrip
import Treebank.Proofs.Pattern.WellFormed

/-!
# Descriptions by themselves

The text of a description that was read is compiled as that very description exactly if all its values say in writing what they are
(`descriptions_survive_iff`). A value that does not is read as another one: what is read of a description only adds to its groups
(`Description.Extends`), so what was read amiss stays. The text may then not be compiled at all, or belong to another description, too,
that accepts other tokens (`description_lost`).
-/

namespace Treebank

namespace Pattern

variable {i i' : Input} {cs rest more : List Char} {c : Char} {d d' : Description} {t : Test} {tests : List Test} {key : String}

/-! ## Values that do not say what they are -/

/-- A regular expression with a slash in it is read as another one, if at all. -/
theorem source_ne_of_takeRegex {slash : List Char} {source source' : String} {r r' : Regex}
    (h : takeRegex i slash = .ok ((source, r), rest)) (hslash : '/' ∈ source.toList) {rest' : List Char}
    (h' : takeRegex i' ('/' :: (source.toList ++ more)) = .ok ((source', r'), rest')) : source' ≠ source := by
  obtain ⟨before, hbefore, hread⟩ := regexSource?_of_mem (takeRegex_eq_ok_iff.1 h).1 hslash
  obtain ⟨after, hafter⟩ := hread more
  have hsource := (takeRegex_eq_ok_iff.1 h').1
  rw [List.drop_one, List.tail_cons, hafter, Option.some.injEq, Prod.mk.injEq] at hsource
  rintro rfl
  rw [hsource.1] at hbefore
  exact hbefore hslash

/-- A regular expression is among what is read of a value only if one is read there. -/
theorem ReadsValue.regex_of_mem {start : List Char} (h : ReadsValue i key start tests rest) {key' source : String} {r : Regex}
    (ht : ⟨key', .regex source r⟩ ∈ tests) : takeRegex i start = .ok ((source, r), rest) := by
  cases h with
  | regex hslash hr =>
    cases List.mem_singleton.1 ht
    exact hr
  | any hslash hany => cases List.mem_singleton.1 ht
  | literal hslash hany hread =>
    obtain ⟨raw, -, -, e⟩ := (of_literals hread).2 _ ht
    cases e

/-- A literal is among what is read of a value only if that looks like nothing else. -/
theorem ReadsValue.literal_of_mem {start : List Char} (h : ReadsValue i key start tests rest) {key' text : String}
    (ht : ⟨key', .literal text⟩ ∈ tests) :
    start.head? ≠ some '/' ∧ Text.trim (start.takeWhile isValueChar) ≠ ['_', '_'] := by
  cases h with
  | regex hslash hr => cases List.mem_singleton.1 ht
  | any hslash hany => cases List.mem_singleton.1 ht
  | literal hslash hany hread => exact ⟨hslash, hany⟩

/-- A value that does not say what it is, is not among what is read of its text. -/
theorem ReadsValue.notMem {start : List Char} (h : ReadsValue i key start tests rest) (ht : t ∈ tests) (hl : t.value.legible = false)
    (hc : isValueChar c = false) {key' : String} {tests' : List Test} {rest' : List Char}
    (h' : ReadsValue i' key' (t.value.text ++ c :: more) tests' rest') : t ∉ tests' := by
  intro hmem
  obtain ⟨name, value⟩ := t
  cases value with
  | any => cases hl
  | regex source r =>
    have hslash : '/' ∈ source.toList := by simpa [Value.legible] using hl
    have hread := h'.regex_of_mem hmem
    rw [Value.text, List.cons_append, List.append_assoc] at hread
    exact source_ne_of_takeRegex (h.regex_of_mem ht) hslash hread rfl
  | literal text =>
    obtain ⟨hslash, hany⟩ := h'.literal_of_mem hmem
    rw [Value.text] at hslash hany
    simp only [Value.legible, Bool.and_eq_false_iff, bne_eq_false_iff_eq] at hl
    rcases hl with hhead | rfl
    · rw [List.head?_append, hhead] at hslash
      exact hslash rfl
    · have hmarks : ∀ b ∈ ['_', '_'], isValueChar b = true := List.all_eq_true.1 (by decide)
      have htake := (run_append hmarks (c :: more) (by simpa using hc)).1
      exact hany ((congrArg Text.trim htake).trans (by decide))

/-- A restriction whose value does not say what it is, is not among what is read of its text. -/
theorem Test.IsRead.notMem (ht : t.IsRead) (hl : t.value.legible = false) (hc : isValueChar c = false)
    (h : takeAttribute i (t.text.toList ++ c :: more) = .ok ((key, tests), rest)) : t.key = key ∧ t ∉ tests := by
  obtain ⟨hkey, hvalue⟩ := ht.takeAttribute_iff.1 h
  obtain ⟨i₀, cs, key₀, tests₀, rest₀, hread, hmem⟩ := ht
  obtain ⟨after, start, -, -, hvalue₀⟩ := takeAttribute_eq_ok_iff.1 hread
  exact ⟨hkey, hvalue₀.notMem hmem hl hc hvalue⟩

/-- An entry with a value that does not say what it is restricts the attribute by something else. -/
theorem Test.IsRead.takeEntry_cases (ht : t.IsRead) (hl : t.value.legible = false) (hc : isValueChar c = false)
    (h : takeEntry i d (Text.trimStart (t.text.toList ++ c :: more)) = .ok (d', rest)) :
    ∃ tests, tests ≠ [] ∧ t ∉ tests ∧ d' = d.restrict t.key tests := by
  obtain ⟨b, text, hcons, hb⟩ := ht.head
  rw [hcons, List.cons_append] at h
  obtain ⟨key, tests, hattribute, rfl⟩ := (takeEntry_named_iff hb).1 h
  rw [← List.cons_append, ← hcons] at hattribute
  obtain ⟨rfl, hnot⟩ := ht.notMem hl hc hattribute
  exact ⟨tests, ne_nil_of_takeAttribute hattribute, hnot, rfl⟩

/-! ## Groups that grow -/

/-- The restrictions of an attribute. -/
def Description.group (d : Description) (key : String) : List Test := (d.groups.lookup key).getD []

/-- Whether a description has what another one has, and only adds to its groups. -/
def Description.Extends (d d' : Description) : Prop := ∀ key, d.group key <+: d'.group key

theorem group_restrict (d : Description) (key : String) (tests : List Test) (name : String) :
    (d.restrict key tests).group name = if name == key then d.group key ++ tests else d.group name := by
  unfold Description.group Description.restrict
  rw [Pairs.lookup_put]
  split <;> rfl

theorem extends_refl (d : Description) : d.Extends d := fun _ => List.prefix_refl _

theorem Description.Extends.trans {d'' : Description} (h : d.Extends d') (h' : d'.Extends d'') : d.Extends d'' := fun key =>
  (h key).trans (h' key)

theorem extends_restrict (d : Description) (key : String) (tests : List Test) : d.Extends (d.restrict key tests) := by
  intro name
  rw [group_restrict]
  split
  · rename_i hname
    rw [eq_of_beq hname]
    exact List.prefix_append _ _
  · exact List.prefix_refl _

/-- What comes next in a group is the same in all ways in which the description is put together. -/
theorem mem_of_extends (h : (d.restrict t.key [t]).Extends d') (h' : (d.restrict t.key tests).Extends d') (hne : tests ≠ []) :
    t ∈ tests := by
  have hone := h t.key
  have hother := h' t.key
  rw [group_restrict, if_pos (beq_self_eq_true t.key)] at hone hother
  have hpos := List.length_pos_iff.2 hne
  have hnext : [t] <+: tests := by
    refine (List.prefix_append_right_inj (d.group t.key)).1 (List.prefix_of_prefix_length_le hone hother ?_)
    simp only [List.length_append, List.length_singleton]
    omega
  exact hnext.subset (List.mem_singleton_self t)

/-- An entry only adds to a group. -/
theorem extends_takeEntry (h : takeEntry i d cs = .ok (d', rest)) : d.Extends d' := by
  unfold takeEntry at h
  split at h
  · cases h
    exact extends_refl d
  · obtain ⟨⟨⟨key, tests⟩, after⟩, -, h⟩ := bind_eq_ok_iff.1 h
    cases h
    exact extends_restrict d key tests

/-- Restrictions one after the other only add to groups. -/
theorem extends_foldl (d : Description) (tests : List Test) : d.Extends (tests.foldl (fun d t => d.restrict t.key [t]) d) := by
  induction tests generalizing d with
  | nil => exact extends_refl d
  | cons t tests ih => exact (extends_restrict d t.key [t]).trans (ih _)

/-- Behind the first of several entries the others only add to groups. -/
theorem extends_of_takeEntries (h : takeEntries i d cs = .ok (d', rest)) :
    ∃ d₁ after, takeEntry i d (Text.trimStart cs) = .ok (d₁, after) ∧ d₁.Extends d' := by
  rw [takeEntries] at h
  split at h
  · cases h
  · rename_i d₁ after hfirst
    refine ⟨d₁, after, hfirst, ?_⟩
    split at h
    · cases h
      exact extends_refl d'
    · split at h
      · exact takeEntries_invariant (fun hd htake => hd.trans (extends_takeEntry htake)) (extends_refl d₁) h
      · cases h
    · cases h

/-! ## Descriptions -/

/-- The restrictions of a description that was read were read. -/
theorem isRead_of_takeDescription (h : takeDescription i cs = .ok (d, rest)) : ∀ t ∈ d.groups.flatMap (·.2), t.IsRead := by
  have hgroups : ∀ g ∈ d.groups, ∀ t ∈ g.2, t.IsRead := by
    refine takeDescription_invariant (I := fun d => ∀ g ∈ d.groups, ∀ t ∈ g.2, t.IsRead) (fun _ g hg => absurd hg List.not_mem_nil) ?_ h
    intro d d' cs rest hd htake g hg t ht
    unfold takeEntry at htake
    split at htake
    · cases htake
      exact hd g hg t ht
    · obtain ⟨⟨⟨key, tests⟩, after⟩, hattribute, htake⟩ := bind_eq_ok_iff.1 htake
      cases htake
      rcases mem_restrict hg ht with ⟨-, ht⟩ | ⟨g', hg', -, ht⟩
      · exact ⟨_, _, _, _, _, hattribute, ht⟩
      · exact hd g' hg' t ht
  intro t ht
  obtain ⟨g, hg, ht⟩ := List.mem_flatMap.1 ht
  exact hgroups g hg t ht

/-- A description some value of which does not say what it is has a first such restriction. -/
theorem exists_first_illegible (hl : d.legible = false) :
    ∃ before t after, d.groups.flatMap (·.2) = before ++ t :: after ∧ (∀ b ∈ before, b.value.legible = true) ∧ t.value.legible = false := by
  have hsome : ((d.groups.flatMap (·.2)).find? (!·.value.legible)).isSome := by
    obtain ⟨g, hg, ht⟩ := List.all_eq_false.1 hl
    obtain ⟨t, ht, hlegible⟩ := List.all_eq_false.1 (Bool.not_eq_true _ ▸ ht)
    exact List.find?_isSome.2 ⟨t, List.mem_flatMap.2 ⟨g, hg, ht⟩, by simpa using hlegible⟩
  obtain ⟨t, ht⟩ := Option.isSome_iff_exists.1 hsome
  obtain ⟨hillegible, before, after, hall, hbefore⟩ := List.find?_eq_some_iff_append.1 ht
  exact ⟨before, t, after, hall, fun b hb => by simpa using hbefore b hb, by simpa using hillegible⟩

/-- A text that is joined begins with its first piece, behind which there is a semicolon or what follows the whole. -/
theorem intercalate_append (piece : List Char) (pieces : List (List Char)) (more : List Char) :
    ∃ c after, [';'].intercalate (piece :: pieces) ++ '\x7d' :: more = piece ++ c :: after ∧ isValueChar c = false := by
  cases pieces with
  | nil => exact ⟨'\x7d', more, by rw [List.intercalate_singleton], by decide⟩
  | cons next pieces => exact ⟨';', _, by rw [List.intercalate_cons_cons, List.append_assoc, List.append_assoc]; rfl, by decide⟩

/-- A description some value of which does not say what it is, is not read from its own text. -/
theorem takeDescription_ne (hd : takeDescription i cs = .ok (d, rest)) (hl : d.legible = false) {rest' : List Char} :
    takeDescription i' (d.text.toList ++ more) ≠ .ok (d, rest') := by
  intro h
  have hread := isRead_of_takeDescription hd
  obtain ⟨before, t, after, hall, hbefore, hillegible⟩ := exists_first_illegible hl
  have ht : t.IsRead := hread t (hall ▸ by simp)
  have hbefore : ∀ b ∈ before, b.ReadsBack := fun b hb => (hread b (hall ▸ by simp [hb])).readsBack (hbefore b hb)
  have hentries : d.entries =
      (if d.root then [['$']] else []) ++ (before.map (·.text.toList) ++ t.text.toList :: after.map (·.text.toList)) := by
    rw [Description.entries, hall, List.map_append, List.map_cons]
  -- The description is read up to the restriction, from whose text something else joins its group.
  rw [takeDescription_eq_takeBraces, takeBraces_entries hread (by simp [hentries]), hentries, takeEntries_root (by simp),
    takeEntries_before hbefore (by simp)] at h
  obtain ⟨c, behind, htext, hc⟩ := intercalate_append t.text.toList (after.map (·.text.toList)) more
  rw [htext] at h
  obtain ⟨d₁, tail, hfirst, hextends⟩ := extends_of_takeEntries h
  obtain ⟨tests, hne, hnot, rfl⟩ := ht.takeEntry_cases hillegible hc hfirst
  -- The group of the description goes on with the restriction at the same place.
  have hself := extends_foldl
    ((before.foldl (fun (d : Description) t => d.restrict t.key [t]) { d with groups := [] }).restrict t.key [t]) after
  rw [← List.foldl_cons, ← List.foldl_append, ← hall, (grouped_of_takeDescription hd).foldl_restrict] at hself
  exact hnot (mem_of_extends hself hextends hne)

/-! ## Places of a pattern -/

/-- The target of a constraint, if that is a relation. -/
def Constraint.target? : Constraint → Option Place
  | relation _ _ target _ => some target
  | all .. => none
  | any .. => none

/-- What is mentioned under a negation is what is mentioned. -/
theorem map_snd_under (u : Bool) (ms : Mentions) : (under u ms).map (·.2) = ms.map (·.2) := by
  rw [under, List.map_map]
  rfl

/-- A place with a name mentions it. -/
theorem mem_mentions_of_name {place : Place} {name : String} (h : place.name = some name) :
    Mention.node name place.description ∈ place.mentions.map (·.2) := by
  simp [Place.mentions, h]

/-- What one of several constraints mentions, they mention. -/
theorem mem_mentioned {m : Mention} {k : Constraint} {ks : List Constraint} (hk : k ∈ ks) (hm : m ∈ k.mentions.map (·.2)) :
    m ∈ (mentioned ks).map (·.2) := by
  induction ks with
  | nil => exact absurd hk List.not_mem_nil
  | cons k' ks ih =>
    rw [mentioned, List.map_append, List.mem_append]
    rcases List.mem_cons.1 hk with rfl | hk
    · exact .inl hm
    · exact .inr (ih hk)

/-- A place that was read, with the name that it has among some mentions. -/
def Place.MentionedIn (place : Place) (ms : Mentions) : Prop :=
  place.IsRead ∧ ∀ name, place.name = some name → Mention.node name place.description ∈ ms.map (·.2)

/-- A target within some constraints is within one of them, and so they mention its name. -/
theorem mentionedIn_of_nestedIn {place : Place} {inner : Constraint} {ks : List Constraint} (hinner : inner ∈ nestedIn ks)
    (h : ∀ k ∈ ks, inner ∈ k.nested → place.MentionedIn k.mentions) : place.MentionedIn (mentioned ks) := by
  obtain ⟨k, hk, hinner⟩ := mem_nestedIn.1 hinner
  obtain ⟨hread, hmention⟩ := h k hk hinner
  exact ⟨hread, fun name hname => mem_mentioned hk (hmention name hname)⟩

/-- The targets within a constraint that was read were read, and it mentions their names. -/
theorem Constraint.IsRead.mentionedIn {k : Constraint} (h : k.IsRead) {place : Place} {inner : Constraint} (hinner : inner ∈ k.nested)
    (htarget : inner.target? = some place) : place.MentionedIn k.mentions := by
  unfold Place.MentionedIn
  induction h with
  | relation mode ho ht =>
    rw [List.mem_singleton.1 hinner] at htarget
    cases htarget
    refine ⟨ht, fun name hname => ?_⟩
    rw [mentions, map_snd_under, List.map_append, List.mem_append]
    exact .inr (mem_mentions_of_name hname)
  | target mode ho ht hk ih =>
    rw [mentions, map_snd_under, List.map_append, List.map_append]
    rcases List.mem_cons.1 hinner with rfl | hinner
    · cases htarget
      exact ⟨ht, fun name hname => List.mem_append_left _ (List.mem_append_right _ (mem_mentions_of_name hname))⟩
    · obtain ⟨hread, hmention⟩ := ih hinner
      exact ⟨hread, fun name hname => List.mem_append_right _ (hmention name hname)⟩
  | all mode hne hgroup hk ih =>
    rw [mentions, map_snd_under]
    rcases List.mem_cons.1 hinner with rfl | hinner
    · cases htarget
    · exact mentionedIn_of_nestedIn hinner ih
  | any mode hmany hk ih =>
    rw [mentions, map_snd_under]
    rcases List.mem_cons.1 hinner with rfl | hinner
    · cases htarget
    · exact mentionedIn_of_nestedIn hinner ih

end Pattern

open Pattern

/-- All places of a pattern: those of its parts, and the targets of relations at any depth. -/
def Pattern.places (p : Pattern) : List Place := p.parts.map (·.place) ++ p.constraints.filterMap Constraint.target?

/-- The pattern of a description by itself, with neither name nor constraint. -/
def Pattern.alone (o : PatternOptions) (text : String) (d : Description) : Pattern :=
  { source := text, parts := [{ place := { description := d } }], nodeNames := [], edgeNames := [], options := o }

/-- Whether a description survives writing: its text is compiled as a description that accepts the same tokens, be case regarded or not,
be they roots or not. -/
def Pattern.Description.Survives (d : Description) (o : PatternOptions) : Prop :=
  ∃ again, ofText o d.text = .ok (Pattern.alone o d.text again) ∧
    ∀ ignoreCase isRoot t, again.accepts ignoreCase isRoot t = d.accepts ignoreCase isRoot t

namespace Pattern

variable {o o' : PatternOptions} {text : String} {p : Pattern} {place place' : Place}

/-- The places of a pattern that was read were read, and the pattern mentions their names. -/
theorem mentionedIn_of_mem_places (h : ofText o text = .ok p) (hplace : place ∈ p.places) : place.MentionedIn p.mentions := by
  have hpart : ∀ part ∈ p.parts, place.MentionedIn part.mentions → place.MentionedIn p.mentions := by
    rintro part hpart ⟨hread, hmention⟩
    refine ⟨hread, fun name hname => ?_⟩
    rw [Pattern.mentions, List.map_flatMap]
    exact List.mem_flatMap.2 ⟨part, hpart, hmention name hname⟩
  rcases List.mem_append.1 hplace with hplace | hplace
  · obtain ⟨part, hmem, rfl⟩ := List.mem_map.1 hplace
    refine hpart part hmem ⟨(isRead_of_ofText h part hmem).1, fun name hname => ?_⟩
    rw [Part.mentions, List.map_append]
    exact List.mem_append_left _ (mem_mentions_of_name hname)
  · obtain ⟨inner, hinner, htarget⟩ := List.mem_filterMap.1 hplace
    obtain ⟨part, hmem, hinner⟩ := List.mem_flatMap.1 hinner
    obtain ⟨hread, hmention⟩ := mentionedIn_of_nestedIn hinner fun k hk hinner =>
      ((isRead_of_ofText h part hmem).2 k (Option.mem_toList.1 hk)).mentionedIn hinner htarget
    refine hpart part hmem ⟨hread, fun name hname => ?_⟩
    rw [Part.mentions, List.map_append]
    exact List.mem_append_right _ (hmention name hname)

/-! ## Descriptions by themselves -/

/-- A description that is read from its text is compiled by itself. -/
theorem ofText_text_eq_alone (hd : takeDescription i cs = .ok (d, rest)) (hl : d.legible = true) (o : PatternOptions) :
    ofText o d.text = .ok (Pattern.alone o d.text d) := by
  have hplace : Place.IsRead { description := d } :=
    ⟨Input.of "", d.text.toList ++ [], [], [], takeDescription_text (grouped_of_takeDescription hd) hl [], rfl⟩
  have hbegin : beginPart (Input.of d.text) [] {} ([] ++ ((Place.text { description := d }).toList ++ [])) = _ :=
    beginPart_text hplace hl rfl breaks_nil rfl []
  have htext : (Place.text { description := d }).toList = d.text.toList := by simp [Place.text]
  rw [htext, List.nil_append, List.append_nil] at hbegin
  have hblank : Text.isAllBlank d.text.toList = false := by
    rw [Description.toList_text]
    cases d.negated <;> rfl
  exact ofText_eq_ok_iff.2 ⟨hblank, read_eq_ok_iff.2 ⟨_, _, _, _, hbegin, Draft.run_blank rfl rfl rfl, rfl⟩⟩

/-- A description that is compiled from its text by itself is read from it. -/
theorem takeDescription_of_alone (h : ofText o d.text = .ok (Pattern.alone o d.text d)) :
    ∃ rest, takeDescription (Input.of d.text) d.text.toList = .ok (d, rest) := by
  obtain ⟨first, rest, parts, names, hbegin, hrun, e⟩ := read_eq_ok_iff.1 (ofText_eq_ok_iff.1 h).2
  obtain rfl : parts = [{ place := { description := d } }] := (congrArg Pattern.parts e).symm
  obtain ⟨d₁, rest₁, hprogress, hbegins⟩ := begins_of_beginPart hbegin
  cases hprogress
  obtain ⟨last, rest', hpasses, -, hpart, -⟩ := Draft.passes_of_run_single hrun hbegins.parts
  have hplace : first.place = { description := d } := hpasses.part.2.1.symm.trans (congrArg Part.place hpart).symm
  -- The text begins with a brace, or with an exclamation mark before it, so there is no parenthesis around the place.
  have hparenthesis : takeParenthesis (Text.trimStart d.text.toList) = (false, d.text.toList) := by
    rw [Description.toList_text]
    cases d.negated <;> rfl
  unfold beginPart at hbegin
  simp only [hparenthesis] at hbegin
  split at hbegin
  · cases hbegin
  · rename_i place names' behind htake
    cases hbegin
    obtain ⟨⟨after, hread, -⟩, -⟩ := takePlace_eq_ok_iff.1 htake
    obtain rfl : place = { description := d } := hplace
    exact ⟨after, hread⟩

/-- Every description of a pattern that was read, of a part or of a target at any depth, survives writing if all its values say what
they are; and exactly then its text is compiled as that very description by itself. Descriptions of such patterns with one text are then
one description, and so are those of places with one name in a pattern, unless they are blank. -/
theorem descriptions_survive_iff (h : ofText o text = .ok p) :
    (∀ place ∈ p.places, ∀ o', let d := place.description
      (d.legible → d.Survives o') ∧ (ofText o' d.text = .ok (Pattern.alone o' d.text d) ↔ d.legible)) ∧
      (∀ o' text' p', ofText o' text' = .ok p' → ∀ place ∈ p.places, ∀ place' ∈ p'.places, place.description.legible →
        place'.description.legible → place.description.text = place'.description.text → place.description = place'.description) ∧
      ∀ place ∈ p.places, ∀ place' ∈ p.places, ∀ name, place.name = some name → place'.name = some name →
        place.description.isBlank = false → place'.description.isBlank = false → place.description.legible →
          place'.description.legible → place.description = place'.description := by
  -- What is read from the text of a legible description is that description.
  have hsame : ∀ o' text' p', ofText o' text' = .ok p' → ∀ place ∈ p.places, ∀ place' ∈ p'.places, place.description.legible →
      place'.description.legible → place.description.text = place'.description.text → place.description = place'.description := by
    intro o' text' p' h' place hplace place' hplace' hl hl' htext
    obtain ⟨i, cs, rest, after, hd, -⟩ := (mentionedIn_of_mem_places h hplace).1
    obtain ⟨i', cs', rest', after', hd', -⟩ := (mentionedIn_of_mem_places h' hplace').1
    have hread := takeDescription_text (i := i) (grouped_of_takeDescription hd) hl []
    rw [htext, takeDescription_text (grouped_of_takeDescription hd') hl' []] at hread
    exact (Prod.mk.inj (Except.ok.inj hread)).1.symm
  refine ⟨fun place hplace o' => ?_, hsame, fun place hplace place' hplace' name hname hname' hblank hblank' hl hl' => ?_⟩
  · obtain ⟨i, cs, rest, after, hd, -⟩ := (mentionedIn_of_mem_places h hplace).1
    have halone : place.description.legible → _ := fun hl => ofText_text_eq_alone hd hl o'
    refine ⟨fun hl => ⟨place.description, halone hl, fun _ _ _ => rfl⟩, fun hcompiled => ?_, halone⟩
    obtain ⟨rest', hread⟩ := takeDescription_of_alone hcompiled
    by_contra hl
    rw [← List.append_nil place.description.text.toList] at hread
    exact takeDescription_ne hd (Bool.eq_false_of_not_eq_true hl) hread
  · obtain ⟨⟨u, m⟩, hm, rfl⟩ := List.mem_map.1 ((mentionedIn_of_mem_places h hplace).2 name hname)
    obtain ⟨⟨u', m'⟩, hm', rfl⟩ := List.mem_map.1 ((mentionedIn_of_mem_places h hplace').2 name hname')
    have htext := (wellFormed_ofText h).described name u _ u' _ hm hm' hblank hblank'
    exact hsame o text p h place hplace place' hplace' hl hl' htext

/-- So it is for a negated description with alternatives, a regular expression, the mark of a root, any value and an attribute that comes
back, for the target of a relation, and for two places with one name. -/
theorem descriptions_survive_mixed :
    let t := "!\x7b word: a | b; tag:/N.*/; $; lemma:__; word:c \x7d=x > \x7b\x7d : !\x7b$;word:a|b|c;tag:/N.*/;lemma:__\x7d=x"
    let mixed := "!\x7b$;word:a;word:b;word:c;tag:/N.*/;lemma:__\x7d"
    ∃ p : Pattern, ofText {} t = .ok p ∧ p.places.map (·.description.text) = [mixed, mixed, "\x7b\x7d"] ∧
      (∀ place ∈ p.places, place.description.legible) ∧
      (∀ place ∈ p.places, ∀ o', let d := place.description
        (d.legible → d.Survives o') ∧ (ofText o' d.text = .ok (Pattern.alone o' d.text d) ↔ d.legible)) ∧
      (∀ o' text' p', ofText o' text' = .ok p' → ∀ place ∈ p.places, ∀ place' ∈ p'.places, place.description.legible →
        place'.description.legible → place.description.text = place'.description.text → place.description = place'.description) ∧
      ∀ place ∈ p.places, ∀ place' ∈ p.places, ∀ name, place.name = some name → place'.name = some name →
        place.description.isBlank = false → place'.description.isBlank = false → place.description.legible →
          place'.description.legible → place.description = place'.description := by
  intro t mixed
  obtain ⟨p, hp, hfacts⟩ := exists_ok_of_map_toOption (x := ofText {} t)
    (g := fun p => (p.places.map (·.description.text), p.places.all (·.description.legible))) (b := ([mixed, mixed, "\x7b\x7d"], true))
    (by decide +kernel)
  obtain ⟨htexts, hlegible⟩ := Prod.mk.inj hfacts
  exact ⟨p, hp, htexts, List.all_eq_true.1 hlegible, descriptions_survive_iff hp⟩

/-- A slash in a regular expression ends it in writing, and the text is not compiled. A literal that is the sign for any value becomes
that sign: the text is compiled as a description that accepts other tokens, and one name is let have both descriptions. -/
theorem description_lost :
    let compiled (text : String) : Option (List Description) := (ofText {} text).toOption.map fun p => p.places.map (·.description)
    let texts (text : String) : Option (List String) := (compiled text).map (·.map (·.text))
    let accepts (text : String) (t : Token) : Option (List Bool) := (compiled text).map (·.map (·.accepts false false t))
    let b : Token := { index := 1, word := "b" }
    (texts "\x7bword:/a\\/b/\x7d" = some ["\x7bword:/a/b/\x7d"] ∧ (ofText {} "\x7bword:/a/b/\x7d").toOption.isNone ∧
      texts "\x7bword:a|__\x7d" = some ["\x7bword:a;word:__\x7d"] ∧ texts "\x7bword:a;word:__\x7d" = some ["\x7bword:a;word:__\x7d"] ∧
      accepts "\x7bword:a|__\x7d" b = some [false] ∧ accepts "\x7bword:a;word:__\x7d" b = some [true] ∧
      accepts "\x7bword:a|__\x7d=x > \x7bword:a;word:__\x7d=x" b = some [false, true]) ∧
      ¬ ∀ text p, ofText {} text = .ok p → ∀ place ∈ p.places, place.description.Survives {} := by
  intro compiled texts accepts b
  refine ⟨by decide +kernel, fun hsurvives => ?_⟩
  obtain ⟨p, hp, htexts⟩ := exists_ok_of_map_toOption (x := ofText {} "\x7bword:/a\\/b/\x7d")
    (g := fun p => p.places.map (·.description.text)) (b := ["\x7bword:/a/b/\x7d"]) (by decide +kernel)
  obtain ⟨place, hplace, htext⟩ := List.mem_map.1 (htexts ▸ List.mem_singleton_self "\x7bword:/a/b/\x7d")
  obtain ⟨again, hagain, -⟩ := hsurvives _ p hp place hplace
  have hnone : (ofText {} "\x7bword:/a/b/\x7d").toOption.isNone := by decide +kernel
  rw [← htext, hagain] at hnone
  cases hnone

end Pattern

end Treebank

import Treebank.Proofs.Edit.Quotes
import Treebank.Proofs.Edit.Read

/-!
# What is read, in writing

An edit that was read from a line is written on a line of its own. That line is read as an equal edit exactly if the edit sets roots or is
legible (`ofLine_line_iff`): a name that is empty is left out, one that holds a blank is not put in quotes, and one that begins with a
quote runs on to the next quote.
-/

namespace Treebank.Edit

open Text

variable {e e' : Edit} {args : Arguments}

/-- The names that an edit says; its attributes are none. -/
def names (e : Edit) : List String := (e.stated.filter (·.1 != "-nodearg")).map (·.2)

/-- Whether the line of an edit can be read again: no name is empty or holds a blank, every quote is closed, and no quote follows a name
that begins with its only quote. -/
structure Legible (e : Edit) : Prop where
  names : ∀ name ∈ e.names, IsRun name
  closed : e.line.toList.count '"' % 2 = 0
  late : e.words.Pairwise fun s t => Opens s → '"' ∉ t.toList

/-- A name is said under a flag. -/
theorem mem_names {argument : String × String} (h : argument ∈ e.stated) (hname : argument.1 ≠ "-nodearg") : argument.2 ∈ e.names :=
  List.mem_map_of_mem (List.mem_filter.2 ⟨h, by simpa using hname⟩)

/-- What is stated as attributes is them. -/
theorem eq_of_mem_stated {argument : String × String} (h : argument ∈ e.stated) (hname : argument.1 = "-nodearg") :
    argument.2 = e.attributes.text := by
  obtain ⟨name, text⟩ := argument
  obtain rfl : name = "-nodearg" := hname
  exact eq_text_of_mem_stated h

/-! ## A line that is read again -/

/-- Attributes that were received stand in a line. -/
theorem Received.stands_attributes (h : e.Received) : Stands (quoteBlank e.attributes.text) e.attributes.text := by
  unfold quoteBlank
  split
  · rename_i hblank
    obtain ⟨c, hc, hblank⟩ := List.any_eq_true.1 hblank
    exact .quoted (h.spaced ⟨c, hc, hblank⟩)
  · rename_i hblank
    rw [Bool.not_eq_true, List.any_eq_false] at hblank
    refine .run ⟨text_ne_empty _, fun c hc => by simpa using hblank c hc⟩ fun hhead => ?_
    rw [Attributes.toList_text] at hhead
    exact absurd (Option.some.inj hhead) (by decide)

/-- Attributes in a line do not begin with their only quote. -/
theorem not_opens_attributes (attributes : Attributes) : ¬ Opens (quoteBlank attributes.text) := by
  rintro ⟨hhead, hone⟩
  unfold quoteBlank at hhead hone
  split at hone
  · rw [toList_quoted, List.count_cons_self, List.count_append, List.count_singleton_self] at hone
    omega
  · rename_i hblank
    rw [if_neg hblank, Attributes.toList_text] at hhead
    exact absurd (Option.some.inj hhead) (by decide)

/-- What was received stands in its line, if no name is empty or holds a blank. -/
theorem Received.stands (h : e.Received) (hnames : ∀ name ∈ e.names, IsRun name) {argument : String × String}
    (hmem : argument ∈ e.arguments) : Stands (printed argument) argument.2 := by
  rcases List.mem_append.1 ((arguments_sublist e).subset hmem) with hmem | hmem
  · by_cases hname : argument.1 = "-nodearg"
    · rw [printed, if_pos hname, eq_of_mem_stated hmem hname]
      exact h.stands_attributes
    · rw [printed_of_ne hname]
      exact .run (hnames _ (mem_names hmem hname)) (h.opens argument hmem)
  · exact (written_weight h.canonical hmem).stands

/-- The line of a legible edit that was received is read as the edit. -/
theorem Received.ofLine_eq_ok (h : e.Received) (hlegible : e.Legible) (hn : e.weight ≠ .notANumber) : ofLine e.line = .ok e := by
  refine ofLine_of_standing h.roots (fun argument hmem => ?_) h.parted h.extra h.canonical hn
    (fun argument hmem => h.stands hlegible.names hmem) hlegible.closed hlegible.late
  by_cases hname : argument.1 = "-nodearg"
  · rw [eq_of_mem_stated hmem hname]
    exact text_ne_empty _
  · exact (hlegible.names _ (mem_names hmem hname)).1

/-! ## Equal edits -/

/-- Attributes of which no two have one name are the same as themselves. -/
theorem Attributes.same_self {a : Attributes} (h : (Pairs.keys a).Nodup) : a.same a = true := by
  rw [Attributes.same, Bool.and_eq_true, beq_self_eq_true, List.all_eq_true]
  exact ⟨rfl, fun entry hentry => beq_iff_eq.2 ((Pairs.lookup_eq_some_iff_mem h).2 hentry)⟩

/-- Attributes that are the same hold the same entries. -/
theorem Attributes.perm_of_same {a b : Attributes} (h : (Pairs.keys a).Nodup) (hsame : a.same b = true) : a.Perm b := by
  rw [Attributes.same, Bool.and_eq_true, List.all_eq_true] at hsame
  obtain ⟨hlength, hall⟩ := hsame
  have hsubset : a ⊆ b := fun entry hentry => Pairs.mem_of_lookup_eq (eq_of_beq (hall entry hentry))
  exact (List.subperm_of_subset (List.Nodup.of_map _ h) hsubset).perm_of_length_le (eq_of_beq hlength).ge

/-- A weight that is a number is the same as itself. -/
theorem same_weight {w : Binary64} (hn : w ≠ .notANumber) : w.same w = true := by
  unfold Binary64.same Binary64.isNaN Binary64.alike
  cases w with
  | notANumber => exact absurd rfl hn
  | infinite negative => simp
  | finite negative m q =>
    simp only [Bool.and_eq_true]
    refine ⟨by simp, ?_⟩
    split <;> simp

/-- An edit that was received, with a number as its weight, is the same as itself. -/
theorem Received.same_self (h : e.Received) (hn : e.weight ≠ .notANumber) : e.same e = true := by
  cases e with
  | addEdge governor dependent relation weight extra =>
    have hweight : weight.same weight = true := same_weight hn
    simp [same, hweight]
  | addDependent governor relation attributes name weight =>
    have hweight : weight.same weight = true := same_weight hn
    have hattributes : attributes.same attributes = true := Attributes.same_self h.parted.keys
    simp [same, hweight, hattributes]
  | addNode attributes name =>
    have hattributes : attributes.same attributes = true := Attributes.same_self h.parted.keys
    simp [same, hattributes]
  | _ => simp [same]

/-- Equal edits say the same names, and attributes that hold the same entries. -/
theorem stated_of_same (h : (Pairs.keys e.attributes).Nodup) (hsame : e.same e' = true) :
    (∀ argument ∈ e.stated, argument.1 ≠ "-nodearg" → argument ∈ e'.stated) ∧ e.attributes.Perm e'.attributes ∧
      (("-nodearg", e.attributes.text) ∈ e.stated → ("-nodearg", e'.attributes.text) ∈ e'.stated) := by
  unfold same at hsame
  split at hsame
  · simp only [Bool.and_eq_true, beq_iff_eq] at hsame
    obtain ⟨⟨⟨⟨rfl, rfl⟩, rfl⟩, -⟩, -⟩ := hsame
    exact ⟨fun _ hmem _ => hmem, .refl _, fun hmem => hmem⟩
  · simp only [Bool.and_eq_true, beq_iff_eq] at hsame
    obtain ⟨⟨⟨⟨rfl, rfl⟩, hattributes⟩, rfl⟩, -⟩ := hsame
    refine ⟨fun argument hmem hname => ?_, Attributes.perm_of_same h hattributes, fun _ => by simp [stated, Edit.attributes]⟩
    simp only [stated, List.mem_append, List.mem_cons, List.not_mem_nil, or_false] at hmem ⊢
    rcases hmem with (hmem | hmem | rfl) | hmem
    · exact .inl (.inl hmem)
    · exact .inl (.inr (.inl hmem))
    · exact absurd rfl hname
    · exact .inr hmem
  · simp only [Bool.and_eq_true, beq_iff_eq] at hsame
    obtain ⟨hattributes, rfl⟩ := hsame
    refine ⟨fun argument hmem hname => ?_, Attributes.perm_of_same h hattributes, fun _ => by simp [stated, Edit.attributes]⟩
    simp only [stated, List.mem_append, List.mem_singleton] at hmem ⊢
    rcases hmem with rfl | hmem
    · exact absurd rfl hname
    · exact .inr hmem
  · obtain rfl := of_decide_eq_true hsame
    exact ⟨fun _ hmem _ => hmem, .refl _, fun hmem => hmem⟩

/-! ## What a line costs -/

/-- Attributes that hold the same entries as those that a text is read as cost no more than the text. -/
theorem Attributes.cost_text_le {a b : Attributes} {text : String} (h : ofText text = .ok b) (hperm : a.Perm b) :
    cost a.text.toList ≤ cost text.toList := by
  have hcount : ∀ c ∉ marks, a.text.toList.count c ≤ text.toList.count c := by
    intro c hc
    rw [count_text hc, (hperm.map _).sum_eq, ← count_text hc]
    exact (of_ofText h).2 c hc
  have hquotes := hcount '"' (by decide)
  by_cases hblank : ∃ c ∈ a.text.toList, isBlank c = true
  · obtain ⟨c, hc, hblank⟩ := hblank
    have hle := hcount c (notMem_marks hblank)
    have htext := count_add_two_le_cost (.inr ⟨c, List.count_pos_iff.1 ((List.count_pos_iff.2 hc).trans_le hle), hblank⟩)
    have hcost := (cost_le a.text.toList).2
    omega
  · have hne : a.text.toList ≠ [] := by simpa using text_ne_empty a
    have hcost := cost_eq_count hne fun c hc => Bool.eq_false_iff.2 fun hc' => hblank ⟨c, hc, hc'⟩
    have htext := (cost_le text.toList).1
    omega

/-- The quotes of what is stated, in writing, are no more than its cost, and fewer if it is a name that is empty or holds a blank. -/
theorem count_printed (argument : String × String) :
    (printed argument).toList.count '"' ≤ cost argument.2.toList ∧
      (argument.1 ≠ "-nodearg" → (argument.2 = "" ∨ ∃ c ∈ argument.2.toList, isBlank c = true) →
        (printed argument).toList.count '"' < cost argument.2.toList) := by
  by_cases hname : argument.1 = "-nodearg"
  · refine ⟨?_, fun hne => absurd hname hne⟩
    rw [printed, if_pos hname, quoteBlank]
    split
    · rename_i hblank
      have hcost := count_add_two_le_cost (.inr (List.any_eq_true.1 hblank))
      rw [toList_quoted, List.count_cons_self, List.count_append, List.count_singleton_self]
      omega
    · exact (cost_le _).1
  · rw [printed_of_ne hname]
    refine ⟨(cost_le _).1, fun _ hbroken => ?_⟩
    have hcost := count_add_two_le_cost (hbroken.imp (fun hempty => by rw [hempty]; rfl) id)
    omega

/-- An edit that was received, and whose line is read as an equal edit, says what stands under the flags there, at no higher cost. -/
theorem Received.cost_le_lookup (h : e.Received) (hanswers : e'.Answers args) (hsame : e.same e' = true) {argument : String × String}
    (hmem : argument ∈ e.stated) : ∃ text, args.lookup argument.1 = some text ∧ cost argument.2.toList ≤ cost text.toList ∧
      (argument.1 ≠ "-nodearg" → text = argument.2) := by
  obtain ⟨hnames, hperm, hattributes⟩ := stated_of_same h.parted.keys hsame
  by_cases hname : argument.1 = "-nodearg"
  · obtain ⟨name, text⟩ := argument
    obtain rfl : name = "-nodearg" := hname
    obtain rfl := eq_text_of_mem_stated hmem
    obtain ⟨text, hlookup, hread⟩ := hanswers.attributes _ (hattributes hmem)
    exact ⟨text, hlookup, Attributes.cost_text_le hread hperm, fun hne => absurd rfl hne⟩
  · exact ⟨_, hanswers.names _ (hnames _ hmem hname) hname, Nat.le_refl _, fun _ => rfl⟩

/-- The quotes in the line of an edit are no more than those of what it states, in writing. -/
theorem Received.count_quote_line_le (h : e.Received) :
    e.line.toList.count '"' ≤ (e.stated.map fun argument => (printed argument).toList.count '"').sum := by
  have hweight : ((weightArgument e.weight).map fun argument => (printed argument).toList.count '"').sum = 0 := by
    rw [List.sum_eq_zero_iff]
    intro n hn
    obtain ⟨argument, hmem, rfl⟩ := List.mem_map.1 hn
    unfold weightArgument at hmem
    split at hmem
    · cases hmem
    · obtain rfl := List.mem_singleton.1 hmem
      exact List.count_eq_zero.2 fun hquote => ((isWord_weight h.canonical).2 _ hquote).2 rfl
  have hle := ((arguments_sublist e).map fun argument => (printed argument).toList.count '"').sum_le_sum fun _ _ => Nat.zero_le _
  rw [List.map_append, List.sum_append, hweight] at hle
  rw [count_quote_line h.roots, count_quote_texts fun _ => mem_flags]
  exact hle

/-- If the quotes of what is stated, in writing, are not fewer than its cost, no name is empty or holds a blank. -/
theorem names_of_cost_le (h : (e.stated.map fun argument => cost argument.2.toList).sum ≤
    (e.stated.map fun argument => (printed argument).toList.count '"').sum) :
    ∀ name ∈ e.names, IsRun name := by
  intro name hname
  obtain ⟨argument, hmem, rfl⟩ := List.mem_map.1 hname
  obtain ⟨hmem, hflag⟩ := List.mem_filter.1 hmem
  by_contra hbroken
  have hless := (count_printed argument).2 (by simpa using hflag) (by simpa [IsRun, or_iff_not_imp_left] using hbroken)
  have hlt := List.sum_lt_sum _ _ (fun argument _ => (count_printed argument).1) ⟨argument, hmem, hless⟩
  omega

/-- An edit that was received is legible if its line is read as an equal edit. -/
theorem Received.legible (h : e.Received) (hread : ofLine e.line = .ok e') (hsame : e.same e' = true) : e.Legible := by
  rcases ofLine_cases hread with ⟨names, rfl, -⟩ | ⟨word, rest, args, hfirst, hclosed, hargs, hanswers⟩
  · have heq : e = setRoots names := by
      cases e <;> exact of_decide_eq_true hsame
    exact absurd heq (h.roots names)
  have hkeys : (Pairs.keys e.stated).Nodup :=
    (((List.sublist_append_left ..).map _).trans (keys_stated_sublist e)).nodup (by decide)
  have hstated : (e.stated.map fun argument => cost argument.2.toList).sum ≤ total args :=
    sum_cost_le_total hkeys fun argument hmem =>
      (h.cost_le_lookup hanswers hsame hmem).imp fun text hfound => ⟨hfound.1, hfound.2.1⟩
  have htotal := total_le_count hargs
  have hrest := ((firstWord?_sublist hfirst).trans (trim_sublist _)).count_le '"'
  have hline := h.count_quote_line_le
  have hprinted := List.sum_le_sum fun argument (_ : argument ∈ e.stated) => (count_printed argument).1
  -- All that the line has in quotes is spent on what is stated, so that nothing is left for a name that needs more.
  have hnames := names_of_cost_le (hstated.trans (htotal.trans (hrest.trans hline)))
  have hstands := fun argument (hmem : argument ∈ e.arguments) => h.stands hnames hmem
  obtain ⟨htrim, htaken⟩ := line_taken_of_standing h.roots hstands
  rw [htrim] at hfirst hargs
  rw [hfirst] at htaken
  obtain ⟨rfl, rfl⟩ := Prod.mk.inj (Option.some.inj htaken)
  refine ⟨hnames, by rwa [count_quote_line h.roots], ?_⟩
  rw [words_eq h.roots]
  refine List.pairwise_cons.2 ⟨fun _ _ hopens => absurd hopens (Written.word (isWord_command e)).not_opens, ?_⟩
  have hempty : (Pairs.keys ([] : Arguments)).Nodup := List.nodup_nil
  rcases late_or_total (fun _ => mem_flags) hstands hempty hargs with
    hlate | ⟨argument, hmem, hopens, text, hlookup, hblank⟩ | hle
  · exact hlate
  · -- A value with a blank stands under the flag of what begins with a quote, which is a name.
    rcases List.mem_append.1 ((arguments_sublist e).subset hmem) with hmem | hmem
    · by_cases hname : argument.1 = "-nodearg"
      · rw [printed, if_pos hname, eq_of_mem_stated hmem hname] at hopens
        exact absurd hopens (not_opens_attributes _)
      · obtain ⟨_, hfound, -, heq⟩ := h.cost_le_lookup hanswers hsame hmem
        rw [hlookup, heq hname] at hfound
        obtain rfl := Option.some.inj hfound
        have hfilled := (hnames _ (mem_names hmem hname)).2 _ hblank
        exact absurd hfilled (by decide)
    · exact absurd hopens (written_weight h.canonical hmem).not_opens
  · have hnil : total [] = 0 := rfl
    rw [← count_quote_texts fun _ => mem_flags] at hle
    omega

/-! ## The round trip -/

/-- The line of an edit that was read is read as an equal edit exactly if the edit sets roots or is legible. -/
theorem ofLine_line_iff {text : String} (h : ofLine text = .ok e) (hn : e.weight ≠ .notANumber) :
    (∃ e', ofLine e.line = .ok e' ∧ e.same e' = true) ↔ (∃ names, e = setRoots names) ∨ e.Legible := by
  rcases ofLine_cases h with ⟨names, rfl, hne, hnames⟩ | ⟨word, rest, args, -, -, hargs, hanswers⟩
  · exact ⟨fun _ => .inl ⟨names, rfl⟩, fun _ => ⟨_, ofLine_setRoots hne hnames, by simp [same]⟩⟩
  have hreceived := hanswers.received hargs
  constructor
  · rintro ⟨e', hread, hsame⟩
    exact .inr (hreceived.legible hread hsame)
  · rintro (⟨names, rfl⟩ | hlegible)
    · exact absurd rfl (hreceived.roots names)
    · exact ⟨e, hreceived.ofLine_eq_ok hlegible hn, hreceived.same_self hn⟩

/-- A relation that is given twice, in quotes the second time, beside a name with quotes inside: the line of the edit is read again. -/
theorem ofLine_line_iff_quoted :
    ofLine "AddEdge -reln x -gov a -dep b\"c\" -reln \"y\"" = .ok (addEdge "a" "b\"c\"" "y" .one false) ∧
      (addEdge "a" "b\"c\"" "y" .one false).weight ≠ .notANumber ∧
        ∃ e, ofLine (addEdge "a" "b\"c\"" "y" .one false).line = .ok e ∧ (addEdge "a" "b\"c\"" "y" .one false).same e = true := by
  have hread : ofLine "AddEdge -reln x -gov a -dep b\"c\" -reln \"y\"" = .ok (addEdge "a" "b\"c\"" "y" .one false) := by
    decide +kernel
  exact ⟨hread, by decide, (ofLine_line_iff hread (by decide)).2 (.inr ⟨by decide, by decide, by decide⟩)⟩

/-- A relation that holds a blank is read from quotes and written without them: the line of the edit is refused. -/
theorem spaced_relation_is_refused :
    ofLine "addEdge -gov a -dep b -reln \"x y\"" = .ok (addEdge "a" "b" "x y" .one false) ∧
      ofLine (addEdge "a" "b" "x y" .one false).line = .error (.flagUnknown "y" "addEdge -gov a -dep b -reln x y") := by
  decide +kernel

end Treebank.Edit

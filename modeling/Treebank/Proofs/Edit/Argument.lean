import Treebank.Edit.Printer
import Treebank.Edit.Reader
import Treebank.Proofs.Pairs
import Treebank.Proofs.Text.Words

/-!
# Arguments in writing

The arguments of a command come out again when its line is cut, whether they stand as they are or in quotes
(`splitArguments_standing`), and flags with their values are read as they were written (`readFlags_arguments`). Attributes in braces
are read as they were written, blanks inside of them included (`Attributes.ofText_braces`).
-/

namespace Treebank.Edit

open Text

variable {text arg : String} {texts args : List String} {arguments read : Arguments}

/-- Whether a text is one word: it is not empty and holds neither a blank nor a quote. -/
def IsWord (s : String) : Prop := s ≠ "" ∧ ∀ c ∈ s.toList, isBlank c = false ∧ c ≠ '"'

instance (s : String) : Decidable (IsWord s) :=
  haveI := List.decidableBAll (fun c => isBlank c = false ∧ c ≠ '"') s.toList
  inferInstanceAs (Decidable (_ ∧ _))

/-- Whether a text is one run: it is not empty and holds no blank. -/
def IsRun (s : String) : Prop := s ≠ "" ∧ ∀ c ∈ s.toList, isBlank c = false

instance (s : String) : Decidable (IsRun s) :=
  haveI := List.decidableBAll (fun c => isBlank c = false) s.toList
  inferInstanceAs (Decidable (_ ∧ _))

/-- A word is one run. -/
theorem IsWord.isRun {s : String} (h : IsWord s) : IsRun s := ⟨h.1, fun c hc => (h.2 c hc).1⟩

/-- A run is not empty, and neither begins nor ends with a blank. -/
theorem IsRun.isTrimmed {s : String} (h : IsRun s) : s.toList ≠ [] ∧ IsTrimmed s.toList :=
  ⟨by simpa using h.1, fun c hc => h.2 c (List.mem_of_head? hc), fun c hc => h.2 c (List.mem_of_getLast? hc)⟩

/-- How an argument stands in a line: as it is, or in quotes. -/
inductive Written : String → String → Prop where
  | word {s : String} : IsWord s → Written s s
  | quoted {s : String} : '"' ∉ s.toList → Written ("\"" ++ s ++ "\"") s

/-- Whether a text begins with its only quote, so that it is cut off as a run only if no quote follows it. -/
def Opens (s : String) : Prop := s.toList.head? = some '"' ∧ s.toList.count '"' = 1

instance : DecidablePred Opens := fun _ => inferInstanceAs (Decidable (_ ∧ _))

/-- How an argument may stand in a line: as it is, then with quotes inside or with one in front, or in quotes. -/
inductive Stands : String → String → Prop where
  | run {s : String} : IsRun s → (s.toList.head? = some '"' → s.toList.count '"' = 1) → Stands s s
  | quoted {s : String} : '"' ∉ s.toList → Stands ("\"" ++ s ++ "\"") s

/-! ## Cutting -/

/-- A blank between arguments is passed over. -/
theorem cutArguments_blank {c : Char} (h : isBlank c = true) (rest : List Char) : cutArguments (c :: rest) = cutArguments rest := by
  rw [cutArguments, if_pos h]
  rintro rfl
  exact absurd h (by decide)

/-- An argument without blanks ends at a blank, if it does not begin with a quote that is closed further on. -/
theorem cutArguments_run {run rest : List Char} (hne : run ≠ []) (h : ∀ c ∈ run, isBlank c = false)
    (hopen : run.head? = some '"' → '"' ∉ run.tail ++ rest) (hrest : ∀ c ∈ rest.head?, isBlank c = true) :
    cutArguments (run ++ rest) = run :: cutArguments rest := by
  obtain ⟨c, run, rfl⟩ := List.exists_cons_of_ne_nil hne
  obtain ⟨hc, hrun⟩ := List.forall_mem_cons.1 h
  have hfilled : ∀ d ∈ run, (!isBlank d) = true := fun d hd => by rw [hrun d hd]; rfl
  have hend : ∀ d ∈ rest.head?, (!isBlank d) = false := fun d hd => by rw [hrest d hd]; rfl
  rw [List.cons_append]
  by_cases hquote : c = '"'
  · subst hquote
    have hopened := splitFirst?_eq_none_iff.2 (hopen rfl)
    rw [List.tail_cons] at hopened
    rw [cutArguments]
    split
    · rename_i heq
      rw [hopened] at heq
      cases heq
    · rw [takeWhile_append_of_head hfilled hend, dropWhile_append_of_head hfilled hend]
  · rw [cutArguments, if_neg (by simp [hc]), takeWhile_append_of_head hfilled hend, dropWhile_append_of_head hfilled hend]
    exact hquote

/-- An argument in quotes ends at the second one. -/
theorem cutArguments_quoted {quoted : List Char} (h : '"' ∉ quoted) (rest : List Char) :
    cutArguments ('"' :: (quoted ++ '"' :: rest)) = quoted :: cutArguments rest := by
  have hsplit := splitFirst?_append h rest
  rw [cutArguments]
  split
  · rename_i quoted' after heq
    rw [hsplit] at heq
    cases heq
    rfl
  · rename_i heq
    rw [hsplit] at heq
    cases heq

/-- A text in quotes, as characters. -/
theorem toList_quoted (s : String) : ("\"" ++ s ++ "\"").toList = '"' :: (s.toList ++ ['"']) := by simp

namespace Stands

/-- An argument is cut off, if no quote follows one that begins with its only quote. -/
theorem cut (h : Stands text arg) {rest : List Char} (hlate : Opens text → '"' ∉ rest) (hrest : ∀ c ∈ rest.head?, isBlank c = true) :
    cutArguments (text.toList ++ rest) = arg.toList :: cutArguments rest := by
  cases h with
  | run hrun hquote =>
    refine cutArguments_run hrun.isTrimmed.1 hrun.2 (fun hhead hmem => ?_) hrest
    rcases List.mem_append.1 hmem with hmem | hmem
    · have hone := hquote hhead
      obtain ⟨cs, hcs⟩ := List.head?_eq_some_iff.1 hhead
      rw [hcs, List.count_cons_self, Nat.add_eq_right, List.count_eq_zero] at hone
      rw [hcs] at hmem
      exact hone hmem
    · exact hlate ⟨hhead, hquote hhead⟩ hmem
  | quoted hquote =>
    rw [toList_quoted, List.cons_append, List.append_assoc, List.singleton_append, cutArguments_quoted hquote]

/-- An argument in a line is not empty, and neither begins nor ends with a blank. -/
theorem isTrimmed (h : Stands text arg) : text.toList ≠ [] ∧ IsTrimmed text.toList := by
  cases h with
  | run hrun _ => exact hrun.isTrimmed
  | quoted _ =>
    rw [toList_quoted]
    exact ⟨List.cons_ne_nil _ _, isTrimmed_enclosed (by decide) (by decide) arg.toList⟩

end Stands

namespace Written

/-- A written argument stands in a line. -/
theorem stands (h : Written text arg) : Stands text arg := by
  cases h with
  | word hword =>
    refine .run hword.isRun fun hhead => ?_
    exact absurd rfl (hword.2 _ (List.mem_of_head? hhead)).2
  | quoted hquote => exact .quoted hquote

/-- A written argument holds no quotes, or two. -/
theorem count_quote (h : Written text arg) : text.toList.count '"' % 2 = 0 := by
  cases h with
  | word hword => rw [List.count_eq_zero_of_not_mem fun hmem => (hword.2 _ hmem).2 rfl]
  | quoted hquote => simp [List.count_eq_zero_of_not_mem hquote]

/-- A written argument does not begin with its only quote. -/
theorem not_opens (h : Written text arg) : ¬ Opens text := fun hopens => by
  have hcount := h.count_quote
  rw [hopens.2] at hcount
  exact absurd hcount (by decide)

end Written

/-- The first argument of a line is cut off, if no quote follows one that begins with its only quote. -/
theorem Stands.cut_first (h : Stands text arg) (hlate : Opens text → '"' ∉ [' '].intercalate (texts.map String.toList)) :
    cutArguments ([' '].intercalate ((text :: texts).map String.toList)) =
      arg.toList :: cutArguments ([' '].intercalate (texts.map String.toList)) := by
  have hspace : isBlank ' ' = true := by decide
  rw [List.map_cons, intercalate_cons]
  split
  · rename_i hnil
    rw [h.cut (by simp) (by simp), hnil]
    rfl
  · rw [h.cut (fun hopens => by simpa using hlate hopens) (by rintro c ⟨⟩; exact hspace), cutArguments_blank hspace]

/-- The arguments of a line come out again, if no quote follows one that begins with its only quote. -/
theorem cutArguments_standing (h : List.Forall₂ Stands texts args) (hlate : texts.Pairwise fun s t => Opens s → '"' ∉ t.toList) :
    cutArguments ([' '].intercalate (texts.map String.toList)) = args.map String.toList := by
  induction h with
  | nil =>
    rw [List.map_nil, List.intercalate_nil, cutArguments]
  | @cons text arg texts args htext _ ih =>
    obtain ⟨hfirst, hrest⟩ := List.pairwise_cons.1 hlate
    have hnone : Opens text → '"' ∉ [' '].intercalate (texts.map String.toList) := by
      intro hopens
      rw [notMem_intercalate_iff (by decide), List.forall_mem_map]
      exact fun t ht => hfirst t ht hopens
    rw [htext.cut_first hnone, ih hrest, List.map_cons]

/-- The arguments of a line in which every quote is closed. -/
theorem splitArguments_standing (h : List.Forall₂ Stands texts args) (hlate : texts.Pairwise fun s t => Opens s → '"' ∉ t.toList)
    (hclosed : ([' '].intercalate (texts.map String.toList)).count '"' % 2 = 0) :
    splitArguments (String.ofList ([' '].intercalate (texts.map String.toList))) = .ok args := by
  unfold splitArguments
  rw [String.toList_ofList, if_neg (by omega), cutArguments_standing h hlate, List.map_map]
  simp [Function.comp_def]

/-! ## Flags -/

/-- Every flag is a word. -/
theorem isWord_of_mem_flags {name : String} (h : name ∈ flags) : IsWord name := by
  revert name
  decide

/-- Flags of which no two have one name are read with their values. -/
theorem readFlags_arguments (line : String) (h : ∀ name ∈ Pairs.keys arguments, name ∈ flags)
    (hkeys : (Pairs.keys (read ++ arguments)).Nodup) :
    readFlags line read (arguments.flatMap fun argument => [argument.1, argument.2]) = .ok (read ++ arguments) := by
  induction arguments generalizing read with
  | nil => rw [List.append_nil, List.flatMap_nil, readFlags]
  | cons argument arguments ih =>
    obtain ⟨hname, hnames⟩ := List.forall_mem_cons.1 h
    have hput := Pairs.put_of_nodup hkeys
    rw [List.append_cons] at hkeys
    rw [List.flatMap_cons, List.cons_append, List.cons_append, List.nil_append, readFlags,
      if_pos (List.contains_iff_mem.2 hname), hput, ih hnames hkeys, ← List.append_cons]

/-! ## Attributes -/

namespace Attributes

/-- Whether a text holds none of some marks. -/
def Lacks (marks cs : List Char) : Prop := ∀ c ∈ cs, c ∉ marks

instance (marks cs : List Char) : Decidable (Lacks marks cs) := List.decidableBAll (· ∉ marks) cs

/-- Whether attributes can be written: their names and values neither begin nor end with a blank and hold no marks that part them. -/
structure Plain (attributes : Attributes) : Prop where
  keys : (Pairs.keys attributes).Nodup
  names : ∀ entry ∈ attributes, IsTrimmed entry.1.toList ∧ Lacks [':', ';', '"'] entry.1.toList
  values : ∀ entry ∈ attributes, IsTrimmed entry.2.toList ∧ Lacks [';', '"'] entry.2.toList

instance : DecidablePred Plain := fun attributes =>
  decidable_of_iff ((Pairs.keys attributes).Nodup ∧
      (∀ entry ∈ attributes, IsTrimmed entry.1.toList ∧ Lacks [':', ';', '"'] entry.1.toList) ∧
      ∀ entry ∈ attributes, IsTrimmed entry.2.toList ∧ Lacks [';', '"'] entry.2.toList)
    ⟨fun h => ⟨h.1, h.2.1, h.2.2⟩, fun h => ⟨h.keys, h.names, h.values⟩⟩

/-- Whether attributes come apart in writing: as those that can be written, but that they may hold quotes. -/
structure Parted (attributes : Attributes) : Prop where
  keys : (Pairs.keys attributes).Nodup
  names : ∀ entry ∈ attributes, IsTrimmed entry.1.toList ∧ Lacks [':', ';'] entry.1.toList
  values : ∀ entry ∈ attributes, IsTrimmed entry.2.toList ∧ Lacks [';'] entry.2.toList

variable {attributes : Attributes}

/-- One attribute in writing. -/
def entryText (entry : String × String) : List Char := entry.1.toList ++ ':' :: entry.2.toList

/-- The characters of attributes in braces. -/
theorem toList_text (attributes : Attributes) :
    attributes.text.toList = '\x7b' :: ([';'].intercalate (attributes.map entryText) ++ ['\x7d']) := by
  rw [text, String.toList_append, String.toList_append, String.toList_intercalate, List.map_map]
  refine congrArg (fun entries => '\x7b' :: ([';'].intercalate entries ++ ['\x7d'])) (List.map_congr_left fun entry _ => ?_)
  simp [entryText]

/-- No attributes come apart. -/
theorem parted_nil : Parted [] where
  keys := List.nodup_nil
  names _ hentry := absurd hentry List.not_mem_nil
  values _ hentry := absurd hentry List.not_mem_nil

namespace Parted

/-- An attribute in writing neither begins nor ends with a blank. -/
theorem isTrimmed (h : Parted attributes) {entry : String × String} (hentry : entry ∈ attributes) : IsTrimmed (entryText entry) := by
  have hcolon : isBlank ':' = false := by decide
  obtain ⟨⟨hname, -⟩, -⟩ := h.names entry hentry
  obtain ⟨⟨-, hvalue⟩, -⟩ := h.values entry hentry
  refine ⟨fun c hc => ?_, fun c hc => ?_⟩
  · rw [entryText, List.head?_append] at hc
    cases hhead : entry.1.toList.head? with
    | none =>
      rw [hhead] at hc
      cases hc
      exact hcolon
    | some d =>
      rw [hhead] at hc
      cases hc
      exact hname c hhead
  · rw [entryText, List.getLast?_append_of_ne_nil _ (List.cons_ne_nil _ _), List.getLast?_cons] at hc
    cases hlast : entry.2.toList.getLast? with
    | none =>
      rw [hlast] at hc
      cases hc
      exact hcolon
    | some d =>
      rw [hlast] at hc
      cases hc
      exact hvalue _ hlast

/-- An attribute in writing does not hold the mark that parts attributes. -/
theorem notMem (h : Parted attributes) {entry : String × String} (hentry : entry ∈ attributes) : ';' ∉ entryText entry := by
  intro hmem
  rcases List.mem_append.1 hmem with hmem | hmem
  · exact (h.names entry hentry).2 _ hmem (by simp)
  · rcases List.mem_cons.1 hmem with hmem | hmem
    · exact absurd hmem (by decide)
    · exact (h.values entry hentry).2 _ hmem (by simp)

end Parted

namespace Plain

/-- Attributes that can be written come apart. -/
theorem parted (h : Plain attributes) : Parted attributes where
  keys := h.keys
  names entry hentry := ⟨(h.names entry hentry).1, fun c hc hmem => (h.names entry hentry).2 c hc (by simp at hmem ⊢; tauto)⟩
  values entry hentry := ⟨(h.values entry hentry).1, fun c hc hmem => (h.values entry hentry).2 c hc (by simp at hmem ⊢; tauto)⟩

/-- Attributes in writing hold no quote. -/
theorem notMem_text (h : Plain attributes) : '"' ∉ attributes.text.toList := by
  have hentries : ∀ entry ∈ attributes, '"' ∉ entryText entry := by
    intro entry hentry hmem
    rcases List.mem_append.1 hmem with hmem | hmem
    · exact (h.names entry hentry).2 _ hmem (by simp)
    · rcases List.mem_cons.1 hmem with hmem | hmem
      · exact absurd hmem (by decide)
      · exact (h.values entry hentry).2 _ hmem (by simp)
  have hpieces : '"' ∉ [';'].intercalate (attributes.map entryText) := by
    rwa [notMem_intercalate_iff (by decide), List.forall_mem_map]
  rw [toList_text]
  simpa using hpieces

end Plain

/-- Entries are read one after the other. -/
theorem readEntries_eq (whole : String) {entries before : Attributes} (h : Parted entries)
    (hkeys : (Pairs.keys (before ++ entries)).Nodup) :
    readEntries whole before (entries.map entryText) = .ok (before ++ entries) := by
  induction entries generalizing before with
  | nil => rw [List.map_nil, readEntries, List.append_nil]
  | cons entry entries ih =>
    obtain ⟨hname, hcolon⟩ := h.names entry (List.mem_cons_self ..)
    obtain ⟨hvalue, -⟩ := h.values entry (List.mem_cons_self ..)
    have hrest : Parted entries :=
      ⟨(List.nodup_cons.1 h.keys).2, fun e he => h.names e (List.mem_cons_of_mem _ he), fun e he => h.values e (List.mem_cons_of_mem _ he)⟩
    have hsplit : splitFirst? ':' (entryText entry) = some (entry.1.toList, entry.2.toList) :=
      splitFirst?_append (fun hmem => hcolon ':' hmem (by simp)) _
    have hput := Pairs.put_of_nodup hkeys
    rw [List.append_cons] at hkeys
    simp only [List.map_cons, readEntries, hsplit, trim_eq_self hname, trim_eq_self hvalue, String.ofList_toList, hput]
    rw [ih hrest hkeys, ← List.append_cons]

/-- Attributes in braces are read as they were written. -/
theorem ofText_braces (h : Parted attributes) : ofText attributes.text = .ok attributes := by
  have htrimmed : IsTrimmed attributes.text.toList := by
    rw [toList_text]
    exact isTrimmed_enclosed (by decide) (by decide) _
  have hbody : trim (attributes.text.toList.tail.dropLast) = [';'].intercalate (attributes.map entryText) := by
    have hpieces : IsTrimmed ([';'].intercalate (attributes.map entryText)) := by
      refine isTrimmed_intercalate (fun piece hpiece => ?_) fun piece hpiece => ?_
      · obtain ⟨entry, -, rfl⟩ := List.mem_map.1 hpiece
        simp [entryText]
      · obtain ⟨entry, hentry, rfl⟩ := List.mem_map.1 hpiece
        exact h.isTrimmed hentry
    rw [toList_text, List.tail_cons, List.dropLast_concat, trim_eq_self hpieces]
  have hbraces : (attributes.text.toList.head? == some '\x7b' && attributes.text.toList.getLast? == some '\x7d') = true := by
    rw [toList_text, ← List.cons_append, List.getLast?_concat]
    rfl
  unfold ofText
  simp only [trim_eq_self htrimmed, hbraces, if_true, hbody]
  cases attributes with
  | nil => rfl
  | cons entry entries =>
    have hfilled : ([';'].intercalate ((entry :: entries).map entryText)).isEmpty = false := by
      rw [List.map_cons, intercalate_cons, entryText]
      simp
    have hsplit : splitOn ';' ([';'].intercalate ((entry :: entries).map entryText)) = (entry :: entries).map entryText := by
      refine splitOn_intercalate (by simp) fun piece hpiece => ?_
      obtain ⟨e, he, rfl⟩ := List.mem_map.1 hpiece
      exact h.notMem he
    rw [hfilled, hsplit, if_neg Bool.false_ne_true]
    exact readEntries_eq _ h h.keys

/-- Attributes are written in quotes if they hold a blank. -/
theorem written_quoteBlank (h : Plain attributes) : Written (quoteBlank attributes.text) attributes.text := by
  unfold quoteBlank
  split
  · exact .quoted h.notMem_text
  · rename_i hblank
    refine .word ⟨?_, fun c hc => ⟨?_, ?_⟩⟩
    · rw [← String.toList_inj.ne, toList_text]
      exact List.cons_ne_nil _ _
    · simp only [Bool.not_eq_true, List.any_eq_false] at hblank
      simpa using hblank c hc
    · rintro rfl
      exact h.notMem_text hc

end Attributes

end Treebank.Edit

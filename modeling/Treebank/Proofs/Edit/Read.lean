import Treebank.Proofs.Decimal.Canonical
import Treebank.Proofs.Edit.Line

/-!
# What is read of a line

An edit that is read says what stands under the flags of its line (`ofLine_cases`), of two flags of one name the last. So it holds what
the arguments of a line can hold (`Answers.received`): a name may begin with a quote, but then holds no other, and attributes that hold
a blank stood in quotes, and hold none.
-/

namespace Treebank.Edit

open Text

/-! ## Arguments -/

/-- An argument that holds a blank holds no quote, and one that begins with a quote holds no other. -/
theorem of_mem_cutArguments {cs arg : List Char} (h : arg ∈ cutArguments cs) :
    ((∃ c ∈ arg, isBlank c = true) → '"' ∉ arg) ∧ (arg.head? = some '"' → arg.count '"' = 1) := by
  have hrun : ∀ {run : List Char}, (∀ c ∈ run, (!isBlank c) = true) → (run.head? = some '"' → run.count '"' = 1) →
      ((∃ c ∈ run, isBlank c = true) → '"' ∉ run) ∧ (run.head? = some '"' → run.count '"' = 1) := by
    rintro run hfilled hone
    refine ⟨?_, hone⟩
    rintro ⟨c, hc, hblank⟩
    have := hfilled c hc
    rw [hblank] at this
    cases this
  have htaken : ∀ {rest : List Char} {c : Char}, c ∈ rest.takeWhile (!isBlank ·) → (!isBlank c) = true := by
    intro rest c hc
    exact List.mem_takeWhile_imp (p := (!isBlank ·)) hc
  fun_induction cutArguments cs with
  | case1 => cases h
  | case2 rest quoted after hsplit hlength ih =>
    rcases List.mem_cons.1 h with rfl | h
    · have hnone := (of_splitFirst?_eq_some hsplit).2
      exact ⟨fun _ => hnone, fun hhead => absurd (List.mem_of_head? hhead) hnone⟩
    · exact ih h
  | case3 rest hsplit ih =>
    rcases List.mem_cons.1 h with rfl | h
    · refine hrun (List.forall_mem_cons.2 ⟨by decide, fun c hc => htaken hc⟩) fun _ => ?_
      have hnone : '"' ∉ rest.takeWhile (!isBlank ·) := fun hmem =>
        splitFirst?_eq_none_iff.1 hsplit ((List.takeWhile_sublist _).subset hmem)
      rw [List.count_cons_self, List.count_eq_zero.2 hnone]
    · exact ih h
  | case4 c rest hquote hblank ih => exact ih h
  | case5 c rest hquote hblank ih =>
    rcases List.mem_cons.1 h with rfl | h
    · refine hrun (List.forall_mem_cons.2 ⟨by simpa using hblank, fun c hc => htaken hc⟩) fun hhead => ?_
      exact absurd (Option.some.inj hhead) hquote
    · exact ih h

/-! ## Attributes -/

namespace Attributes

variable {attributes before : Attributes}

/-- The marks of attributes in writing. -/
def marks : List Char := ['\x7b', '\x7d', ':', ';']

/-- No mark is a blank. -/
theorem notMem_marks {c : Char} (h : isBlank c = true) : c ∉ marks := by
  intro hc
  simp only [marks, List.mem_cons, List.not_mem_nil, or_false] at hc
  rcases hc with rfl | rfl | rfl | rfl <;> exact absurd h (by decide)

/-- Attributes in writing hold what they hold one by one, but for the marks. -/
theorem count_text {c : Char} (hc : c ∉ marks) (attributes : Attributes) :
    attributes.text.toList.count c = (attributes.map fun entry => (entryText entry).count c).sum := by
  simp only [marks, List.mem_cons, List.not_mem_nil, or_false, not_or] at hc
  obtain ⟨hopen, hclose, -, hpart⟩ := hc
  rw [toList_text, List.count_cons_of_ne (Ne.symm hopen), List.count_append, List.count_cons_of_ne (Ne.symm hclose), List.count_nil,
    Nat.add_zero, count_intercalate hpart, List.map_map]
  rfl

/-- Attributes come apart after one more was set that does. -/
theorem Parted.put (h : Parted before) {name value : List Char} (hname : IsTrimmed name ∧ Lacks [':', ';'] name)
    (hvalue : IsTrimmed value ∧ Lacks [';'] value) : Parted (Pairs.put before (String.ofList name) (String.ofList value)) := by
  refine ⟨Pairs.nodup_keys_put h.keys _ _, fun entry hentry => ?_, fun entry hentry => ?_⟩
  · rcases Pairs.mem_of_mem_put hentry with rfl | hentry
    · rwa [String.toList_ofList]
    · exact h.names entry hentry
  · rcases Pairs.mem_of_mem_put hentry with rfl | hentry
    · rwa [String.toList_ofList]
    · exact h.values entry hentry

/-- Entries that hold no mark that parts them are read as attributes that come apart. -/
theorem parted_of_readEntries {whole : String} {entries : List (List Char)} (h : readEntries whole before entries = .ok attributes)
    (hbefore : Parted before) (hentries : ∀ entry ∈ entries, ';' ∉ entry) : Parted attributes := by
  have hlacks : ∀ {marks cs : List Char}, (∀ c ∈ marks, c ∉ cs) → Lacks marks (trim cs) := by
    intro marks cs hcs c hc hmark
    exact hcs c hmark (trim_subset _ hc)
  induction entries generalizing before with
  | nil =>
    cases h
    exact hbefore
  | cons entry entries ih =>
    obtain ⟨hentry, hrest⟩ := List.forall_mem_cons.1 hentries
    rw [readEntries] at h
    cases hsplit : splitFirst? ':' entry with
    | none =>
      rw [hsplit] at h
      cases h
    | some parts =>
      obtain ⟨name, value⟩ := parts
      rw [hsplit] at h
      obtain ⟨rfl, hcolon⟩ := of_splitFirst?_eq_some hsplit
      rw [List.mem_append, List.mem_cons, not_or, not_or] at hentry
      refine ih h (hbefore.put ⟨isTrimmed_trim name, hlacks ?_⟩ ⟨isTrimmed_trim value, hlacks ?_⟩) hrest
      · simpa using ⟨hcolon, hentry.1⟩
      · simpa using hentry.2.2

/-- Attributes that are read hold no more than the entries, but for the marks. -/
theorem sum_count_readEntries {whole : String} {entries : List (List Char)} (h : readEntries whole before entries = .ok attributes)
    (hbefore : (Pairs.keys before).Nodup) {c : Char} (hc : c ≠ ':') :
    (attributes.map fun entry => (entryText entry).count c).sum ≤
      (before.map fun entry => (entryText entry).count c).sum + (entries.map (List.count c)).sum := by
  induction entries generalizing before with
  | nil =>
    cases h
    simp
  | cons entry entries ih =>
    rw [readEntries] at h
    cases hsplit : splitFirst? ':' entry with
    | none =>
      rw [hsplit] at h
      cases h
    | some parts =>
      obtain ⟨name, value⟩ := parts
      rw [hsplit] at h
      obtain ⟨rfl, -⟩ := of_splitFirst?_eq_some hsplit
      have hrest := ih h (Pairs.nodup_keys_put hbefore _ _)
      have hput := Pairs.sum_put_le (fun entry : String × String => (entryText entry).count c) hbefore
        (String.ofList (trim name)) (String.ofList (trim value))
      have hname := (trim_sublist name).count_le c
      have hvalue := (trim_sublist value).count_le c
      simp only [entryText, String.toList_ofList, List.count_append, List.count_cons_of_ne (Ne.symm hc)] at hput hrest ⊢
      rw [List.map_cons, List.sum_cons, List.count_append, List.count_cons_of_ne (Ne.symm hc)]
      omega

/-- What is read as attributes comes apart in writing, and holds no more than the text, but for the marks. -/
theorem of_ofText {text : String} (h : ofText text = .ok attributes) :
    attributes.Parted ∧ ∀ c ∉ marks, attributes.text.toList.count c ≤ text.toList.count c := by
  unfold ofText at h
  dsimp only at h
  split at h
  · split at h
    · cases h
      refine ⟨parted_nil, fun c hc => ?_⟩
      rw [count_text hc]
      exact Nat.zero_le _
    · refine ⟨parted_of_readEntries h parted_nil fun entry hentry => (of_mem_splitOn hentry).1, fun c hc => ?_⟩
      have hmarks : c ≠ ':' ∧ c ≠ ';' := by
        constructor <;> rintro rfl <;> exact hc (by decide)
      have hsum := sum_count_readEntries h List.nodup_nil hmarks.1
      rw [sum_count_splitOn hmarks.2] at hsum
      have hbody := (((trim_sublist _).trans (List.dropLast_sublist _)).trans
        ((List.tail_sublist _).trans (trim_sublist text.toList))).count_le c
      rw [count_text hc]
      simp only [List.map_nil, List.sum_nil] at hsum
      omega
  · cases h

end Attributes

/-! ## Commands -/

/-- The attributes that are stated are those of the edit. -/
theorem eq_text_of_mem_stated {e : Edit} {text : String} (h : ("-nodearg", text) ∈ e.stated) : text = e.attributes.text := by
  cases e with
  | addDependent governor relation attributes name weight => simpa [stated, Edit.attributes] using h
  | addNode attributes name => simpa [stated, Edit.attributes] using h
  | _ => simp [stated] at h

/-- Whether an edit says what stands under the flags of a command, and nothing that a command cannot say. -/
structure Answers (e : Edit) (args : Arguments) : Prop where
  roots : ∀ names, e ≠ setRoots names
  names : ∀ argument ∈ e.stated, argument.1 ≠ "-nodearg" → args.lookup argument.1 = some argument.2
  attributes : ∀ text, ("-nodearg", text) ∈ e.stated →
    ∃ text, args.lookup "-nodearg" = some text ∧ Attributes.ofText text = .ok e.attributes
  canonical : e.weight.Canonical
  extra : e.isExtra = false

/-- A value that a command needs stands among its arguments. -/
theorem lookup_of_require {c : Command} {flag : String} {value : { value : String // (given? (some value)).isSome = true }}
    (h : c.require flag = .ok value) : c.args.lookup flag = some value.1 := by
  unfold Command.require at h
  split at h
  · rename_i hlookup
    split at h
    · cases h
      exact hlookup
    · cases h
  · cases h

/-- The edit of a command says what stands under the flags of the command. -/
theorem answers_of_edit {c : Command} {word : String} {e : Edit} (h : c.edit word = .ok e) (hc : c.weight.Canonical) :
    e.Answers c.args := by
  have hone : Binary64.one.Canonical := by decide
  have hoption : ∀ {name : String}, ∀ argument ∈ (c.args.lookup name).toList.map (name, ·),
      argument.1 ≠ "-nodearg" → c.args.lookup argument.1 = some argument.2 := by
    intro name argument hmem _
    obtain ⟨text, htext, rfl⟩ := List.mem_map.1 hmem
    exact Option.mem_toList.1 htext
  unfold Command.edit at h
  split at h
  · obtain ⟨governor, hgovernor, h⟩ := bind_eq_ok_iff.1 h
    obtain ⟨relation, hrelation, h⟩ := bind_eq_ok_iff.1 h
    obtain ⟨text, htext, h⟩ := bind_eq_ok_iff.1 h
    obtain ⟨attributes, hattributes, h⟩ := bind_eq_ok_iff.1 h
    cases h
    exact ⟨by simp, by simp [stated, lookup_of_require hgovernor, lookup_of_require hrelation],
      fun _ _ => ⟨_, lookup_of_require htext, hattributes⟩, hc, rfl⟩
  · obtain ⟨text, htext, h⟩ := bind_eq_ok_iff.1 h
    obtain ⟨attributes, hattributes, h⟩ := bind_eq_ok_iff.1 h
    cases h
    exact ⟨by simp, by simp [stated], fun _ _ => ⟨_, lookup_of_require htext, hattributes⟩, hone, rfl⟩
  · obtain ⟨governor, hgovernor, h⟩ := bind_eq_ok_iff.1 h
    obtain ⟨dependent, hdependent, h⟩ := bind_eq_ok_iff.1 h
    obtain ⟨relation, hrelation, h⟩ := bind_eq_ok_iff.1 h
    cases h
    exact ⟨by simp, by simp [stated, lookup_of_require hgovernor, lookup_of_require hdependent, lookup_of_require hrelation],
      by simp [stated], hc, rfl⟩
  · obtain ⟨node, hnode, h⟩ := bind_eq_ok_iff.1 h
    cases h
    exact ⟨by simp, by simp [stated, lookup_of_require hnode], by simp [stated], hone, rfl⟩
  · obtain ⟨governor, hgovernor, h⟩ := bind_eq_ok_iff.1 h
    obtain ⟨dependent, hdependent, h⟩ := bind_eq_ok_iff.1 h
    cases h
    exact ⟨by simp, by simp [stated, lookup_of_require hgovernor, lookup_of_require hdependent], by simp [stated], hone, rfl⟩
  · obtain ⟨edge, hedge, h⟩ := bind_eq_ok_iff.1 h
    cases h
    refine ⟨by simp, ?_, by simp [stated], hone, rfl⟩
    simp only [stated, List.forall_mem_append]
    exact ⟨⟨⟨by simp [lookup_of_require hedge], hoption⟩, hoption⟩, hoption⟩
  · cases h
    exact ⟨by simp, by simp [stated], by simp [stated], hone, rfl⟩
  · obtain ⟨node, hnode, h⟩ := bind_eq_ok_iff.1 h
    cases h
    exact ⟨by simp, by simp [stated, lookup_of_require hnode], by simp [stated], hone, rfl⟩
  · cases h

/-! ## Lines -/

/-- A value among the arguments that are read was read before, or is one of the arguments of the line. -/
theorem mem_of_readFlags {line : String} {read args : Arguments} {tokens : List String} (h : readFlags line read tokens = .ok args)
    {argument : String × String} (hmem : argument ∈ args) : argument ∈ read ∨ argument.2 ∈ tokens := by
  fun_induction readFlags line read tokens with
  | case1 read =>
    cases h
    exact .inl hmem
  | case2 read flag => cases h
  | case3 read flag value rest hflag ih =>
    rcases ih h with hput | hrest
    · rcases Pairs.mem_of_mem_put hput with rfl | hread
      · exact .inr (by simp)
      · exact .inl hread
    · exact .inr (List.mem_cons_of_mem _ (List.mem_cons_of_mem _ hrest))
  | case4 read flag value rest hflag => cases h

/-- The weight of a line is a value of the format. -/
theorem canonical_of_weightOf {line : String} {args : Arguments} {w : Binary64} (h : weightOf line args = .ok w) : w.Canonical := by
  unfold weightOf at h
  split at h
  · cases h
    exact (by decide : Binary64.one.Canonical)
  · split at h
    · rename_i hfloat
      cases h
      exact Binary64.canonical_float? hfloat
    · cases h

/-- A line that is read sets roots, or says what stands under the flags behind its first word. -/
theorem ofLine_cases {text : String} {e : Edit} (h : ofLine text = .ok e) :
    (∃ names, e = setRoots names ∧ names ≠ [] ∧ ∀ name ∈ names, IsRun name) ∨
      ∃ word rest args, firstWord? (trim text.toList) = some (word, rest) ∧ rest.count '"' % 2 = 0 ∧
        readFlags (String.ofList (trim text.toList)) [] ((cutArguments rest).map String.ofList) = .ok args ∧ e.Answers args := by
  unfold ofLine at h
  dsimp only at h
  split at h
  · cases h
  · rename_i word rest hfirst
    split at h
    · split at h
      · cases h
      · rename_i hsome
        cases h
        refine .inl ⟨_, rfl, by simpa using hsome, fun name hname => ?_⟩
        obtain ⟨w, hw, rfl⟩ := List.mem_map.1 hname
        simpa [IsRun, ← String.toList_inj] using of_mem_words hw
    · obtain ⟨tokens, htokens, hread⟩ := bind_eq_ok_iff.1 h
      obtain ⟨args, hargs, hread⟩ := bind_eq_ok_iff.1 hread
      obtain ⟨w, hw, hedit⟩ := bind_eq_ok_iff.1 hread
      unfold splitArguments at htokens
      rw [String.toList_ofList] at htokens
      split at htokens
      · cases htokens
      · obtain rfl := Except.ok.inj htokens
        exact .inr ⟨word, rest, args, hfirst, by omega, hargs, answers_of_edit hedit (canonical_of_weightOf hw)⟩

/-- What holds of every edit that is read, but for those that set roots: a name that begins with a quote holds no other, and attributes
that hold a blank hold no quote. -/
structure Received (e : Edit) : Prop where
  roots : ∀ names, e ≠ setRoots names
  opens : ∀ argument ∈ e.stated, argument.2.toList.head? = some '"' → argument.2.toList.count '"' = 1
  parted : e.attributes.Parted
  spaced : (∃ c ∈ e.attributes.text.toList, isBlank c = true) → '"' ∉ e.attributes.text.toList
  canonical : e.weight.Canonical
  extra : e.isExtra = false

/-- Attributes are stated, if there are any. -/
theorem mem_stated_or_nil (e : Edit) : ("-nodearg", e.attributes.text) ∈ e.stated ∨ e.attributes = [] := by
  cases e with
  | addDependent governor relation attributes name weight => exact .inl (by simp [stated, Edit.attributes])
  | addNode attributes name => exact .inl (by simp [stated, Edit.attributes])
  | _ => exact .inr rfl

/-- An edit that says what stands under the flags of a line was received. -/
theorem Answers.received {e : Edit} {line : String} {args : Arguments} {rest : List Char} (h : e.Answers args)
    (hargs : readFlags line [] ((cutArguments rest).map String.ofList) = .ok args) : e.Received := by
  have hcut : ∀ {name text}, args.lookup name = some text → text.toList ∈ cutArguments rest := by
    intro name text hlookup
    rcases mem_of_readFlags hargs (Pairs.mem_of_lookup_eq hlookup) with hmem | hmem
    · cases hmem
    · obtain ⟨cs, hcs, rfl⟩ := List.mem_map.1 hmem
      rwa [String.toList_ofList]
  have hattributes : e.attributes.Parted ∧
      ((∃ c ∈ e.attributes.text.toList, isBlank c = true) → '"' ∉ e.attributes.text.toList) := by
    rcases mem_stated_or_nil e with hmem | hnil
    · obtain ⟨text, hlookup, hread⟩ := h.attributes _ hmem
      obtain ⟨hparted, hcount⟩ := Attributes.of_ofText hread
      refine ⟨hparted, ?_⟩
      rintro ⟨c, hc, hblank⟩
      have hspaced : c ∈ text.toList :=
        List.count_pos_iff.1 ((List.count_pos_iff.2 hc).trans_le (hcount c (Attributes.notMem_marks hblank)))
      have hnone := (of_mem_cutArguments (hcut hlookup)).1 ⟨c, hspaced, hblank⟩
      rw [← List.count_eq_zero] at hnone ⊢
      exact Nat.le_zero.1 ((hcount '"' (by decide)).trans_eq hnone)
    · rw [hnil]
      exact ⟨Attributes.parted_nil, fun _ => by decide⟩
  refine ⟨h.roots, fun argument hmem hhead => ?_, hattributes.1, hattributes.2, h.canonical, h.extra⟩
  by_cases hname : argument.1 = "-nodearg"
  · obtain ⟨name, text⟩ := argument
    obtain rfl : name = "-nodearg" := hname
    rw [eq_text_of_mem_stated hmem, Attributes.toList_text] at hhead
    exact absurd (Option.some.inj hhead) (by decide)
  · exact (of_mem_cutArguments (hcut (h.names argument hmem hname))).2 hhead

end Treebank.Edit

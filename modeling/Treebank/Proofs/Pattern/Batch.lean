import Treebank.Proofs.Pattern.Shorthand
import Treebank.Proofs.Pattern.Outcome
import Treebank.Proofs.Pattern.Bracket
import Treebank.Proofs.Diagnostics
import Treebank.Proofs.Text.Words

/-!
# Batches without their shorthands

What the patterns of a batch are is said without a sink: the definitions are dropped, each line with a pattern has its shorthands put in
(`inlineLines`), and the texts are read as patterns one by one (`compileLines_eq_ok_iff`). The lines that are left are a batch in their
own right. It has the patterns of the first one exactly if no use came together when values were put in, and no blanks came to stand
around a pattern (`compileLines_inline`).
-/

namespace Treebank.Pattern

variable {options : PatternOptions} {d d' : BatchDraft} {number : Nat} {line : String} {lines : List String} {sink : Sink}
  {table : Shorthands} {name cs : List Char} {ps : List Pattern}

/-! ## The lines of a batch -/

/-- What a line of a batch is. -/
inductive BatchLine where
  | passed
  | definition (name value : List Char)
  | pattern (text : List Char)

/-- What the line is, without the blanks around it. -/
def BatchLine.of (line : String) : BatchLine :=
  let cs := Text.trim line.toList
  if cs.isEmpty || cs.head? == some '#' then .passed
  else
    match definition? cs with
    | some (name, value) => .definition name value
    | none => .pattern cs

/-- The text in which shorthands are used. -/
def BatchLine.body : BatchLine → List Char
  | .passed => []
  | .definition _ value => value
  | .pattern text => text

/-- No use that is begun and not finished stands directly before another one, or at the end of a value. -/
def BatchLine.Tidy : BatchLine → Prop
  | .passed => True
  | .definition _ value => ¬ Joins value ∧ ¬ Unfinished value
  | .pattern text => ¬ Joins text

/-- Whether a pattern is read, and as which one, does not depend on what was recorded before. -/
theorem compile_run (options : PatternOptions) (text : String) (sink : Sink) :
    ∃ sink', (compile options text).run.run sink = (ofText options text, sink') := by
  unfold ofText compile
  cases Text.isAllBlank text.toList with
  | true => exact ⟨_, rfl⟩
  | false =>
    cases read options text with
    | ok p => exact ⟨_, rfl⟩
    | error e =>
      dsimp only
      cases e.fault.isLimit <;> exact ⟨_, rfl⟩

/-- What is made of a pattern whose error is put in other terms, if it can be read. -/
theorem compile_adapt_map_eq_ok_iff {α : Type} {text : String} {f : CompileError → CompileError} {g : Pattern → α} {a : α} :
    ((do return g (← (compile options text).adapt f) : Recorded CompileError α).run.run sink).1 = .ok a ↔
      ∃ p, ofText options text = .ok p ∧ a = g p := by
  obtain ⟨sink', hrun⟩ := compile_run options text sink
  have hadapt : ((compile options text).adapt f).run.run sink = ((ofText options text).mapError f, sink') :=
    congrArg (fun r : Except CompileError Pattern × Sink => (r.1.mapError f, r.2)) hrun
  rw [Recorded.run_bind_eq_ok_iff, hadapt]
  constructor
  · rintro ⟨p, sink'', hp, h⟩
    cases h
    exact ⟨p, mapError_eq_ok_iff.1 (congrArg Prod.fst hp), rfl⟩
  · rintro ⟨p, hp, rfl⟩
    exact ⟨p, sink', by rw [hp, mapError_ok], rfl⟩

/-- A text with its shorthands put in. -/
theorem expand_eq_ok_iff {out : String} : expand number table (String.ofList cs) = .ok out ↔ Expands table cs out.toList := by
  rw [expand, bind_eq_ok_iff, String.toList_ofList]
  constructor
  · rintro ⟨cs', hcs, h⟩
    cases h
    rw [String.toList_ofList]
    exact substitute_eq_ok_iff.1 hcs
  · intro h
    exact ⟨_, substitute_eq_ok_iff.2 h, congrArg _ String.ofList_toList⟩

/-! ## The lines that are left -/

/-- A line of a batch without its definitions: one that is passed over, or a pattern with the shorthands put in. -/
inductive InlinedLine where
  | passed (line : String)
  | pattern (text : String)

/-- The text of the line. -/
def InlinedLine.text : InlinedLine → String
  | .passed line => line
  | .pattern text => text

/-- The text of the pattern on the line, if there is one. -/
def InlinedLine.pattern? : InlinedLine → Option String
  | .passed _ => none
  | .pattern text => some text

/-- The lines of a batch from the given line number on, without the definitions, and with shorthands put into the patterns. -/
def inlineLines (table : Shorthands) (number : Nat) : List String → Except CompileError (List InlinedLine)
  | [] => .ok []
  | line :: lines =>
    match BatchLine.of line with
    | .passed => do return .passed line :: (← inlineLines table (number + 1) lines)
    | .definition name value => do
      let value ← expand number table (String.ofList value)
      inlineLines (Pairs.put table (String.ofList name) value) (number + 1) lines
    | .pattern text => do
      let text ← expand number table (String.ofList text)
      return .pattern text :: (← inlineLines table (number + 1) lines)

/-- How lines are left without the definitions: line by line, with what was defined so far. -/
inductive Inlines : Shorthands → List String → List InlinedLine → Prop
  | nil {table : Shorthands} : Inlines table [] []
  | passed {table : Shorthands} {line : String} {lines : List String} {inlined : List InlinedLine} (hline : BatchLine.of line = .passed)
      (hlines : Inlines table lines inlined) : Inlines table (line :: lines) (.passed line :: inlined)
  | definition {table : Shorthands} {line : String} {lines : List String} {inlined : List InlinedLine} {name value : List Char}
      {out : String} (hline : BatchLine.of line = .definition name value) (hvalue : Expands table value out.toList)
      (hlines : Inlines (Pairs.put table (String.ofList name) out) lines inlined) : Inlines table (line :: lines) inlined
  | pattern {table : Shorthands} {line : String} {lines : List String} {inlined : List InlinedLine} {text : List Char} {out : String}
      (hline : BatchLine.of line = .pattern text) (htext : Expands table text out.toList) (hlines : Inlines table lines inlined) :
      Inlines table (line :: lines) (.pattern out :: inlined)

theorem inlineLines_eq_ok_iff {inlined : List InlinedLine} : inlineLines table number lines = .ok inlined ↔ Inlines table lines inlined := by
  constructor
  · intro h
    induction lines generalizing table number inlined with
    | nil =>
      cases h
      exact .nil
    | cons line lines ih =>
      rw [inlineLines] at h
      split at h
      · rename_i hline
        obtain ⟨inlined, hlines, h⟩ := bind_eq_ok_iff.1 h
        cases h
        exact .passed hline (ih hlines)
      · rename_i hline
        obtain ⟨out, hvalue, hlines⟩ := bind_eq_ok_iff.1 h
        exact .definition hline (expand_eq_ok_iff.1 hvalue) (ih hlines)
      · rename_i hline
        obtain ⟨out, htext, h⟩ := bind_eq_ok_iff.1 h
        obtain ⟨inlined, hlines, h⟩ := bind_eq_ok_iff.1 h
        cases h
        exact .pattern hline (expand_eq_ok_iff.1 htext) (ih hlines)
  · intro h
    induction h generalizing number with
    | nil => rfl
    | passed hline _ ih =>
      rw [inlineLines, hline]
      exact bind_eq_ok_iff.2 ⟨_, ih, rfl⟩
    | definition hline hvalue _ ih =>
      rw [inlineLines, hline]
      exact bind_eq_ok_iff.2 ⟨_, expand_eq_ok_iff.2 hvalue, ih⟩
    | pattern hline htext _ ih =>
      rw [inlineLines, hline]
      exact bind_eq_ok_iff.2 ⟨_, expand_eq_ok_iff.2 htext, bind_eq_ok_iff.2 ⟨_, ih, rfl⟩⟩

/-- Reading goes on from a draft with a line. -/
def BatchDraft.Takes (options : PatternOptions) (d : BatchDraft) : BatchLine → BatchDraft → Prop
  | .passed, d' => d' = d
  | .definition name value, d' =>
    ∃ out : String, Expands d.table value out.toList ∧ d' = { d with table := Pairs.put d.table (String.ofList name) out }
  | .pattern text, d' =>
    ∃ out p, Expands d.table text out.toList ∧ ofText options out = .ok p ∧ d' = { d with patterns := p :: d.patterns }

/-- A line is read exactly if its shorthands are defined and its pattern, if it has one, can be read. -/
theorem addLine_eq_ok_iff :
    ((d.addLine options number (Text.trim line.toList)).run.run sink).1 = .ok d' ↔ d.Takes options (BatchLine.of line) d' := by
  unfold BatchDraft.addLine BatchLine.of
  simp only
  split
  · exact ⟨fun h => (Except.ok.inj h).symm, fun h => congrArg _ h.symm⟩
  · cases definition? (Text.trim line.toList) with
    | some entry =>
      dsimp only
      rw [Recorded.run_lift_bind_eq_ok_iff]
      constructor
      · rintro ⟨out, hout, h⟩
        cases h
        exact ⟨out, expand_eq_ok_iff.1 hout, rfl⟩
      · rintro ⟨out, hout, rfl⟩
        exact ⟨out, expand_eq_ok_iff.2 hout, rfl⟩
    | none =>
      dsimp only
      rw [Recorded.run_lift_bind_eq_ok_iff]
      constructor
      · rintro ⟨out, hout, h⟩
        obtain ⟨p, hp, rfl⟩ := compile_adapt_map_eq_ok_iff.1 h
        exact ⟨out, p, expand_eq_ok_iff.1 hout, hp, rfl⟩
      · rintro ⟨out, p, hout, hp, rfl⟩
        exact ⟨out, expand_eq_ok_iff.2 hout, compile_adapt_map_eq_ok_iff.2 ⟨p, hp, rfl⟩⟩

/-- The texts of the patterns that are left. -/
def patternTexts (inlined : List InlinedLine) : List String := inlined.filterMap InlinedLine.pattern?

theorem patternTexts_pattern (text : String) (inlined : List InlinedLine) :
    patternTexts (.pattern text :: inlined) = text :: patternTexts inlined := rfl

/-- What is left of the lines behind a line is, with what is left of the line itself, what is left of all of them. -/
theorem takes_inlines_iff {qs : List Pattern} :
    (∃ d₁, d.Takes options (BatchLine.of line) d₁ ∧ ∃ inlined ps, Inlines d₁.table lines inlined ∧
      (patternTexts inlined).mapM (ofText options) = .ok ps ∧ qs = ps.reverse ++ d₁.patterns) ↔
      ∃ inlined ps, Inlines d.table (line :: lines) inlined ∧ (patternTexts inlined).mapM (ofText options) = .ok ps ∧
        qs = ps.reverse ++ d.patterns := by
  constructor
  · rintro ⟨d₁, htakes, inlined, ps, hlines, hps, rfl⟩
    cases hline : BatchLine.of line with
    | passed =>
      rw [hline] at htakes
      cases htakes
      exact ⟨_, ps, .passed hline hlines, hps, rfl⟩
    | definition name value =>
      rw [hline] at htakes
      obtain ⟨out, hvalue, rfl⟩ := htakes
      exact ⟨_, ps, .definition hline hvalue hlines, hps, rfl⟩
    | pattern text =>
      rw [hline] at htakes
      obtain ⟨out, p, htext, hp, rfl⟩ := htakes
      refine ⟨_, p :: ps, .pattern hline htext hlines, ?_, by simp⟩
      rw [patternTexts_pattern, List.mapM_cons]
      exact bind_eq_ok_iff.2 ⟨p, hp, bind_eq_ok_iff.2 ⟨ps, hps, rfl⟩⟩
  · rintro ⟨inlined, ps, hlines, hps, rfl⟩
    cases hlines with
    | passed hline hlines => exact ⟨d, hline ▸ rfl, _, ps, hlines, hps, rfl⟩
    | definition hline hvalue hlines =>
      exact ⟨{ d with table := _ }, hline ▸ ⟨_, hvalue, rfl⟩, _, ps, hlines, hps, rfl⟩
    | pattern hline htext hlines =>
      rw [patternTexts_pattern, List.mapM_cons] at hps
      obtain ⟨p, hp, hps⟩ := bind_eq_ok_iff.1 hps
      obtain ⟨others, hothers, h⟩ := bind_eq_ok_iff.1 hps
      cases h
      exact ⟨{ d with patterns := p :: d.patterns }, hline ▸ ⟨_, p, htext, hp, rfl⟩, _, others, hlines, hothers, by simp⟩

/-- The patterns of lines are those of the lines that are left without the definitions. -/
theorem addLines_eq_ok_iff {qs : List Pattern} :
    (∃ d', ((BatchDraft.addLines options d number lines).run.run sink).1 = .ok d' ∧ d'.patterns = qs) ↔
      ∃ inlined ps, Inlines d.table lines inlined ∧ (patternTexts inlined).mapM (ofText options) = .ok ps ∧
        qs = ps.reverse ++ d.patterns := by
  induction lines generalizing d number sink with
  | nil =>
    constructor
    · rintro ⟨d', h, rfl⟩
      cases h
      exact ⟨[], [], .nil, rfl, rfl⟩
    · rintro ⟨inlined, ps, hlines, hps, rfl⟩
      cases hlines
      cases hps
      exact ⟨d, rfl, rfl⟩
  | cons line lines ih =>
    rw [← takes_inlines_iff]
    constructor
    · rintro ⟨d', h, hqs⟩
      obtain ⟨d₁, sink', hline, hlines⟩ := Recorded.run_bind_eq_ok_iff.1 h
      exact ⟨d₁, addLine_eq_ok_iff.1 (congrArg Prod.fst hline), ih.1 ⟨d', hlines, hqs⟩⟩
    · rintro ⟨d₁, hline, hrest⟩
      have hrun : ((d.addLine options number (Text.trim line.toList)).run.run sink).1 = .ok d₁ := addLine_eq_ok_iff.2 hline
      obtain ⟨d', hlines, hqs⟩ := ih.2 hrest
      exact ⟨d', Recorded.run_bind_eq_ok_iff.2 ⟨d₁, _, Prod.ext hrun rfl, hlines⟩, hqs⟩

/-- The patterns of a batch are those of the lines that are left without the definitions. -/
theorem compileLines_eq_ok_iff : ((compileLines options lines).run.run sink).1 = .ok ps ↔
    ∃ inlined, Inlines [] lines inlined ∧ (patternTexts inlined).mapM (ofText options) = .ok ps := by
  rw [compileLines, Recorded.run_bind_eq_ok_iff]
  constructor
  · rintro ⟨d, sink', hd, h⟩
    cases h
    obtain ⟨inlined, qs, hlines, hqs, hd⟩ := addLines_eq_ok_iff.1 ⟨d, congrArg Prod.fst hd, rfl⟩
    refine ⟨inlined, hlines, ?_⟩
    rw [hqs, hd, List.append_nil, List.reverse_reverse]
  · rintro ⟨inlined, hlines, hps⟩
    obtain ⟨d, hd, hpatterns⟩ := addLines_eq_ok_iff (d := {}).2 ⟨inlined, ps, hlines, hps, rfl⟩
    refine ⟨d, _, Prod.ext hd rfl, ?_⟩
    rw [hpatterns, List.append_nil, List.reverse_reverse]
    rfl

/-! ## The lines that are left as a batch -/

/-- Patterns keep the texts that they were read from. -/
theorem eq_map_source {texts : List String} (h : texts.mapM (ofText options) = .ok ps) : texts = ps.map (·.source) := by
  induction texts generalizing ps with
  | nil =>
    cases h
    rfl
  | cons text texts ih =>
    rw [List.mapM_cons] at h
    obtain ⟨p, hp, h⟩ := bind_eq_ok_iff.1 h
    obtain ⟨ps, hps, h⟩ := bind_eq_ok_iff.1 h
    cases h
    obtain ⟨names, -, hsource⟩ := register_of_ofText hp
    rw [List.map_cons, ← ih hps, hsource]

/-- A description begins with a brace, or with an exclamation mark. -/
theorem head_of_takeDescription {i : Input} {r : Description × List Char} (h : takeDescription i cs = .ok r) :
    ∃ c ∈ (Text.trimStart cs).head?, c = '!' ∨ c = '\x7b' := by
  unfold takeDescription at h
  split at h
  · rename_i htext
    exact ⟨'!', by rw [htext]; rfl, .inl rfl⟩
  · unfold takeBraces at h
    split at h
    · rename_i htext
      exact ⟨'\x7b', by rw [htext]; rfl, .inr rfl⟩
    · cases h

/-- A pattern begins with a parenthesis or with a description. -/
theorem head_of_ofText {text : String} {p : Pattern} (h : ofText options text = .ok p) :
    ∃ c ∈ (Text.trimStart text.toList).head?, c = '(' ∨ c = '!' ∨ c = '\x7b' := by
  obtain ⟨d, rest, parts, names, hbegin, -⟩ := read_eq_ok_iff.1 (ofText_eq_ok_iff.1 h).2
  unfold beginPart takeParenthesis at hbegin
  split at hbegin
  rename_i parenthesis enclosed behind hparenthesis
  split at hparenthesis
  · rename_i htext
    exact ⟨'(', by rw [htext]; rfl, .inl rfl⟩
  · cases hparenthesis
    split at hbegin
    · cases hbegin
    · rename_i hplace
      obtain ⟨r, hdescription, -⟩ := bind_eq_ok_iff.1 hplace
      obtain ⟨c, hhead, hc⟩ := head_of_takeDescription hdescription
      rw [Text.trimStart, Text.trimStart, List.dropWhile_idempotent] at hhead
      exact ⟨c, hhead, .inr hc⟩

/-- A line with a pattern that can be read is read as that pattern, without the blanks around it. -/
theorem of_eq_pattern {text : String} {p : Pattern} (h : ofText options text = .ok p) :
    BatchLine.of text = .pattern (Text.trim text.toList) := by
  obtain ⟨c, hhead, hc⟩ := head_of_ofText h
  have hprefix : Text.trim text.toList <+: Text.trimStart text.toList := List.rdropWhile_prefix _ _
  have hne : Text.trim text.toList ≠ [] := fun hnil => by
    have hblank := (ofText_eq_ok_iff.1 h).1.symm.trans (Text.trim_eq_nil_iff.1 hnil)
    cases hblank
  unfold BatchLine.of
  cases htrim : Text.trim text.toList with
  | nil => exact absurd htrim hne
  | cons c' rest =>
    obtain ⟨more, hmore⟩ := htrim ▸ hprefix
    rw [← hmore] at hhead
    cases hhead
    rcases hc with rfl | rfl | rfl <;> rfl

/-- Whether the line is one of its kind, up to the blanks around it. -/
def InlinedLine.Stands : InlinedLine → Prop
  | .passed line => BatchLine.of line = .passed
  | .pattern text => BatchLine.of text = .pattern (Text.trim text.toList)

/-- Lines of their kind come out again as they are, if no use is on them and no blanks are around them. -/
theorem inlines_of_stands {inlined : List InlinedLine} (hstands : ∀ l ∈ inlined, l.Stands)
    (htexts : ∀ text ∈ patternTexts inlined, ¬ HasUse text.toList ∧ Text.trim text.toList = text.toList) :
    Inlines [] (inlined.map InlinedLine.text) inlined := by
  induction inlined with
  | nil => exact .nil
  | cons l inlined ih =>
    obtain ⟨hl, hothers⟩ := List.forall_mem_cons.1 hstands
    cases l with
    | passed line => exact .passed hl (ih hothers htexts)
    | pattern text =>
      obtain ⟨⟨huse, htrim⟩, htexts⟩ := List.forall_mem_cons.1 htexts
      exact .pattern hl (Expands.nil_iff.2 ⟨htrim.symm ▸ huse, htrim.symm⟩) (ih hothers htexts)

/-- What comes of lines of their kind: there is no use on them, and they are without the blanks around them. -/
theorem Inlines.of_stands {inlined again : List InlinedLine} (h : Inlines [] (inlined.map InlinedLine.text) again)
    (hstands : ∀ l ∈ inlined, l.Stands) :
    (∀ text ∈ patternTexts inlined, ¬ HasUse (Text.trim text.toList)) ∧
      patternTexts again = (patternTexts inlined).map fun text => String.ofList (Text.trim text.toList) := by
  induction inlined generalizing again with
  | nil =>
    cases h
    exact ⟨List.forall_mem_nil _, rfl⟩
  | cons l inlined ih =>
    obtain ⟨hl, hothers⟩ := List.forall_mem_cons.1 hstands
    cases l with
    | passed line =>
      cases h with
      | passed _ h =>
        obtain ⟨huses, hagain⟩ := ih h hothers
        exact ⟨huses, hagain⟩
      | definition hline => cases hl.symm.trans hline
      | pattern hline => cases hl.symm.trans hline
    | pattern text =>
      cases h with
      | passed hline => cases hl.symm.trans hline
      | definition hline => cases hl.symm.trans hline
      | pattern hline htext h =>
        cases hl.symm.trans hline
        obtain ⟨huse, hout⟩ := Expands.nil_iff.1 htext
        obtain ⟨huses, hagain⟩ := ih h hothers
        refine ⟨List.forall_mem_cons.2 ⟨huse, huses⟩, ?_⟩
        rw [patternTexts_pattern, patternTexts_pattern, hagain, List.map_cons, ← hout, String.ofList_toList]

/-- The lines that are passed over are so in a batch of their own. -/
theorem Inlines.stands {inlined : List InlinedLine} (h : Inlines table lines inlined)
    (hps : (patternTexts inlined).mapM (ofText options) = .ok ps) : ∀ l ∈ inlined, l.Stands := by
  induction h generalizing ps with
  | nil => exact List.forall_mem_nil _
  | passed hline _ ih => exact List.forall_mem_cons.2 ⟨hline, ih hps⟩
  | definition _ _ _ ih => exact ih hps
  | pattern _ _ _ ih =>
    rw [patternTexts_pattern, List.mapM_cons] at hps
    obtain ⟨p, hp, hps⟩ := bind_eq_ok_iff.1 hps
    obtain ⟨others, hothers, -⟩ := bind_eq_ok_iff.1 hps
    exact List.forall_mem_cons.2 ⟨of_eq_pattern hp, ih hothers⟩

/-- A use that is written on a line is one of a shorthand defined before: by a line above, or at the beginning. -/
theorem Inlines.defined {inlined : List InlinedLine} (h : Inlines table lines inlined) {before after : List String}
    (hlines : lines = before ++ line :: after) (hname : IsShorthandName name) (huses : Uses name (BatchLine.of line).body) :
    (∃ value, table.lookup (String.ofList name) = some value) ∨
      ∃ earlier ∈ before, ∃ value, BatchLine.of earlier = .definition name value := by
  induction h generalizing before with
  | nil => simp at hlines
  | passed hline _ ih =>
    cases before with
    | nil =>
      obtain ⟨rfl, -⟩ := List.cons.inj hlines
      obtain ⟨front, back, h⟩ := hline ▸ huses
      simp [BatchLine.body, useOf] at h
    | cons l before =>
      obtain ⟨rfl, hbelow⟩ := List.cons.inj hlines
      rcases ih hbelow with hlookup | ⟨earlier, hearlier, h⟩
      · exact .inl hlookup
      · exact .inr ⟨earlier, List.mem_cons_of_mem _ hearlier, h⟩
  | @definition table' line' _ _ name' value out hline hvalue _ ih =>
    cases before with
    | nil =>
      obtain ⟨rfl, -⟩ := List.cons.inj hlines
      rw [hline] at huses
      exact .inl (hvalue.defined hname huses)
    | cons l before =>
      obtain ⟨rfl, hbelow⟩ := List.cons.inj hlines
      rcases ih hbelow with ⟨value', hlookup⟩ | ⟨earlier, hearlier, h⟩
      · rw [Pairs.lookup_put] at hlookup
        split at hlookup
        · rename_i heq
          rw [← String.ofList_injective (eq_of_beq heq)] at hline
          exact .inr ⟨line', List.mem_cons_self .., value, hline⟩
        · exact .inl ⟨value', hlookup⟩
      · exact .inr ⟨earlier, List.mem_cons_of_mem _ hearlier, h⟩
  | pattern hline htext _ ih =>
    cases before with
    | nil =>
      obtain ⟨rfl, -⟩ := List.cons.inj hlines
      rw [hline] at huses
      exact .inl (htext.defined hname huses)
    | cons l before =>
      obtain ⟨rfl, hbelow⟩ := List.cons.inj hlines
      rcases ih hbelow with hlookup | ⟨earlier, hearlier, h⟩
      · exact .inl hlookup
      · exact .inr ⟨earlier, List.mem_cons_of_mem _ hearlier, h⟩

/-- No use is left where nothing that is begun stands before a use or at the end of a value. -/
theorem Inlines.not_hasUse {inlined : List InlinedLine} (h : Inlines table lines inlined)
    (htable : ∀ p ∈ table, ¬ HasUse p.2.toList ∧ ¬ Unfinished p.2.toList) (htidy : ∀ line ∈ lines, (BatchLine.of line).Tidy) :
    ∀ text ∈ patternTexts inlined, ¬ HasUse text.toList := by
  induction h with
  | nil => exact List.forall_mem_nil _
  | passed _ _ ih => exact ih htable (List.forall_mem_cons.1 htidy).2
  | definition hline hvalue _ ih =>
    obtain ⟨hl, hothers⟩ := List.forall_mem_cons.1 htidy
    rw [hline] at hl
    refine ih (fun p hp => ?_) hothers
    rcases Pairs.mem_of_mem_put hp with rfl | hp
    · exact ⟨hvalue.not_hasUse htable hl.1, hvalue.not_unfinished (fun p hp => (htable p hp).2) hl.1 hl.2⟩
    · exact htable p hp
  | pattern hline htext _ ih =>
    obtain ⟨hl, hothers⟩ := List.forall_mem_cons.1 htidy
    rw [hline] at hl
    exact List.forall_mem_cons.2 ⟨htext.not_hasUse htable hl, ih htable hothers⟩

/-- The value that a line defines stands on it. -/
theorem subset_of_definition? {value : List Char} (h : definition? cs = some (name, value)) : value ⊆ cs := by
  unfold definition? at h
  split at h
  · split at h
    · cases h
    · rename_i c rest
      split at h
      · obtain ⟨⟨name', after⟩, hname, h⟩ := Option.bind_eq_some_iff.1 h
        dsimp only at h
        split at h
        · rename_i behind hbehind
          split at h
          · cases h
          · cases h
            obtain ⟨-, hrest, -⟩ := identifier?_eq_some_iff.1 hname
            have hvalue : Text.trim (Text.trimStart behind) ⊆ behind := 
              List.Subset.trans (Text.trim_subset _) (List.dropWhile_subset _)
            have hbehind' : behind ⊆ Text.trimStart after := hbehind ▸ List.subset_cons_self _ _
            have hafter : after ⊆ Text.trimStart (c :: rest) := hrest ▸ List.subset_append_right _ _
            have hline : c :: rest ⊆ 'm' :: 'a' :: 'c' :: 'r' :: 'o' :: c :: rest := (List.suffix_append ['m', 'a', 'c', 'r', 'o'] _).subset
            have hvalue' : Text.trim (Text.trimStart behind) ⊆ after :=
              List.Subset.trans (List.Subset.trans hvalue hbehind') (List.dropWhile_subset _)
            have hafter' : after ⊆ c :: rest := List.Subset.trans hafter (List.dropWhile_subset _)
            exact List.Subset.trans (List.Subset.trans hvalue' hafter') hline
        · cases h
      · cases h
  · cases h

/-- The text in which a line uses shorthands stands on it. -/
theorem body_subset (line : String) : (BatchLine.of line).body ⊆ line.toList := by
  unfold BatchLine.of
  simp only
  split
  · exact List.nil_subset _
  · split
    · rename_i hdefinition
      exact List.Subset.trans (subset_of_definition? hdefinition) (Text.trim_subset _)
    · exact Text.trim_subset _

/-- Lines that are left are single lines, if all lines were and the values too. -/
theorem Inlines.isLineBreak {inlined : List InlinedLine} (h : Inlines table lines inlined)
    (htable : ∀ p ∈ table, ∀ c ∈ p.2.toList, Text.isLineBreak c = false)
    (hlines : ∀ line ∈ lines, ∀ c ∈ line.toList, Text.isLineBreak c = false) :
    ∀ l ∈ inlined, ∀ c ∈ l.text.toList, Text.isLineBreak c = false := by
  have hout : ∀ {table : Shorthands} {line : String} {out : String},
      (∀ p ∈ table, ∀ c ∈ p.2.toList, Text.isLineBreak c = false) → (∀ c ∈ line.toList, Text.isLineBreak c = false) →
        Expands table (BatchLine.of line).body out.toList → ∀ c ∈ out.toList, Text.isLineBreak c = false := by
    intro table line out htable hline hexpands c hc
    rcases hexpands.of_mem hc with hc | ⟨p, hp, hc⟩
    · exact hline c (body_subset line hc)
    · exact htable p hp c hc
  induction h with
  | nil => exact List.forall_mem_nil _
  | passed _ _ ih =>
    obtain ⟨hfirst, hothers⟩ := List.forall_mem_cons.1 hlines
    exact List.forall_mem_cons.2 ⟨hfirst, ih htable hothers⟩
  | definition hline hvalue _ ih =>
    obtain ⟨hfirst, hothers⟩ := List.forall_mem_cons.1 hlines
    refine ih (fun p hp => ?_) hothers
    rcases Pairs.mem_of_mem_put hp with rfl | hp
    · exact hout htable hfirst (hline ▸ hvalue)
    · exact htable p hp
  | pattern hline htext _ ih =>
    obtain ⟨hfirst, hothers⟩ := List.forall_mem_cons.1 hlines
    exact List.forall_mem_cons.2 ⟨hout htable hfirst (hline ▸ htext), ih htable hothers⟩

/-- The batch with its definitions dropped and its shorthands put in, as one text. -/
def inlinedText (inlined : List InlinedLine) : String := String.ofList (inlined.flatMap fun l => l.text.toList ++ ['\n'])

/-- A batch that can be read uses no shorthand that no line above defines. Its definitions can be dropped and its shorthands put in: the
lines that are left have the same patterns exactly if there is no use in the text of a pattern and no blank around it. A use can be in
such a text only if it came together when values were put in, at one that was begun and not finished. -/
theorem compileLines_inline (h : ((compileLines options lines).run.run sink).1 = .ok ps) :
    (∀ before line after, lines = before ++ line :: after → ∀ name, IsShorthandName name → Uses name (BatchLine.of line).body →
        ∃ earlier ∈ before, ∃ value, BatchLine.of earlier = .definition name value) ∧
      (∃ inlined, inlineLines [] 1 lines = .ok inlined ∧ patternTexts inlined = ps.map (·.source) ∧
        (∀ sink', ((compileLines options (inlined.map (·.text))).run.run sink').1 = .ok ps ↔
          ∀ p ∈ ps, ¬ HasUse p.source.toList ∧ Text.trim p.source.toList = p.source.toList) ∧
        ((∀ line ∈ lines, ∀ c ∈ line.toList, Text.isLineBreak c = false) →
          compileBatch options (inlinedText inlined) = compileLines options (inlined.map (·.text)))) ∧
      ((∀ line ∈ lines, (BatchLine.of line).Tidy) → ∀ p ∈ ps, ¬ HasUse p.source.toList) := by
  obtain ⟨inlined, hlines, hps⟩ := compileLines_eq_ok_iff.1 h
  have hsource := eq_map_source hps
  have hstands := hlines.stands hps
  have hmem : ∀ {q : String → Prop}, (∀ text ∈ patternTexts inlined, q text) ↔ ∀ p ∈ ps, q p.source := by
    intro q
    rw [hsource, List.forall_mem_map]
  refine ⟨fun before line after hsplit name hname huses => ?_,
    ⟨inlined, inlineLines_eq_ok_iff.2 hlines, hsource, fun sink' => ⟨fun hagain => ?_, fun hclean => ?_⟩, fun hbreaks => ?_⟩,
    fun htidy => hmem.1 (hlines.not_hasUse (List.forall_mem_nil _) htidy)⟩
  · rcases hlines.defined hsplit hname huses with ⟨value, hvalue⟩ | hearlier
    · cases hvalue
    · exact hearlier
  · obtain ⟨again, hinlines, hpatterns⟩ := compileLines_eq_ok_iff.1 hagain
    obtain ⟨huses, htexts⟩ := hinlines.of_stands hstands
    rw [eq_map_source hpatterns, ← hsource] at htexts
    have htrim : ∀ text ∈ patternTexts inlined, Text.trim text.toList = text.toList := by
      intro text htext
      have hself := List.map_eq_map_iff.1 (htexts.symm.trans (List.map_id _).symm) text htext
      exact (String.toList_ofList ..).symm.trans (congrArg String.toList hself)
    refine hmem (q := fun text => ¬ HasUse text.toList ∧ Text.trim text.toList = text.toList).1 fun text htext => ⟨?_, htrim text htext⟩
    exact htrim text htext ▸ huses text htext
  · exact compileLines_eq_ok_iff.2 ⟨inlined, inlines_of_stands hstands (hmem.2 hclean), hps⟩
  · have hsingle := hlines.isLineBreak (List.forall_mem_nil _) hbreaks
    have hparts : (inlined.flatMap fun l => l.text.toList ++ ['\n']) = (inlined.map (·.text.toList)).flatMap (· ++ ['\n']) := by
      rw [List.flatMap_map]
    rw [compileBatch, inlinedText, String.toList_ofList, hparts, Text.lines_flatMap (by simpa using hsingle), List.map_map]
    congr 1
    exact List.map_congr_left fun l _ => String.ofList_toList

/-- A shorthand is used in another one, and the other one in a pattern; the line that is left is the same pattern. -/
theorem compileLines_inline_verb :
    let lines := ["macro VERB = /VB.*/", "macro TAGGED = \x7btag:$\x7bVERB\x7d\x7d", "", "$\x7bTAGGED\x7d=v >nsubj \x7b\x7d"]
    let pattern := "\x7btag:/VB.*/\x7d=v >nsubj \x7b\x7d"
    ∃ ps, ((compileLines {} lines).run.run {}).1 = .ok ps ∧ ps.map (·.source) = [pattern] ∧
      ∀ sink, ((compileLines {} ["", pattern]).run.run sink).1 = .ok ps := by
  intro lines pattern
  obtain ⟨ps, hps, hsource⟩ := exists_ok_of_map_toOption (x := ((compileLines {} lines).run.run {}).1) (g := List.map (·.source))
    (b := [pattern]) (by decide +kernel)
  obtain ⟨-, ⟨inlined, hinlined, -, hiff, -⟩, -⟩ := compileLines_inline hps
  obtain ⟨inlined', hinlined', htexts⟩ := exists_ok_of_map_toOption (x := inlineLines [] 1 lines) (g := List.map (·.text))
    (b := ["", pattern]) (by decide +kernel)
  rw [hinlined] at hinlined'
  cases hinlined'
  rw [htexts] at hiff
  refine ⟨ps, hps, hsource, fun sink => (hiff sink).2 fun p hp => ?_⟩
  have hp' : p.source = pattern := by
    simpa [hsource] using List.mem_map_of_mem (f := (·.source)) hp
  rw [hp']
  exact ⟨not_hasUse_of_notMem (by decide +kernel), by decide +kernel⟩

/-- A value that is put in between two parts of a use makes it whole: it is not looked through again, and stands in the pattern. The
line that is left is refused, as nothing is defined. Where an empty value is put in, the blank behind it stays in the pattern, and goes
when the line that is left is read. -/
theorem compileLines_use_comes_together :
    let sources (lines : List String) : Option (List String) := ((compileLines {} lines).run.run {}).1.toOption.map (·.map (·.source))
    (∃ ps, ((compileLines {} ["macro E =", "\x7bword:/$$\x7bE\x7d\x7bX\x7d/\x7d"]).run.run {}).1 = .ok ps ∧
        ps.map (·.source) = ["\x7bword:/$\x7bX\x7d/\x7d"] ∧ ¬ ∀ p ∈ ps, ¬ HasUse p.source.toList) ∧
      sources ["\x7bword:/$\x7bX\x7d/\x7d"] = none ∧
      sources ["macro E =", "$\x7bE\x7d \x7bword:a\x7d"] = some [" \x7bword:a\x7d"] ∧
      sources [" \x7bword:a\x7d"] = some ["\x7bword:a\x7d"] := by
  obtain ⟨ps, hps, hsource⟩ := exists_ok_of_map_toOption
    (x := ((compileLines {} ["macro E =", "\x7bword:/$$\x7bE\x7d\x7bX\x7d/\x7d"]).run.run {}).1)
    (g := List.map (·.source)) (b := ["\x7bword:/$\x7bX\x7d/\x7d"]) (by decide +kernel)
  refine ⟨⟨ps, hps, hsource, fun hnone => ?_⟩, by decide +kernel, by decide +kernel, by decide +kernel⟩
  obtain ⟨p, hp, htext⟩ := List.mem_map.1 (hsource ▸ List.mem_singleton_self _)
  refine hnone p hp ⟨['X'], ⟨by decide, List.forall_mem_nil _⟩, "\x7bword:/".toList, "/\x7d".toList, ?_⟩
  rw [htext]
  decide +kernel

end Treebank.Pattern

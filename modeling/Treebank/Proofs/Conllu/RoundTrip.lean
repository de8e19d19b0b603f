import Treebank.Proofs.Conllu.Numbering
import Treebank.Proofs.Conllu.Written
import Treebank.Proofs.Diagnostics

/-!
# Reading and writing canonical texts

A canonical text is read without a fault, and the graphs that are read are written as the text.
-/

namespace Treebank.Conllu

variable {comments : List String} {rows : List Row} {validate : Bool}

/-! ## Rows by line -/

/-- Rows with the numbers of their lines, the first of which is given. -/
def numberRows (lineNumber : Nat) : List Row → List Row
  | [] => []
  | r :: rows => { r with lineNumber := lineNumber } :: numberRows (lineNumber + 1) rows

/-- The numbers of lines do not matter to what fits. -/
theorem forall₂_numberRows {known : List String} {ids : List RowId} (h : List.Forall₂ (Row.Fits known) ids rows) (n : Nat) :
    List.Forall₂ (Row.Fits known) ids (numberRows n rows) := by
  induction h generalizing n with
  | nil => exact List.Forall₂.nil
  | cons hr _ ih => exact List.Forall₂.cons ⟨hr.named, hr.columns, hr.head, hr.deps⟩ (ih (n + 1))

/-- Numbered rows make a canonical sentence as the rows do. -/
theorem Canonical.numberRows (h : Canonical comments rows) (n : Nat) : Canonical comments (numberRows n rows) := by
  obtain ⟨l, hl⟩ := h.layout
  refine ⟨h.comments, ?_, l, forall₂_numberRows hl n⟩
  cases rows with
  | nil => exact absurd rfl h.nonempty
  | cons r rows => exact List.cons_ne_nil _ _

/-! ## Lines -/

section Rows

variable {known : List String} {id : RowId} {r : Row}

/-- A row that is read from its line: it has an id, and its columns hold no tab and no line break. -/
structure Row.Legible (r : Row) : Prop where
  named : ∃ id : RowId, r.id = id.text
  columns : ∀ c ∈ r.columns, ∀ x ∈ c.toList, x ≠ '\t' ∧ Text.isLineBreak x = false

/-- A row that fits is legible. -/
theorem Row.Fits.legible (h : r.Fits known id) : r.Legible := ⟨⟨id, h.named⟩, fun c hc => (h.columns c hc).2⟩

/-- A row in writing holds no line break. -/
theorem isLineBreak_of_mem_text (h : r.Legible) : ∀ c ∈ r.text.toList, Text.isLineBreak c = false := by
  intro c hc
  rw [Row.text, String.toList_intercalate] at hc
  rcases Text.mem_intercalate hc with rfl | ⟨piece, hpiece, hc⟩
  · decide
  · obtain ⟨column, hcolumn, rfl⟩ := List.mem_map.1 hpiece
    exact (h.columns column hcolumn c hc).2

/-- A row in writing begins with a digit. -/
theorem Row.Legible.text_eq_cons (h : r.Legible) : ∃ c rest, r.text.toList = c :: rest ∧ Text.isAsciiDigit c := by
  obtain ⟨id, hnamed⟩ := h.named
  obtain ⟨c, rest, hid, hc⟩ := Conllu.text_eq_cons id
  rw [← hnamed] at hid
  refine ⟨c, rest ++ ['\t'] ++ ['\t'].intercalate ((r.form :: r.tail).map String.toList), ?_, hc⟩
  rw [Row.text, String.toList_intercalate, Row.columns, List.map_cons, List.map_cons]
  simp [List.intercalate_cons_cons, hid]

end Rows

/-- Comment lines and rows that are told apart when they are read. -/
structure Legible (comments : List String) (rows : List Row) : Prop where
  comments : ∀ c ∈ comments, c.toList.head? = some '#' ∧ ∀ x ∈ c.toList, Text.isLineBreak x = false
  nonempty : rows ≠ []
  rows : ∀ r ∈ rows, r.Legible

/-- Canonical sentences are legible. -/
theorem Canonical.legible (h : Canonical comments rows) : Legible comments rows := by
  obtain ⟨known, ps, hs, rfl⟩ := h.exists_sheet
  refine ⟨h.comments, h.nonempty, fun r hr => ?_⟩
  obtain ⟨p, hp, rfl⟩ := List.mem_map.1 hr
  exact (hs.fits p hp).legible

/-- The lines of a legible sentence hold no line breaks. -/
theorem isLineBreak_of_mem_lines (h : Legible comments rows) :
    ∀ line ∈ sentenceLines comments rows, ∀ c ∈ line.toList, Text.isLineBreak c = false := by
  intro line hline
  rcases List.mem_append.1 hline with hline | hline
  · rcases List.mem_append.1 hline with hline | hline
    · exact (h.comments line hline).2
    · obtain ⟨r, hr, rfl⟩ := List.mem_map.1 hline
      exact isLineBreak_of_mem_text (h.rows r hr)
  · rw [List.mem_singleton.1 hline]
    exact fun c hc => by cases hc

/-- A line without line breaks has none at its end. -/
theorem chomp_eq {line : String} (h : ∀ c ∈ line.toList, Text.isLineBreak c = false) : chomp line = line := by
  have hend : ∀ c ∈ line.toList, (decide (c = '\r') || decide (c = '\n')) = false := by
    intro c hc
    have hbreak := h c hc
    by_contra he
    simp only [Bool.not_eq_false, Bool.or_eq_true, decide_eq_true_eq] at he
    rcases he with rfl | rfl <;> exact absurd hbreak (by decide)
  rw [chomp, Text.dropEndWhile_eq_self hend, String.ofList_toList]

/-! ## Reading line by line -/

/-- A comment line is taken in before the rows. -/
theorem addLine_comment {s : Sentence} {n : Nat} {line : String} (hhead : line.toList.head? = some '#') (hrows : s.rows = []) :
    s.addLine validate n line = pure ({ s with comments := line :: s.comments }, []) := by
  obtain ⟨rest, hline⟩ := List.head?_eq_some_iff.1 hhead
  have hblank : Text.isAllBlank line.toList = false := by
    rw [hline, Text.isAllBlank, List.all_cons, show Text.isBlank '#' = false by decide, Bool.false_and]
  rw [Sentence.addLine, hblank, hhead, hrows]
  rfl

/-- The line of a row is taken in. -/
theorem addLine_row {s : Sentence} {n : Nat} {r : Row} (h : r.Legible) :
    s.addLine validate n r.text = pure ({ s with rows := { r with lineNumber := n } :: s.rows }, []) := by
  obtain ⟨c, rest, hline, hc⟩ := h.text_eq_cons
  have hblank : Text.isAllBlank r.text.toList = false := by
    rw [hline, Text.isAllBlank, List.all_cons, Text.isBlank_of_isAsciiDigit hc, Bool.false_and]
  have hhead : (r.text.toList.head? == some '#') = false := by
    rw [hline, List.head?_cons]
    refine beq_eq_false_iff_ne.2 fun e => ?_
    rw [Option.some.inj e] at hc
    exact absurd hc (by decide)
  have htabs : ∀ column ∈ r.columns, '\t' ∉ column.toList := fun column hm ht => (h.columns column hm '\t' ht).1 rfl
  rw [Sentence.addLine, hblank, hhead, ofLine_text htabs]
  rfl

/-- Reading goes on behind a line that is taken in. -/
theorem readFrom_cons {s s' : Sentence} {n : Nat} {line : String} (h : s.addLine validate n line = pure (s', []))
    (lines : List String) : readFrom validate s n (line :: lines) = readFrom validate s' (n + 1) lines := by
  rw [readFrom, h]
  rfl

/-- Comment lines are taken in. -/
theorem readFrom_comments (hcomments : ∀ c ∈ comments, c.toList.head? = some '#') (before : List String) (n : Nat)
    (lines : List String) :
    readFrom validate { comments := before, rows := [] } n (comments ++ lines) =
      readFrom validate { comments := comments.reverse ++ before, rows := [] } (n + comments.length) lines := by
  induction comments generalizing before n with
  | nil => rfl
  | cons c comments ih =>
    obtain ⟨hc, hrest⟩ := List.forall_mem_cons.1 hcomments
    rw [List.cons_append, readFrom_cons (addLine_comment hc rfl), ih hrest]
    simp [Nat.add_assoc, Nat.add_comm 1]

/-- The lines of rows are taken in. -/
theorem readFrom_rows (hrows : ∀ r ∈ rows, r.Legible) (before : List Row) (n : Nat) (lines : List String) :
    readFrom validate { comments := comments, rows := before } n (rows.map Row.text ++ lines) =
      readFrom validate { comments := comments, rows := (numberRows n rows).reverse ++ before } (n + rows.length) lines := by
  induction rows generalizing before n with
  | nil => rfl
  | cons r rows ih =>
    obtain ⟨hr, hrest⟩ := List.forall_mem_cons.1 hrows
    rw [List.map_cons, List.cons_append, readFrom_cons (addLine_row hr), ih hrest]
    simp [numberRows, Nat.add_assoc, Nat.add_comm 1]

/-- A sentence is read as the graph that is built of its rows, whatever is recorded on the way. -/
theorem readSentence_run {g : Graph} (h : buildGraph comments rows = .ok g) (validate : Bool) (sink : Sink) :
    ∃ sink', (readSentence validate comments rows).run.run sink = (.ok g, sink') := by
  rw [readSentence, h]
  cases validate with
  | false => exact ⟨_, rfl⟩
  | true => exact ⟨_, rfl⟩

/-- A blank line ends a sentence with its graph. -/
theorem addLine_blank {g : Graph} (h : buildGraph comments rows = .ok g) (hrows : rows ≠ []) (n : Nat) (sink : Sink) :
    ∃ sink', (Sentence.addLine validate { comments := comments.reverse, rows := rows.reverse } n "").run.run sink =
      (.ok ({}, [g]), sink') := by
  obtain ⟨sink', hrun⟩ := readSentence_run h validate sink
  have hsome : rows.reverse.isEmpty = false := by
    rw [List.isEmpty_eq_false_iff]
    exact fun e => hrows (List.reverse_eq_nil_iff.1 e)
  have hfinish : (Sentence.finish validate { comments := comments.reverse, rows := rows.reverse } n "").run.run sink =
      (.ok [g], sink') := by
    rw [Sentence.finish, hsome]
    dsimp only [Bool.false_eq_true, if_false]
    rw [List.reverse_reverse, List.reverse_reverse]
    exact Recorded.run_bind_ok hrun
  refine ⟨sink', ?_⟩
  rw [Sentence.addLine, show Text.isAllBlank "".toList = true from rfl]
  exact Recorded.run_bind_ok hfinish

/-- Reading goes on behind a line that finishes graphs. -/
theorem readFrom_run {s s' : Sentence} {n : Nat} {line : String} {graphs : List Graph} {sink sink' : Sink}
    (h : (s.addLine validate n line).run.run sink = (.ok (s', graphs), sink')) (lines : List String) :
    (readFrom validate s n (line :: lines)).run sink =
      let (rest, sink'') := (readFrom validate s' (n + 1) lines).run sink'
      ({ rest with graphs := graphs ++ rest.graphs }, sink'') := by
  rw [readFrom, StateT.run_bind, h]
  rfl

/-! ## Sentences -/

/-- A legible sentence is read as the graph that is built of its rows, and reading goes on behind it. -/
theorem Legible.readFrom_eq (h : Legible comments rows) {n : Nat} {g : Graph}
    (hbuild : buildGraph comments (numberRows (n + comments.length) rows) = .ok g) (validate : Bool) (sink : Sink) :
    ∃ sink' m, ∀ lines, (readFrom validate {} n (sentenceLines comments rows ++ lines)).run sink =
      let (rest, sink'') := (readFrom validate {} m lines).run sink'
      ({ rest with graphs := g :: rest.graphs }, sink'') := by
  have hne : numberRows (n + comments.length) rows ≠ [] := by
    obtain ⟨r, rows, rfl⟩ := List.exists_cons_of_ne_nil h.nonempty
    exact List.cons_ne_nil _ _
  obtain ⟨sink', hblank⟩ := addLine_blank hbuild hne (n + comments.length + rows.length) sink
  refine ⟨sink', n + comments.length + rows.length + 1, fun lines => ?_⟩
  rw [sentenceLines, List.append_assoc, List.append_assoc, readFrom_comments (fun c hc => (h.comments c hc).1),
    readFrom_rows h.rows, List.append_nil, List.append_nil, List.singleton_append]
  exact readFrom_run hblank lines

/-- The lines of legible sentences, one after the other, are theirs. -/
theorem lines_of_legible {sentences : List (List String × List Row)} (h : ∀ s ∈ sentences, Legible s.1 s.2) :
    ((Text.lines (String.join (sentences.map fun s => sentenceText s.1 s.2)).toList).map String.ofList).map chomp =
      sentences.flatMap fun s => sentenceLines s.1 s.2 := by
  have hlines : ∀ line ∈ sentences.flatMap fun s => sentenceLines s.1 s.2,
      ∀ c ∈ line.toList, Text.isLineBreak c = false := by
    intro line hline
    obtain ⟨s, hs, hline⟩ := List.mem_flatMap.1 hline
    exact isLineBreak_of_mem_lines (h s hs) line hline
  have htext : (String.join (sentences.map fun s => sentenceText s.1 s.2)).toList =
      ((sentences.flatMap fun s => sentenceLines s.1 s.2).map String.toList).flatMap (· ++ ['\n']) := by
    simp [String.toList_join, toList_sentenceText, List.flatMap_map, List.map_flatMap, List.flatMap_assoc]
  rw [htext, Text.lines_flatMap, List.map_map, List.map_map]
  · refine (List.map_congr_left fun line hline => ?_).trans (List.map_id _)
    rw [Function.comp_apply, Function.comp_apply, String.ofList_toList, chomp_eq (hlines line hline)]
    rfl
  · intro l hl
    obtain ⟨line, hline, rfl⟩ := List.mem_map.1 hl
    exact hlines line hline

/-- A legible sentence alone is read as the graph that is built of its rows. -/
theorem Legible.read_eq_ok (h : Legible comments rows) {g : Graph}
    (hbuild : buildGraph comments (numberRows (1 + comments.length) rows) = .ok g) (validate : Bool) (sink : Sink) :
    ∃ sink', (read validate (sentenceText comments rows)).run.run sink = (.ok [g], sink') := by
  obtain ⟨sink', m, hrun⟩ := h.readFrom_eq hbuild validate sink
  have hlegible : ∀ s ∈ [(comments, rows)], Legible s.1 s.2 := List.forall_mem_singleton.2 h
  have hlines := lines_of_legible hlegible
  have htext : String.join [sentenceText comments rows] = sentenceText comments rows := String.empty_append
  rw [List.map_singleton, List.flatMap_singleton, htext] at hlines
  have hrun := hrun []
  rw [List.append_nil, ← hlines] at hrun
  refine ⟨sink', ?_⟩
  rw [read, readAll, readLines, ExceptT.run_mk, StateT.run_bind, hrun]
  rfl

end Treebank.Conllu

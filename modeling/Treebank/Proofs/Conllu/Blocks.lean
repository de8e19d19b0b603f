import Treebank.Proofs.Checked.Sentence
import Treebank.Proofs.Conllu.RoundTrip

/-!
# Which texts are read

Blank lines cut a text into blocks. A text is read exactly if every block that is not empty consists of comment lines and then of rows
that make a sentence, and each block gives the graph of its rows (`read_ok_iff`). A reader that goes from line to line takes the lines of
a block in one after the other (`foldlM_take_eq_ok_iff`) and finishes the block at the blank line behind it.
-/

namespace Treebank.Conllu

/-! ## Blocks -/

/-- The lines of a text with their numbers. -/
def numberedLines (text : String) : List (String × Nat) := ((Text.lines text.toList).map String.ofList).zipIdx 1

/-- What stands between the blank lines among some lines. -/
def blocks (lines : List (String × Nat)) : List (List (String × Nat)) :=
  (lines.splitOnP fun l => Text.isAllBlank l.1.toList).filter (· ≠ [])

/-- Whether a row has the columns of a line: what stands between its tabs, if that are ten columns, and otherwise what stands between
runs of tabs and spaces. -/
def Row.StandsIn (row : Row) (line : String × Nat) : Prop :=
  let tabbed := line.1.toList.splitOn '\t'
  row.lineNumber = line.2 ∧ row.columns.map String.toList =
    if tabbed.length = 10 then tabbed else ((Text.trim line.1.toList).splitOnP isGap).filter (· ≠ [])

/-- Whether a block consists of comment lines and then of the lines of rows, of which there is one at least. -/
structure IsBlock (block : List (String × Nat)) (comments : List String) (rows : List Row) : Prop where
  cut : ∃ commentLines rowLines, block = commentLines ++ rowLines ∧ commentLines.map (·.1) = comments ∧
    (∀ l ∈ commentLines, l.1.toList.head? = some '#') ∧ (∀ l ∈ rowLines, l.1.toList.head? ≠ some '#') ∧
    List.Forall₂ Row.StandsIn rows rowLines
  nonempty : rows ≠ []

/-! ## Lines of a block -/

/-- Takes a line that is not blank into the sentence at hand. -/
def Sentence.take (s : Sentence) (line : String × Nat) : Except FormatError Sentence :=
  if line.1.toList.head? == some '#' then
    if s.rows.isEmpty then .ok { s with comments := line.1 :: s.comments } else .error ⟨.commentInside, line.2, line.1⟩
  else (Row.ofLine line.2 line.1).map fun row => { s with rows := row :: s.rows }

/-- A row is made of columns exactly if they are its columns. -/
theorem ofColumns?_eq_some_iff {row : Row} {number : Nat} {columns : List String} :
    Row.ofColumns? number columns = some row ↔ row.lineNumber = number ∧ row.columns = columns := by
  unfold Row.ofColumns?
  split
  · rw [Option.some.injEq]
    constructor
    · rintro rfl
      exact ⟨rfl, rfl⟩
    · rintro ⟨hnumber, hcolumns⟩
      cases row
      simp only [Row.columns, Row.tail, List.cons.injEq] at hcolumns
      simp_all
  · rename_i hother
    refine iff_of_false (fun e => by cases e) ?_
    rintro ⟨-, hcolumns⟩
    exact hother _ _ _ _ _ _ _ _ _ _ hcolumns.symm

/-- A row is read from a line that is not blank exactly if it has the columns of the line. -/
theorem ofLine_eq_ok_iff {line : String × Nat} (h : Text.isAllBlank line.1.toList = false) {row : Row} :
    Row.ofLine line.2 line.1 = .ok row ↔ row.StandsIn line := by
  have hcolumns : ∀ {columns : List (List Char)}, row.columns = columns.map String.ofList ↔ row.columns.map String.toList = columns := by
    intro columns
    constructor
    · intro e
      rw [e, List.map_map]
      exact (List.map_congr_left fun cs _ => String.toList_ofList).trans (List.map_id _)
    · rintro rfl
      rw [List.map_map]
      exact ((List.map_congr_left fun c _ => String.ofList_toList).trans (List.map_id _)).symm
  rw [Row.StandsIn, ← hcolumns, Row.ofLine]
  have hof := columnsOf_eq h
  rw [columnCount] at hof
  rw [← hof, ← ofColumns?_eq_some_iff]
  cases Row.ofColumns? line.2 (columnsOf line.1.toList) <;> simp

/-- A comment line is taken in exactly if there is no row yet. -/
theorem take_comment_eq_ok_iff {s s' : Sentence} {line : String × Nat} (hmark : line.1.toList.head? = some '#') :
    s.take line = .ok s' ↔ s.rows = [] ∧ s' = { s with comments := line.1 :: s.comments } := by
  rw [Sentence.take, if_pos (beq_iff_eq.2 hmark)]
  cases hrows : s.rows <;> simp [eq_comm]

/-- Any other line is taken in exactly if it has the columns of a row. -/
theorem take_row_eq_ok_iff {s s' : Sentence} {line : String × Nat} (hline : Text.isAllBlank line.1.toList = false)
    (hmark : line.1.toList.head? ≠ some '#') :
    s.take line = .ok s' ↔ ∃ row : Row, row.StandsIn line ∧ s' = { s with rows := row :: s.rows } := by
  rw [Sentence.take, if_neg (by simpa using hmark)]
  simp only [← ofLine_eq_ok_iff hline]
  cases Row.ofLine line.2 line.1 <;> simp [Except.map, eq_comm]

/-- The lines of a block are taken in exactly if they are comment lines, of which there are none behind a row, and then rows. -/
theorem foldlM_take_eq_ok_iff {s s' : Sentence} {block : List (String × Nat)}
    (hblock : ∀ l ∈ block, Text.isAllBlank l.1.toList = false) :
    block.foldlM Sentence.take s = .ok s' ↔ ∃ commentLines rowLines rows, block = commentLines ++ rowLines ∧
      (∀ l ∈ commentLines, l.1.toList.head? = some '#') ∧ (∀ l ∈ rowLines, l.1.toList.head? ≠ some '#') ∧
      List.Forall₂ Row.StandsIn rows rowLines ∧ (s.rows ≠ [] → commentLines = []) ∧
      s' = { comments := (commentLines.map (·.1)).reverse ++ s.comments, rows := rows.reverse ++ s.rows } := by
  induction block generalizing s with
  | nil =>
    constructor
    · intro h
      cases h
      exact ⟨[], [], [], rfl, by simp, by simp, .nil, fun _ => rfl, rfl⟩
    · rintro ⟨commentLines, rowLines, rows, hcut, -, -, hrows, -, rfl⟩
      obtain ⟨rfl, rfl⟩ := List.append_eq_nil_iff.1 hcut.symm
      cases hrows
      rfl
  | cons l block ih =>
    obtain ⟨hl, hblock⟩ := List.forall_mem_cons.1 hblock
    rw [List.foldlM_cons, bind_eq_ok_iff]
    simp only [ih hblock]
    by_cases hmark : l.1.toList.head? = some '#'
    · simp only [take_comment_eq_ok_iff hmark]
      constructor
      · rintro ⟨_, ⟨hrows, rfl⟩, commentLines, rowLines, rows, rfl, hcomments, hrowLines, hstand, -, rfl⟩
        exact ⟨l :: commentLines, rowLines, rows, rfl, List.forall_mem_cons.2 ⟨hmark, hcomments⟩, hrowLines, hstand,
          fun hne => absurd hrows hne, by simp⟩
      · rintro ⟨commentLines, rowLines, rows, hcut, hcomments, hrowLines, hstand, hnone, rfl⟩
        cases commentLines with
        | nil =>
          rw [List.nil_append] at hcut
          exact absurd hmark (hrowLines l (hcut ▸ List.mem_cons_self ..))
        | cons c commentLines =>
          obtain ⟨rfl, rfl⟩ := List.cons.inj hcut
          have hrows : s.rows = [] := by
            by_contra hne
            cases hnone hne
          exact ⟨_, ⟨hrows, rfl⟩, commentLines, rowLines, rows, rfl, (List.forall_mem_cons.1 hcomments).2, hrowLines, hstand,
            fun hne => absurd hrows hne, by simp⟩
    · simp only [take_row_eq_ok_iff hl hmark]
      constructor
      · rintro ⟨_, ⟨row, hrow, rfl⟩, commentLines, rowLines, rows, rfl, -, hrowLines, hstand, hnone, rfl⟩
        obtain rfl := hnone (List.cons_ne_nil _ _)
        exact ⟨[], l :: rowLines, row :: rows, rfl, by simp, List.forall_mem_cons.2 ⟨hmark, hrowLines⟩, .cons hrow hstand,
          fun _ => rfl, by simp⟩
      · rintro ⟨commentLines, rowLines, rows, hcut, hcomments, hrowLines, hstand, -, rfl⟩
        cases commentLines with
        | cons c commentLines =>
          obtain ⟨rfl, -⟩ := List.cons.inj hcut
          exact absurd (hcomments l (List.mem_cons_self ..)) hmark
        | nil =>
          rw [List.nil_append] at hcut
          subst hcut
          cases hstand with
          | cons hrow hstand =>
            exact ⟨_, ⟨_, hrow, rfl⟩, [], block, _, rfl, by simp, (List.forall_mem_cons.1 hrowLines).2, hstand, fun _ => rfl, by simp⟩

/-! ## Reading line by line -/

/-- The graphs with which the sentence at hand is finished: none if there is no sentence. -/
def Sentence.Finishes (s : Sentence) (graphs : List Graph) : Prop :=
  s.rows = [] ∧ s.comments = [] ∧ graphs = [] ∨
    s.rows ≠ [] ∧ ∃ g, buildGraph s.comments.reverse s.rows.reverse = .ok g ∧ graphs = [g]

/-- The graphs that are read of the rest of the block at hand and the blocks behind it. -/
def Sentence.Reads (s : Sentence) : List (List (String × Nat)) → List Graph → Prop
  | [], graphs => graphs = []
  | block :: blocks, graphs => ∃ s' finished rest, block.foldlM Sentence.take s = .ok s' ∧ s'.Finishes finished ∧
    Sentence.Reads {} blocks rest ∧ graphs = finished ++ rest

variable {validate : Bool} {s : Sentence} {sink : Sink} {graphs : List Graph} {text : String}

/-- A sentence is finished with its graph, if one can be built. -/
theorem finish_eq_ok_iff (n : Nat) (line : String) :
    ((s.finish validate n line).run.run sink).1 = .ok graphs ↔ s.Finishes graphs := by
  unfold Sentence.Finishes
  by_cases hrows : s.rows = []
  · rw [Sentence.finish, if_pos (List.isEmpty_iff.2 hrows)]
    by_cases hcomments : s.comments = []
    · rw [if_pos (List.isEmpty_iff.2 hcomments)]
      show Except.ok [] = Except.ok graphs ↔ _
      simp [hrows, hcomments, eq_comm]
    · rw [if_neg (by simpa using hcomments)]
      refine iff_of_false (fun h => by cases h) ?_
      simp [hrows, hcomments]
  · rw [Sentence.finish, if_neg (by simpa using hrows)]
    rw [or_iff_right fun h => hrows h.1, and_iff_right hrows]
    cases hbuild : buildGraph s.comments.reverse s.rows.reverse with
    | ok g =>
      obtain ⟨sink', hrun⟩ := readSentence_run hbuild validate sink
      rw [Recorded.run_bind_ok hrun]
      show Except.ok [g] = Except.ok graphs ↔ _
      simp [eq_comm]
    | error e =>
      have hrun : (readSentence validate s.comments.reverse s.rows.reverse).run.run sink = (.error e, sink) := by
        rw [readSentence, hbuild]
        rfl
      rw [Recorded.run_bind_error hrun]
      refine iff_of_false (fun h => by cases h) ?_
      rintro ⟨_, hno, -⟩
      cases hno

/-- A line that is not blank is taken in. -/
theorem addLine_run (l : String × Nat) (h : Text.isAllBlank l.1.toList = false) :
    (s.addLine validate l.2 l.1).run.run sink = ((s.take l).map fun s' => (s', []), sink) := by
  rw [Sentence.addLine, h, if_neg Bool.false_ne_true, Sentence.take]
  split
  · split <;> rfl
  · cases Row.ofLine l.2 l.1 <;> rfl

/-- A blank line finishes the sentence at hand. -/
theorem addLine_blank_run {line : String} (h : Text.isAllBlank line.toList) (n : Nat) :
    (s.addLine validate n line).run.run sink =
      (((s.finish validate n line).run.run sink).1.map fun graphs => ({}, graphs), ((s.finish validate n line).run.run sink).2) := by
  rw [Sentence.addLine, if_pos h]
  cases hrun : (s.finish validate n line).run.run sink with
  | mk finished sink' =>
    cases finished with
    | ok graphs => exact Recorded.run_bind_ok hrun
    | error e => exact Recorded.run_bind_error hrun

/-- What is read when the next line is taken in or finishes graphs, and then the lines behind it. -/
theorem readFrom_cons_eq_ok_iff (line : String) (lines : List String) (n : Nat) :
    ((readFrom validate s n (line :: lines)).run sink).1.toExcept = .ok graphs ↔
      ∃ s' finished sink' rest, (s.addLine validate n line).run.run sink = (.ok (s', finished), sink') ∧
        ((readFrom validate s' (n + 1) lines).run sink').1.toExcept = .ok rest ∧ graphs = finished ++ rest := by
  cases hrun : (s.addLine validate n line).run.run sink with
  | mk taken sink' =>
    cases taken with
    | error e =>
      rw [readFrom, StateT.run_bind, hrun]
      refine iff_of_false (fun h => by cases h) ?_
      rintro ⟨_, _, _, _, hno, -⟩
      cases hno
    | ok r =>
      obtain ⟨s', finished⟩ := r
      rw [readFrom_run hrun]
      have hreading : ∀ reading : Reading, ({ reading with graphs := finished ++ reading.graphs } : Reading).toExcept = .ok graphs ↔
          ∃ rest, reading.toExcept = .ok rest ∧ graphs = finished ++ rest := by
        rintro ⟨rest, failure⟩
        cases failure <;> simp [Reading.toExcept, eq_comm]
      refine (hreading _).trans ?_
      constructor
      · rintro ⟨rest, hrest⟩
        exact ⟨s', finished, sink', rest, rfl, hrest⟩
      · rintro ⟨_, _, _, rest, htaken, hrest⟩
        cases htaken
        exact ⟨rest, hrest⟩

/-- What is read at the end of the lines is what the sentence at hand is finished with. -/
theorem readFrom_nil_eq (n : Nat) :
    ((readFrom validate s n []).run sink).1.toExcept = ((s.finish validate (n - 1) "").run.run sink).1 := by
  rw [readFrom, StateT.run_bind]
  cases hrun : (s.finish validate (n - 1) "").run.run sink with
  | mk finished sink' =>
    cases finished <;> rfl

/-- Lines are read one after the other as the blocks are that blank lines cut them into. -/
theorem readFrom_eq_ok_iff (lines : List String) (n : Nat) :
    ((readFrom validate s n lines).run sink).1.toExcept = .ok graphs ↔
      s.Reads ((lines.zipIdx n).splitOnP fun l => Text.isAllBlank l.1.toList) graphs := by
  induction lines generalizing s n sink graphs with
  | nil =>
    rw [readFrom_nil_eq, finish_eq_ok_iff, List.zipIdx_nil, List.splitOnP_nil]
    constructor
    · exact fun h => ⟨s, graphs, [], rfl, h, rfl, by simp⟩
    · rintro ⟨s', finished, rest, hs, hfinish, hrest, rfl⟩
      cases hs
      obtain rfl : rest = [] := hrest
      rwa [List.append_nil]
  | cons line lines ih =>
    rw [readFrom_cons_eq_ok_iff, List.zipIdx_cons, List.splitOnP_cons_eq_if_modifyHead]
    simp only [ih]
    by_cases hblank : Text.isAllBlank line.toList
    · rw [if_pos hblank, addLine_blank_run hblank]
      constructor
      · rintro ⟨s', finished, sink', rest, hrun, hrest, rfl⟩
        cases hfinish : ((s.finish validate n line).run.run sink).1 with
        | error e =>
          rw [hfinish] at hrun
          cases hrun
        | ok graphs =>
          rw [hfinish] at hrun
          cases hrun
          exact ⟨s, finished, rest, rfl, (finish_eq_ok_iff n line).1 hfinish, hrest, rfl⟩
      · rintro ⟨s', finished, rest, hs, hfinish, hrest, rfl⟩
        cases hs
        rw [(finish_eq_ok_iff n line).2 hfinish]
        exact ⟨{}, finished, _, rest, rfl, hrest, rfl⟩
    · have hline : Text.isAllBlank line.toList = false := by simpa using hblank
      obtain ⟨block, blocks, hblocks⟩ := List.exists_cons_of_ne_nil
        (List.splitOnP_ne_nil (fun l : String × Nat => Text.isAllBlank l.1.toList) (lines.zipIdx (n + 1)))
      rw [if_neg hblank, hblocks, List.modifyHead_cons, addLine_run (line, n) hline]
      simp only [Sentence.Reads, List.foldlM_cons]
      cases htake : s.take (line, n) with
      | error e =>
        refine iff_of_false ?_ ?_
        · rintro ⟨_, _, _, _, hno, -⟩
          cases hno
        · rintro ⟨_, _, _, hno, -⟩
          cases hno
      | ok s₁ =>
        constructor
        · rintro ⟨_, _, _, rest, hrun, hreads, rfl⟩
          cases hrun
          exact hreads
        · exact fun hreads => ⟨s₁, [], sink, graphs, rfl, hreads, rfl⟩

/-! ## Texts -/

/-- A block that is not empty is read as the graph that is built of its rows. -/
theorem take_finishes_iff {block : List (String × Nat)} (hne : block ≠ [])
    (hblock : ∀ l ∈ block, Text.isAllBlank l.1.toList = false) :
    (∃ s', block.foldlM Sentence.take {} = .ok s' ∧ s'.Finishes graphs) ↔
      ∃ g comments rows, IsBlock block comments rows ∧ buildGraph comments rows = .ok g ∧ graphs = [g] := by
  simp only [foldlM_take_eq_ok_iff hblock]
  constructor
  · rintro ⟨_, ⟨commentLines, rowLines, rows, rfl, hcomments, hrowLines, hstand, -, rfl⟩, hfinish⟩
    simp only [Sentence.Finishes, List.append_nil, List.reverse_reverse, List.reverse_eq_nil_iff, List.map_eq_nil_iff, ne_eq] at hfinish
    rcases hfinish with ⟨hrows, hnone, -⟩ | ⟨hrows, g, hbuild, rfl⟩
    · rw [hrows, List.forall₂_nil_left_iff] at hstand
      rw [hnone, hstand] at hne
      exact absurd rfl hne
    · exact ⟨g, _, rows, ⟨⟨commentLines, rowLines, rfl, rfl, hcomments, hrowLines, hstand⟩, hrows⟩, hbuild, rfl⟩
  · rintro ⟨g, comments, rows, ⟨⟨commentLines, rowLines, rfl, rfl, hcomments, hrowLines, hstand⟩, hrows⟩, hbuild, rfl⟩
    refine ⟨_, ⟨commentLines, rowLines, rows, rfl, hcomments, hrowLines, hstand, fun hno => absurd rfl hno, rfl⟩, .inr ⟨?_, g, ?_, rfl⟩⟩
    · simpa using hrows
    · simpa using hbuild

/-- The graphs that are read of blocks are those of the blocks that are not empty. -/
theorem reads_iff {bs : List (List (String × Nat))} (h : ∀ block ∈ bs, ∀ l ∈ block, Text.isAllBlank l.1.toList = false) :
    Sentence.Reads {} bs graphs ↔ List.Forall₂ (fun block g => ∃ comments rows, IsBlock block comments rows ∧
      buildGraph comments rows = .ok g) (bs.filter (· ≠ [])) graphs := by
  induction bs generalizing graphs with
  | nil => simp [Sentence.Reads]
  | cons block bs ih =>
    obtain ⟨hblock, hbs⟩ := List.forall_mem_cons.1 h
    by_cases hne : block = []
    · subst hne
      rw [List.filter_cons_of_neg (by simp), ← ih hbs]
      constructor
      · rintro ⟨s', finished, rest, hs, hfinish, hrest, rfl⟩
        cases hs
        rcases hfinish with ⟨-, -, rfl⟩ | ⟨hno, -⟩
        · exact hrest
        · exact absurd rfl hno
      · exact fun hreads => ⟨{}, [], graphs, rfl, .inl ⟨rfl, rfl, rfl⟩, hreads, rfl⟩
    · rw [List.filter_cons_of_pos (by simpa using hne), List.forall₂_cons_left_iff]
      simp only [← ih hbs]
      constructor
      · rintro ⟨s', finished, rest, hs, hfinish, hrest, rfl⟩
        obtain ⟨g, comments, rows, hisBlock, hbuild, rfl⟩ := (take_finishes_iff hne hblock).1 ⟨s', hs, hfinish⟩
        exact ⟨g, rest, ⟨comments, rows, hisBlock, hbuild⟩, hrest, rfl⟩
      · rintro ⟨g, rest, ⟨comments, rows, hisBlock, hbuild⟩, hrest, rfl⟩
        obtain ⟨s', hs, hfinish⟩ := (take_finishes_iff hne hblock).2 ⟨g, comments, rows, hisBlock, hbuild, rfl⟩
        exact ⟨s', [g], rest, hs, hfinish, hrest, rfl⟩

/-- The lines of a text have no line breaks at their ends that are left out, and are read from the first one on. -/
theorem read_run : ((read validate text).run.run sink).1 =
    ((readFrom validate {} 1 ((Text.lines text.toList).map String.ofList)).run sink).1.toExcept := by
  have hlines : ((Text.lines text.toList).map String.ofList).map chomp = (Text.lines text.toList).map String.ofList := by
    rw [List.map_map]
    refine List.map_congr_left fun l hl => chomp_eq fun c hc => ?_
    rw [String.toList_ofList] at hc
    exact Text.isLineBreak_of_mem_lines hl c hc
  rw [read, readAll, readLines, hlines]
  rfl

/-- A text is read as the graphs that are built of its blocks. -/
theorem read_eq_ok_iff :
    ((read validate text).run.run sink).1 = .ok graphs ↔ List.Forall₂ (fun block g => ∃ comments rows,
      IsBlock block comments rows ∧ buildGraph comments rows = .ok g) (blocks (numberedLines text)) graphs := by
  rw [read_run, readFrom_eq_ok_iff, reads_iff fun block hblock => (Text.of_mem_splitOnP hblock).1]
  rfl

/-- What is related to members of a list is related to one of them each. -/
theorem exists_of_mem_forall₂ {α β : Type} {R : α → β → Prop} {as : List α} {bs : List β} (h : List.Forall₂ R as bs) {b : β} (hb : b ∈ bs) :
    ∃ a ∈ as, R a b := by
  induction h with
  | nil => cases hb
  | cons hab _ ih =>
    rcases List.mem_cons.1 hb with rfl | hb
    · exact ⟨_, List.mem_cons_self .., hab⟩
    · obtain ⟨a, ha, hab⟩ := ih hb
      exact ⟨a, List.mem_cons_of_mem _ ha, hab⟩

/-- A graph that is read is built of the rows of a block. -/
theorem exists_block_of_read {sink' : Sink} (h : (read validate text).run.run sink = (.ok graphs, sink')) {g : Graph} (hg : g ∈ graphs) :
    ∃ block ∈ blocks (numberedLines text), ∃ comments rows, IsBlock block comments rows ∧ buildGraph comments rows = .ok g :=
  exists_of_mem_forall₂ (read_eq_ok_iff.1 (congrArg Prod.fst h)) hg

end Treebank.Conllu

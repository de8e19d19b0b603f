import Mathlib.Order.Bounds.Defs
import Treebank.Proofs.Conllu.Flaws

/-!
# The line at which reading fails

Reading fails in the first sentence with a flaw, and there for the first fault of the first pass that finds one (`isFirst_of_read`). So
the line is the first malformed one of the text, unless a line above in the same sentence is malformed in a way that is only found by a
later pass.
-/

namespace Treebank.Conllu

variable {block : List (String × Nat)} {stop k : Nat} {fault : Fault} {e : FormatError} {s : Sentence}

/-! ## Blocks -/

/-- Whether a line is a comment line. -/
def IsComment (line : String × Nat) : Prop := line.1.toList.head? = some '#'

instance (line : String × Nat) : Decidable (IsComment line) := inferInstanceAs (Decidable (_ = _))

/-- The row in a line, if it is no comment line and has the columns of one. -/
def lineRow? (line : String × Nat) : Option Row := if IsComment line then none else (Row.ofLine line.2 line.1).toOption

/-- The rows in the lines of a block. -/
def blockRows (block : List (String × Nat)) : List Row := block.filterMap lineRow?

/-- What is wrong with a block, and at which line; `stop` is the line at which it ends. -/
inductive Flaw (block : List (String × Nat)) (stop : Nat) : Fault → Nat → Prop
  /-- A line that is no comment line does not have ten columns. -/
  | columns {l : String × Nat} (hl : l ∈ block) (hrow : ¬ IsComment l) (hnone : ∀ row : Row, ¬ row.StandsIn l) :
      Flaw block stop (.columnCount (columnsOf l.1.toList).length) l.2
  /-- A comment line stands behind another line. -/
  | comment {before after : List (String × Nat)} {l r : String × Nat} (hcut : block = before ++ l :: after) (hmark : IsComment l)
      (hr : r ∈ before) (hrow : ¬ IsComment r) : Flaw block stop .commentInside l.2
  /-- All lines are comment lines. -/
  | alone (hall : ∀ l ∈ block, IsComment l) : Flaw block stop .commentsAlone stop
  /-- Something is wrong with a row. -/
  | row {fault : Fault} {k : Nat} (h : RowFlaw (blockRows block) fault k) : Flaw block stop fault k

/-- Flaws of rows are not found while lines come in. -/
theorem RowFlaw.pass_pos {rows : List Row} (h : RowFlaw rows fault k) : 0 < fault.pass := by
  cases h with
  | id _ h => rw [h.pass_eq]; decide
  | head _ h => rw [h.pass_eq]; decide

/-- The rows that stand in the lines behind the comment lines are the rows of the block. -/
theorem blockRows_eq {commentLines rowLines : List (String × Nat)} {rows : List Row} (hcomments : ∀ l ∈ commentLines, IsComment l)
    (hrows : ∀ l ∈ rowLines, ¬ IsComment l) (hblank : ∀ l ∈ rowLines, Text.isAllBlank l.1.toList = false)
    (hstand : List.Forall₂ Row.StandsIn rows rowLines) : blockRows (commentLines ++ rowLines) = rows := by
  have hnone : blockRows commentLines = [] := List.filterMap_eq_nil_iff.2 fun l hl => if_pos (hcomments l hl)
  rw [blockRows, List.filterMap_append, ← blockRows, hnone, List.nil_append]
  induction hstand with
  | nil => rfl
  | cons hrow _ ih =>
    obtain ⟨hl, hothers⟩ := List.forall_mem_cons.1 hrows
    obtain ⟨hfull, hblank⟩ := List.forall_mem_cons.1 hblank
    rw [List.filterMap_cons, lineRow?, if_neg hl, (ofLine_eq_ok_iff hfull).2 hrow, ih hothers hblank]
    rfl

/-- The number of a row is that of its line. -/
theorem lineNumber_of_lineRow? {l : String × Nat} {row : Row} (h : lineRow? l = some row) : row.lineNumber = l.2 := by
  unfold lineRow? Row.ofLine Row.ofColumns? at h
  split at h
  · cases h
  · dsimp only at h
    split at h
    · rename_i hcolumns
      cases h
      split at hcolumns
      · cases hcolumns
        rfl
      · cases hcolumns
    · cases h

/-- The rows of a block go up as its lines do. -/
theorem pairwise_blockRows (hnumbers : block.Pairwise (·.2 < ·.2)) : (blockRows block).Pairwise (·.lineNumber < ·.lineNumber) := by
  refine hnumbers.filterMap lineRow? fun l l' hlt row hrow row' hrow' => ?_
  rw [lineNumber_of_lineRow? hrow, lineNumber_of_lineRow? hrow']
  exact hlt

/-- A flaw of a block is at one of its lines, or where it ends. -/
theorem Flaw.at_line (h : Flaw block stop fault k) : (∃ l ∈ block, k = l.2) ∨ k = stop := by
  have hrow : ∀ {row}, row ∈ blockRows block → ∃ l ∈ block, row.lineNumber = l.2 := by
    intro row h
    obtain ⟨l, hl, hrow⟩ := List.mem_filterMap.1 h
    exact ⟨l, hl, lineNumber_of_lineRow? hrow⟩
  cases h with
  | columns hl => exact .inl ⟨_, hl, rfl⟩
  | comment hcut => exact .inl ⟨_, hcut ▸ by simp, rfl⟩
  | alone => exact .inr rfl
  | row h =>
    cases h with
    | id hcut => exact .inl (hrow (hcut ▸ by simp))
    | head hmem => exact .inl (hrow (List.mem_of_mem_filter hmem))

/-- The rows of lines that were taken in. -/
theorem rows_of_take (hblank : ∀ l ∈ block, Text.isAllBlank l.1.toList = false) (h : block.foldlM Sentence.take {} = .ok s) :
    s.rows.reverse = blockRows block := by
  obtain ⟨commentLines, rowLines, rows, rfl, hcomments, hrowLines, hstand, -, rfl⟩ := (foldlM_take_eq_ok_iff hblank).1 h
  rw [blockRows_eq hcomments hrowLines (fun l hl => hblank l (List.mem_append_right _ hl)) hstand]
  simp

/-- Lines that were all taken in have no flaws but those of their rows, or all are comment lines. -/
theorem flaw_iff_of_take (hblank : ∀ l ∈ block, Text.isAllBlank l.1.toList = false) (h : block.foldlM Sentence.take {} = .ok s) :
    Flaw block stop fault k ↔ RowFlaw s.rows.reverse fault k ∨ s.rows = [] ∧ fault = .commentsAlone ∧ k = stop := by
  obtain ⟨commentLines, rowLines, rows, rfl, hcomments, hrowLines, hstand, -, rfl⟩ := (foldlM_take_eq_ok_iff hblank).1 h
  have hrows : blockRows (commentLines ++ rowLines) = rows :=
    blockRows_eq hcomments hrowLines (fun l hl => hblank l (List.mem_append_right _ hl)) hstand
  have hnone : rows = [] ↔ rowLines = [] := by
    rw [← List.length_eq_zero_iff, hstand.length_eq, List.length_eq_zero_iff]
  simp only [List.append_nil, List.reverse_reverse, List.reverse_eq_nil_iff, hnone]
  constructor
  · intro hflaw
    cases hflaw with
    | columns hl hrow hno =>
      obtain ⟨row, -, hstands⟩ := exists_of_mem_forall₂ hstand ((List.mem_append.1 hl).resolve_left fun hl => hrow (hcomments _ hl))
      exact absurd hstands (hno row)
    | comment hcut hmark hr hrow =>
      rcases List.append_eq_append_iff.1 hcut with ⟨_, hbefore, hrest⟩ | ⟨_, hfirst, -⟩
      · exact absurd hmark (hrowLines _ (hrest ▸ by simp))
      · exact absurd (hcomments _ (hfirst ▸ List.mem_append_left _ hr)) hrow
    | alone hall =>
      refine .inr ⟨List.eq_nil_iff_forall_not_mem.2 fun l hl => hrowLines l hl (hall l (List.mem_append_right _ hl)), rfl, rfl⟩
    | row hflaw => exact .inl (hrows ▸ hflaw)
  · rintro (hflaw | ⟨rfl, rfl, rfl⟩)
    · exact .row (hrows.symm ▸ hflaw)
    · exact .alone fun l hl => hcomments l (by simpa using hl)

/-- Lines that were all taken in have no flaw that is found while lines come in, but that there may be comment lines alone. -/
theorem pass_pos_of_take (hblank : ∀ l ∈ block, Text.isAllBlank l.1.toList = false) (h : block.foldlM Sentence.take {} = .ok s)
    (hflaw : Flaw block stop fault k) (hfault : fault ≠ .commentsAlone) : 0 < fault.pass :=
  ((flaw_iff_of_take hblank h).1 hflaw).elim RowFlaw.pass_pos fun halone => absurd halone.2.1 hfault

/-- A line that is not taken in has a flaw that is found while lines come in, and not all lines up to it are comment lines. -/
theorem flaw_of_take_eq_error {before after : List (String × Nat)} {l : String × Nat}
    (hblank : ∀ r ∈ before ++ l :: after, Text.isAllBlank r.1.toList = false) (hbefore : before.foldlM Sentence.take {} = .ok s)
    (hl : s.take l = .error e) : Flaw (before ++ l :: after) stop e.fault e.lineNumber ∧ e.fault.pass = 0 ∧ e.lineNumber = l.2 ∧
      ∃ r ∈ before ++ l :: after, ¬ IsComment r := by
  unfold Sentence.take at hl
  split at hl
  · rename_i hmark
    split at hl
    · cases hl
    rename_i hrows
    cases hl
    obtain ⟨commentLines, rowLines, rows, rfl, -, hrowLines, hstand, -, rfl⟩ :=
      (foldlM_take_eq_ok_iff fun r hr => hblank r (List.mem_append_left _ hr)).1 hbefore
    have hne : rowLines ≠ [] := by
      rintro rfl
      cases hstand
      exact hrows rfl
    obtain ⟨r, hr⟩ := List.exists_mem_of_ne_nil _ hne
    have hmem := List.mem_append_right commentLines hr
    exact ⟨.comment rfl (beq_iff_eq.1 hmark) hmem (hrowLines r hr), rfl, rfl, r, List.mem_append_left _ hmem, hrowLines r hr⟩
  · rename_i hmark
    have hmem : l ∈ before ++ l :: after := by simp
    have hrow : ¬ IsComment l := fun h => hmark (beq_iff_eq.2 h)
    have hiff : ∀ row : Row, Row.ofLine l.2 l.1 = .ok row ↔ row.StandsIn l := fun _ => ofLine_eq_ok_iff (hblank l hmem)
    cases hof : Row.ofLine l.2 l.1 with
    | ok row =>
      rw [hof] at hl
      cases hl
    | error e' =>
      simp only [hof, reduceCtorEq, false_iff] at hiff
      rw [hof] at hl
      cases hl
      unfold Row.ofLine at hof
      dsimp only at hof
      split at hof
      · cases hof
      · cases hof
        exact ⟨.columns hmem hrow hiff, rfl, rfl, l, hmem, hrow⟩

/-- Lines of which one is not taken in fail for their first flaw. -/
theorem isFirst_of_take (hblank : ∀ l ∈ block, Text.isAllBlank l.1.toList = false) (hnumbers : block.Pairwise (·.2 < ·.2))
    (h : block.foldlM Sentence.take {} = .error e) : IsFirst (Flaw block stop) e.fault e.lineNumber := by
  obtain ⟨before, l, after, s, rfl, hbefore, hl⟩ := foldlM_eq_error_iff.1 h
  obtain ⟨hflaw, hpass, hline, r, hr, hrow⟩ := flaw_of_take_eq_error hblank hbefore hl
  -- The lines above have no flaw of the first pass, so any other one of this pass is at the line or below.
  have hnone : ∀ fault k, Flaw before stop fault k → fault ≠ .commentsAlone → 0 < fault.pass := fun _ _ =>
    pass_pos_of_take (fun l hl => hblank l (List.mem_append_left _ hl)) hbefore
  refine ⟨hflaw, fun fault' k' hother => ?_⟩
  rw [hpass, hline]
  cases hother with
  | columns hl' hrow' hstands' =>
    refine .inr ⟨rfl, le_of_pairwise hnumbers hl' fun hmem => ?_⟩
    exact absurd (hnone _ _ (.columns hmem hrow' hstands') (by simp)) (Nat.lt_irrefl 0)
  | comment hcut hmark hr' hrow' =>
    rcases le_or_cut_of_pairwise hnumbers hcut with hle | ⟨between, hcut⟩
    · exact .inr ⟨rfl, hle⟩
    · exact absurd (hnone _ _ (.comment hcut hmark hr' hrow') (by simp)) (Nat.lt_irrefl 0)
  | alone hall => exact absurd (hall r hr) hrow
  | row h => exact .inl h.pass_pos

/-- Reading stops in a block that ends at the line `stop`, when the lines are taken in or when the sentence is finished. -/
def Stops (block : List (String × Nat)) (stop : Nat) (e : FormatError) : Prop :=
  block.foldlM Sentence.take {} = .error e ∨
    ∃ s, block.foldlM Sentence.take {} = .ok s ∧
      (s.rows = [] ∧ s.comments ≠ [] ∧ e.fault = .commentsAlone ∧ e.lineNumber = stop ∨
        s.rows ≠ [] ∧ buildGraph s.comments.reverse s.rows.reverse = .error e)

/-- Reading stops in a block for its first flaw. -/
theorem Stops.isFirst (h : Stops block stop e) (hblank : ∀ l ∈ block, Text.isAllBlank l.1.toList = false)
    (hnumbers : block.Pairwise (·.2 < ·.2)) : IsFirst (Flaw block stop) e.fault e.lineNumber := by
  rcases h with h | ⟨s, hs, h⟩
  · exact isFirst_of_take hblank hnumbers h
  have hiff : ∀ fault k, Flaw block stop fault k ↔ RowFlaw s.rows.reverse fault k ∨ s.rows = [] ∧ fault = .commentsAlone ∧ k = stop :=
    fun _ _ => flaw_iff_of_take hblank hs
  rcases h with ⟨hrows, -, hfault, hline⟩ | ⟨hrows, hbuild⟩
  · have hno : ∀ fault k, ¬ RowFlaw [] fault k := by
      intro fault k h
      cases h with
      | id hcut => simp at hcut
      | head hrow => simp [tokenRows] at hrow
    simp only [hrows, List.reverse_nil, hno, false_or, true_and] at hiff
    rw [hfault, hline]
    refine ⟨(hiff _ _).2 ⟨rfl, rfl⟩, fun fault k hflaw => ?_⟩
    obtain ⟨rfl, rfl⟩ := (hiff _ _).1 hflaw
    exact .inr ⟨rfl, Nat.le_refl _⟩
  · simp only [hrows, false_and, or_false] at hiff
    obtain ⟨hstands, hfirst⟩ := isFirst_of_buildGraph (rows_of_take hblank hs ▸ pairwise_blockRows hnumbers) hbuild
    exact ⟨(hiff _ _).2 hstands, fun fault k hflaw => hfirst fault k ((hiff _ _).1 hflaw)⟩

/-- A block that is finished with a graph has no flaw. -/
theorem not_flaw_of_finishes {graphs : List Graph} (hne : block ≠ []) (hblank : ∀ l ∈ block, Text.isAllBlank l.1.toList = false)
    (hs : block.foldlM Sentence.take {} = .ok s) (hfinish : s.Finishes graphs) : ¬ Flaw block stop fault k := by
  rw [flaw_iff_of_take hblank hs]
  rcases hfinish with ⟨hrows, hcomments, -⟩ | ⟨hrows, g, hbuild, -⟩
  · obtain ⟨commentLines, rowLines, rows, rfl, -, -, hstand, -, rfl⟩ := (foldlM_take_eq_ok_iff hblank).1 hs
    simp only [List.append_nil, List.reverse_eq_nil_iff] at hrows
    simp only [List.append_nil, List.reverse_eq_nil_iff, List.map_eq_nil_iff] at hcomments
    rw [hrows, List.forall₂_nil_left_iff] at hstand
    rw [hcomments, hstand] at hne
    exact absurd rfl hne
  · rintro (hflaw | ⟨hnone, -⟩)
    · exact not_rowFlaw_of_buildGraph hbuild hflaw
    · exact hrows hnone

/-! ## Texts -/

/-- A sentence among some lines: what stands between two blank lines, or between one and an end. -/
structure Stretch (lines before block after : List (String × Nat)) : Prop where
  cut : lines = before ++ (block ++ after)
  nonempty : block ≠ []
  full : ∀ l ∈ block, Text.isAllBlank l.1.toList = false
  first : ∀ l ∈ before.getLast?, Text.isAllBlank l.1.toList = true
  last : ∀ l ∈ after.head?, Text.isAllBlank l.1.toList = true

/-- The line at which a sentence ends: the blank line behind it, or its last line if there is none. -/
def endLine (block after : List (String × Nat)) : Nat := ((after.head?.or block.getLast?).map (·.2)).getD 0

/-- A line is malformed: it is at fault in its sentence. -/
def Malformed (lines : List (String × Nat)) (fault : Fault) (k : Nat) : Prop :=
  ∃ before block after, Stretch lines before block after ∧ Flaw block (endLine block after) fault k

variable {lines before after first rest : List (String × Nat)} {l : String × Nat}

/-- Lines that are not blank are one sentence. -/
theorem Stretch.of_full (h : Stretch first before block after) (hfirst : ∀ l ∈ first, Text.isAllBlank l.1.toList = false) :
    before = [] ∧ block = first ∧ after = [] := by
  obtain ⟨rfl, hne, hfull, hbefore, hafter⟩ := h
  have hnone : ∀ {l}, l ∈ before ++ (block ++ after) → Text.isAllBlank l.1.toList = true → False := fun hl hblank => by
    rw [hfirst _ hl] at hblank
    cases hblank
  obtain rfl : before = [] := by
    by_contra hne
    have hl := List.getLast?_eq_some_getLast hne
    exact hnone (List.mem_append_left _ (List.getLast_mem hne)) (hbefore _ hl)
  obtain rfl : after = [] := by
    by_contra hne
    obtain ⟨l, after, rfl⟩ := List.exists_cons_of_ne_nil hne
    exact hnone (by simp) (hafter l rfl)
  simp

/-- A sentence is what stands before the first blank line, or is one of the lines behind it. -/
theorem Stretch.of_cons (h : Stretch (first ++ l :: rest) before block after) (hfirst : ∀ l ∈ first, Text.isAllBlank l.1.toList = false)
    (hl : Text.isAllBlank l.1.toList = true) :
    before = [] ∧ block = first ∧ after = l :: rest ∨ ∃ before', before = first ++ l :: before' ∧ Stretch rest before' block after := by
  obtain ⟨hcut, hne, hfull, hbefore, hafter⟩ := h
  have hnone : ∀ {r}, r ∈ first → Text.isAllBlank r.1.toList = true → False := fun hr hblank => by
    rw [hfirst _ hr] at hblank
    cases hblank
  by_cases hempty : before = []
  · left
    rw [hempty, List.nil_append] at hcut
    rcases List.append_eq_append_iff.1 hcut with ⟨between, hblock, hbehind⟩ | ⟨between, hstart, hbehind⟩
    · cases between with
      | nil => exact ⟨hempty, by rw [hblock, List.append_nil], hbehind.symm⟩
      | cons c between =>
        obtain ⟨rfl, -⟩ := List.cons.inj hbehind
        rw [hfull l (by simp [hblock])] at hl
        cases hl
    · cases between with
      | nil => exact ⟨hempty, by rw [hstart, List.append_nil], hbehind⟩
      | cons c between => exact (hnone (hstart ▸ by simp) (hafter c (by rw [hbehind]; rfl))).elim
  · right
    have hlast := List.getLast?_eq_some_getLast hempty
    rcases List.append_eq_append_iff.1 hcut with ⟨between, hstart, hbehind⟩ | ⟨between, hstart, -⟩
    · cases between with
      | nil =>
        rw [List.append_nil] at hstart
        exact (hnone (hstart ▸ List.getLast_mem hempty) (hbefore _ hlast)).elim
      | cons c before' =>
        obtain ⟨rfl, rfl⟩ := List.cons.inj hbehind
        refine ⟨before', hstart, rfl, hne, hfull, fun r hr => hbefore r ?_, hafter⟩
        rw [hstart, List.getLast?_append, List.getLast?_cons, Option.mem_def.1 hr]
        rfl
    · exact (hnone (hstart ▸ List.mem_append_left _ (List.getLast_mem hempty)) (hbefore _ hlast)).elim

/-- A sentence of the lines behind a blank line is one of all lines. -/
theorem Stretch.cons (h : Stretch rest before block after) (hl : Text.isAllBlank l.1.toList = true) :
    Stretch (first ++ l :: rest) (first ++ l :: before) block after := by
  refine ⟨by rw [h.cut]; simp, h.nonempty, h.full, fun r hr => ?_, h.last⟩
  rw [List.getLast?_append, List.getLast?_cons] at hr
  cases hbefore : before.getLast? with
  | none =>
    rw [hbefore] at hr
    cases hr
    exact hl
  | some b =>
    rw [hbefore] at hr
    cases hr
    exact h.first b hbefore

/-- The line at which a sentence ends is one of the lines from its first one on. -/
theorem exists_endLine (hne : block ≠ []) : ∃ l ∈ block ++ after, endLine block after = l.2 := by
  cases after with
  | nil => exact ⟨block.getLast hne, by simp, by simp [endLine, List.getLast?_eq_some_getLast hne]⟩
  | cons l after => exact ⟨l, by simp, rfl⟩

/-- A malformed line is one of the lines. -/
theorem Malformed.exists_line (h : Malformed lines fault k) : ∃ l ∈ lines, k = l.2 := by
  obtain ⟨before, block, after, hstretch, hflaw⟩ := h
  rw [hstretch.cut]
  rcases hflaw.at_line with ⟨l, hl, hk⟩ | hk
  · exact ⟨l, by simp [hl], hk⟩
  · obtain ⟨l, hl, hend⟩ : ∃ l ∈ block ++ after, endLine block after = l.2 := exists_endLine hstretch.nonempty
    exact ⟨l, List.mem_append_right _ hl, hk.trans hend⟩

/-! ## Reading -/

variable {validate : Bool} {sink : Sink}

/-- Finishing a sentence fails where it has comment lines alone, or where no graph can be built of its rows. -/
theorem of_finish_eq_error {n : Nat} {line : String} (h : ((s.finish validate n line).run.run sink).1 = .error e) :
    s.rows = [] ∧ s.comments ≠ [] ∧ e.fault = .commentsAlone ∧ e.lineNumber = n ∨
      s.rows ≠ [] ∧ buildGraph s.comments.reverse s.rows.reverse = .error e := by
  unfold Sentence.finish at h
  by_cases hrows : s.rows = []
  · rw [if_pos (List.isEmpty_iff.2 hrows)] at h
    split at h
    · cases h
    · rename_i hcomments
      cases h
      exact .inl ⟨hrows, fun hnone => hcomments (List.isEmpty_iff.2 hnone), rfl, rfl⟩
  · rw [if_neg (by simpa using hrows)] at h
    refine .inr ⟨hrows, ?_⟩
    cases hbuild : buildGraph s.comments.reverse s.rows.reverse with
    | ok g =>
      obtain ⟨sink', hrun⟩ := readSentence_run hbuild validate sink
      rw [Recorded.run_bind_ok hrun] at h
      cases h
    | error e' =>
      have hrun : (readSentence validate s.comments.reverse s.rows.reverse).run.run sink = (.error e', sink) := by
        rw [readSentence, hbuild]
        rfl
      rw [Recorded.run_bind_error hrun] at h
      cases h
      rfl

/-- What is read after a line was taken in fails where the lines behind it do. -/
theorem of_readFrom_eq_error {s' : Sentence} {n : Nat} {line : String} {graphs : List Graph} {sink' : Sink}
    (hline : (s.addLine validate n line).run.run sink = (.ok (s', graphs), sink')) {rest : List String}
    (h : ((readFrom validate s n (line :: rest)).run sink).1.toExcept = .error e) :
    ((readFrom validate s' (n + 1) rest).run sink').1.toExcept = .error e := by
  rw [readFrom_run hline] at h
  generalize (readFrom validate s' (n + 1) rest).run sink' = reading at h ⊢
  obtain ⟨⟨graphs', failure⟩, sink''⟩ := reading
  cases failure with
  | none => cases h
  | some e' => exact h

/-- Where a line is not taken in, reading fails. -/
theorem eq_of_readFrom_eq_error {n : Nat} {line : String} {e' : FormatError} {sink' : Sink}
    (hline : (s.addLine validate n line).run.run sink = (.error e', sink')) {rest : List String}
    (h : ((readFrom validate s n (line :: rest)).run sink).1.toExcept = .error e) : e' = e := by
  rw [readFrom, StateT.run_bind, hline] at h
  cases h
  rfl

/-- Reading lines that are not blank, and then others, fails where one of the first is not taken in, or behind them. -/
theorem of_readFrom_append {n : Nat} {first : List String} (hfirst : ∀ l ∈ first, Text.isAllBlank l.toList = false) {rest : List String}
    (h : ((readFrom validate s n (first ++ rest)).run sink).1.toExcept = .error e) :
    (first.zipIdx n).foldlM Sentence.take s = .error e ∨ ∃ s', (first.zipIdx n).foldlM Sentence.take s = .ok s' ∧
      ((readFrom validate s' (n + first.length) rest).run sink).1.toExcept = .error e := by
  induction first generalizing s n with
  | nil => exact .inr ⟨s, rfl, h⟩
  | cons line first ih =>
    obtain ⟨hline, hothers⟩ := List.forall_mem_cons.1 hfirst
    rw [List.zipIdx_cons, List.foldlM_cons]
    have hrun : (s.addLine validate n line).run.run sink = ((s.take (line, n)).map fun s' => (s', []), sink) := addLine_run (line, n) hline
    cases htake : s.take (line, n) with
    | error e' =>
      rw [htake] at hrun
      exact .inl (by rw [eq_of_readFrom_eq_error hrun h, bind_error])
    | ok s₁ =>
      rw [htake] at hrun
      have hrest := ih hothers (of_readFrom_eq_error hrun h)
      rwa [Nat.add_right_comm n 1 first.length] at hrest

/-- Reading the rest of a text fails where its first sentence cannot be finished, or behind the blank line at its end. -/
theorem of_readFrom_cons {n : Nat} {line : String} (hline : Text.isAllBlank line.toList = true) {rest : List String}
    (h : ((readFrom validate s n (line :: rest)).run sink).1.toExcept = .error e) :
    ((s.finish validate n line).run.run sink).1 = .error e ∨ ∃ graphs sink', ((s.finish validate n line).run.run sink).1 = .ok graphs ∧
      ((readFrom validate {} (n + 1) rest).run sink').1.toExcept = .error e := by
  have hrun : (s.addLine validate n line).run.run sink =
      (((s.finish validate n line).run.run sink).1.map fun graphs => ({}, graphs), ((s.finish validate n line).run.run sink).2) :=
    addLine_blank_run hline n
  cases hfinish : ((s.finish validate n line).run.run sink).1 with
  | error e' =>
    rw [hfinish] at hrun
    exact .inl (congrArg _ (eq_of_readFrom_eq_error hrun h))
  | ok graphs =>
    rw [hfinish] at hrun
    exact .inr ⟨graphs, _, rfl, of_readFrom_eq_error hrun h⟩

/-! ## The first malformed line -/

/-- Reading stops in no block without lines. -/
theorem Stops.ne_nil (h : Stops block stop e) : block ≠ [] := by
  rintro rfl
  rcases h with h | ⟨s, hs, ⟨-, hcomments, -⟩ | ⟨hrows, -⟩⟩
  · cases h
  · cases hs
    exact hcomments rfl
  · cases hs
    exact hrows rfl

/-- Where reading stops in the first sentence, that is for its first flaw, and malformed lines of other sentences are below. -/
theorem Stops.first_sentence (h : Stops first (endLine first after) e) (hfull : ∀ l ∈ first, Text.isAllBlank l.1.toList = false)
    (hafter : ∀ l ∈ after.head?, Text.isAllBlank l.1.toList = true) (hnumbers : (first ++ after).Pairwise (·.2 < ·.2)) :
    Stretch (first ++ after) [] first after ∧ IsFirst (Flaw first (endLine first after)) e.fault e.lineNumber ∧
      ∀ fault k, Malformed (first ++ after) fault k → Flaw first (endLine first after) fault k ∨ e.lineNumber < k := by
  have hfirst := h.isFirst hfull (List.pairwise_append.1 hnumbers).1
  refine ⟨⟨rfl, h.ne_nil, hfull, by simp, hafter⟩, hfirst, ?_⟩
  rintro fault k ⟨before, block, after', hstretch, hflaw⟩
  cases after with
  | nil =>
    obtain ⟨-, rfl, rfl⟩ := (List.append_nil first ▸ hstretch).of_full hfull
    exact .inl hflaw
  | cons l rest =>
    rcases hstretch.of_cons hfull (hafter l rfl) with ⟨-, rfl, rfl⟩ | ⟨before, -, hstretch⟩
    · exact .inl hflaw
    · obtain ⟨-, hbehind, hacross⟩ := List.pairwise_append.1 hnumbers
      obtain ⟨r, hr, rfl⟩ := Malformed.exists_line ⟨before, block, after', hstretch, hflaw⟩
      right
      rcases hfirst.stands.at_line with ⟨x, hx, hline⟩ | hline
      · rw [hline]
        exact hacross x hx r (List.mem_cons_of_mem _ hr)
      · rw [hline]
        exact (List.pairwise_cons.1 hbehind).1 r hr

/-- The numbers of lines go up. -/
theorem pairwise_zipIdx (lines : List String) (n : Nat) : (lines.zipIdx n).Pairwise (·.2 < ·.2) := by
  have hnumbers := List.pairwise_lt_range' (s := n) (n := lines.length)
  rw [← List.zipIdx_map_snd n lines] at hnumbers
  exact List.pairwise_map.1 hnumbers

/-- Lines are those up to the first blank one, and the others. -/
theorem exists_first_lines (lines : List String) : ∃ first rest, lines = first ++ rest ∧
    (∀ l ∈ first, Text.isAllBlank l.toList = false) ∧ ∀ l ∈ rest.head?, Text.isAllBlank l.toList = true := by
  let full (line : String) : Bool := !Text.isAllBlank line.toList
  refine ⟨lines.takeWhile full, lines.dropWhile full, List.takeWhile_append_dropWhile.symm, fun l hl => ?_, fun l hl => ?_⟩
  · simpa [full] using List.mem_takeWhile_imp hl
  · have hhead := List.head?_dropWhile_not full lines
    rw [hl] at hhead
    simpa [full] using hhead

/-- Reading fails in a sentence for its first flaw, and malformed lines of other sentences are below. -/
theorem isFirst_of_readFrom {lines : List String} {n : Nat}
    (h : ((readFrom validate {} n lines).run sink).1.toExcept = .error e) : ∃ before block after,
    Stretch (lines.zipIdx n) before block after ∧ IsFirst (Flaw block (endLine block after)) e.fault e.lineNumber ∧
      ∀ fault k, Malformed (lines.zipIdx n) fault k → Flaw block (endLine block after) fault k ∨ e.lineNumber < k := by
  induction hlength : lines.length using Nat.strong_induction_on generalizing lines n sink with
  | _ length ih =>
    obtain ⟨first, rest, rfl, hfirst, hrest⟩ := exists_first_lines lines
    have hfull : ∀ l ∈ first.zipIdx n, Text.isAllBlank l.1.toList = false := fun l hl => hfirst l.1 (List.fst_mem_of_mem_zipIdx hl)
    have hnumbers := pairwise_zipIdx (first ++ rest) n
    rw [List.zipIdx_append] at hnumbers ⊢
    have hafter : ∀ l ∈ (rest.zipIdx (n + first.length)).head?, Text.isAllBlank l.1.toList = true := by
      intro l hl
      cases rest with
      | nil => cases hl
      | cons line rest =>
        cases hl
        exact hrest line rfl
    -- Reading stops in the first sentence, or it has no flaws and reading goes on behind it.
    have hstops (h : Stops (first.zipIdx n) (endLine (first.zipIdx n) (rest.zipIdx (n + first.length))) e) :=
      h.first_sentence hfull hafter hnumbers
    rcases of_readFrom_append hfirst h with htake | ⟨s, htake, h⟩
    · exact ⟨[], _, _, hstops (.inl htake)⟩
    · cases rest with
      | nil =>
        have hlast : Stops (first.zipIdx n) (n + first.length - 1) e := .inr ⟨s, htake, of_finish_eq_error ((readFrom_nil_eq _).symm.trans h)⟩
        have hend : endLine (first.zipIdx n) [] = n + first.length - 1 := by
          have hne : first ≠ [] := fun hnil => hlast.ne_nil (by rw [hnil]; rfl)
          simp [endLine, List.getLast?_zipIdx, List.getLast?_eq_some_getLast hne]
        exact ⟨[], _, _, hstops (hend.symm ▸ hlast)⟩
      | cons line rest =>
        rcases of_readFrom_cons (hrest line rfl) h with hfinish | ⟨graphs, sink', hfinish, h⟩
        · exact ⟨[], _, _, hstops (.inr ⟨s, htake, of_finish_eq_error hfinish⟩)⟩
        · have hlength' : rest.length < length := by
            rw [← hlength, List.length_append, List.length_cons]
            omega
          obtain ⟨before, block, after, hstretch, hisFirst, hothers⟩ := ih _ hlength' h rfl
          refine ⟨first.zipIdx n ++ (line, n + first.length) :: before, block, after, hstretch.cons (hrest line rfl), hisFirst, ?_⟩
          rintro fault k ⟨before', block', after', hstretch', hflaw⟩
          rcases hstretch'.of_cons hfull (hrest line rfl) with ⟨-, rfl, rfl⟩ | ⟨before', -, hstretch'⟩
          · exact absurd hflaw (not_flaw_of_finishes hstretch'.nonempty hfull htake ((finish_eq_ok_iff _ _).1 hfinish))
          · exact hothers fault k ⟨before', block', after', hstretch', hflaw⟩

variable {text : String}

/-- Reading a text fails in the first sentence with a malformed line, and there for the first flaw: no other one is found in a pass before,
or in the same pass at a line above. So the line is the first malformed one of the text exactly if no line above it in its sentence has a
flaw that only a later pass finds. -/
theorem isFirst_of_read (h : ((read validate text).run.run sink).1 = .error e) : ∃ before block after,
    Stretch (numberedLines text) before block after ∧ IsFirst (Flaw block (endLine block after)) e.fault e.lineNumber ∧
      (∀ fault k, Malformed (numberedLines text) fault k → Flaw block (endLine block after) fault k ∨ e.lineNumber < k) ∧
      (IsLeast {k | ∃ fault, Malformed (numberedLines text) fault k} e.lineNumber ↔
        ∀ fault k, Flaw block (endLine block after) fault k → e.fault.pass < fault.pass → e.lineNumber ≤ k) := by
  rw [read_run] at h
  obtain ⟨before, block, after, hstretch, hfirst, hothers⟩ := isFirst_of_readFrom h
  refine ⟨before, block, after, hstretch, hfirst, hothers, fun hleast fault k hflaw _ => ?_, fun hlater => ⟨?_, ?_⟩⟩
  · exact hleast.2 ⟨fault, before, block, after, hstretch, hflaw⟩
  · exact ⟨e.fault, before, block, after, hstretch, hfirst.stands⟩
  · rintro k ⟨fault, hmalformed⟩
    rcases hothers fault k hmalformed with hflaw | hbelow
    · rcases hfirst.first fault k hflaw with hpass | ⟨-, hle⟩
      · exact hlater fault k hflaw hpass
      · exact hle
    · exact Nat.le_of_lt hbelow

/-- A head that is no token is reported at its line, which is the first malformed one. -/
theorem isFirst_of_read_head :
    let text := "1\ta\t_\t_\t_\t_\t0\troot\t_\t_\n2\tb\t_\t_\t_\t_\t9\tx\t_\t_\n\n"
    ((read false text).run.run {}).1 = .error ⟨.headUnknown "9", 2, ""⟩ ∧
      IsLeast {k | ∃ fault, Malformed (numberedLines text) fault k} 2 := by
  intro text
  have hread : ((read false text).run.run {}).1 = .error ⟨.headUnknown "9", 2, ""⟩ := eq_error_of_match (by decide +kernel)
  obtain ⟨before, block, after, -, -, -, hleast⟩ := isFirst_of_read hread
  exact ⟨hread, hleast.2 fun fault k _ hpass => absurd hpass (Nat.not_lt.2 fault.pass_le)⟩

/-- An id that stands twice is found before the heads are looked at: it is reported, though a line above has a head that is no token. -/
theorem duplicate_precedes_head :
    let text := "1\ta\t_\t_\t_\t_\t9\tx\t_\t_\n1\tb\t_\t_\t_\t_\t0\troot\t_\t_\n\n"
    ((read false text).run.run {}).1 = .error ⟨.idDuplicate "1", 2, ""⟩ ∧ Malformed (numberedLines text) (.headUnknown "9") 1 ∧
      ¬ IsLeast {k | ∃ fault, Malformed (numberedLines text) fault k} 2 := by
  intro text
  let row : Row :=
    { lineNumber := 1, id := "1", form := "a", baseForm := "_", upos := "_", tag := "_", feats := "_", head := "9", relation := "x",
      deps := "_", misc := "_" }
  let block : List (String × Nat) := [(row.text, 1), ("1\tb\t_\t_\t_\t_\t0\troot\t_\t_", 2)]
  have hstretch : Stretch (numberedLines text) [] block [("", 3)] :=
    ⟨by decide +kernel, List.cons_ne_nil _ _, by decide +kernel, by simp, by decide +kernel⟩
  have hhead : HeadFlaw ((tokenRows (blockRows block)).map (·.id)) row (.headUnknown "9") :=
    .head (by decide) (by decide) (by decide +kernel)
  have hflaw : Flaw block (endLine block [("", 3)]) (.headUnknown "9") 1 := .row (@RowFlaw.head _ row _ (by decide +kernel) hhead)
  have hmalformed : Malformed (numberedLines text) (.headUnknown "9") 1 := ⟨[], block, _, hstretch, hflaw⟩
  exact ⟨eq_error_of_match (by decide +kernel), hmalformed, fun hleast => absurd (hleast.2 ⟨_, hmalformed⟩) (by decide)⟩

end Treebank.Conllu

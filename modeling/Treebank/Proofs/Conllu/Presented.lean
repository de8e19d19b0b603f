import Treebank.Proofs.Conllu.Blocks
import Treebank.Proofs.Conllu.Rows
import Treebank.Proofs.Edit.Shape

/-!
# What is read can stand in rows again

What stands in the columns of a text holds no tab and no line break, and what stands in an entry no bar. So the tokens and edges of a graph
that is read can be written, and its surface words too (`pristine_of_read`). They still can when subtrees were deleted and dependents were
added whose columns fit (`Edit.TreeEdited`).
-/

namespace Treebank

namespace Conllu

variable {block : List (String × Nat)} {comments : List String} {rows : List Row} {row : Row} {g : Graph} {locate : String → Int}
  {text : String}

/-! ## Columns -/

/-- The lines of a text hold no line breaks. -/
theorem isLineBreak_of_mem_block (hblock : block ∈ blocks (numberedLines text)) {l : String × Nat} (hl : l ∈ block) :
    ∀ c ∈ l.1.toList, Text.isLineBreak c = false := by
  have hm : l.1 ∈ (Text.lines text.toList).map String.ofList := by
    rw [← List.zipIdx_map_fst 1 ((Text.lines text.toList).map String.ofList)]
    exact List.mem_map_of_mem ((Text.of_mem_splitOnP (List.mem_of_mem_filter hblock)).2 hl)
  obtain ⟨cs, hcs, hline⟩ := List.mem_map.1 hm
  rw [← hline, String.toList_ofList]
  exact Text.isLineBreak_of_mem_lines hcs

/-- What stands between the tabs of a line, or between its gaps, can stand in a column. -/
theorem fitsColumn_of_standsIn {l : String × Nat} (h : row.StandsIn l) (hl : ∀ c ∈ l.1.toList, Text.isLineBreak c = false) :
    ∀ c ∈ row.columns, FitsColumn c := by
  have hpieces : ∀ cs ∈ row.columns.map String.toList, ∀ x ∈ cs, x ≠ '\t' ∧ Text.isLineBreak x = false := by
    rw [h.2]
    split
    · intro cs hcs x hx
      rw [← Text.splitOn_eq] at hcs
      obtain ⟨htab, hsub⟩ := Text.of_mem_splitOn hcs
      exact ⟨fun e => htab (e ▸ hx), hl x (hsub hx)⟩
    · intro cs hcs x hx
      obtain ⟨hgap, hsub⟩ := Text.of_mem_splitOnP (List.mem_of_mem_filter hcs)
      refine ⟨fun e => ?_, hl x (Text.trim_subset _ (hsub hx))⟩
      have := hgap x hx
      rw [e] at this
      cases this
  exact fun c hc => hpieces c.toList (List.mem_map_of_mem hc)

/-- The columns of the rows of a block can stand in columns, and its comment lines in lines. -/
theorem IsBlock.fits (h : IsBlock block comments rows) (hblock : block ∈ blocks (numberedLines text)) :
    (∀ c ∈ comments, c.toList.head? = some '#' ∧ ∀ x ∈ c.toList, Text.isLineBreak x = false) ∧
      ∀ row ∈ rows, ∀ c ∈ row.columns, FitsColumn c := by
  obtain ⟨commentLines, rowLines, rfl, rfl, hcomments, -, hrows⟩ := h.cut
  constructor
  · intro c hc
    obtain ⟨l, hl, rfl⟩ := List.mem_map.1 hc
    exact ⟨hcomments l hl, isLineBreak_of_mem_block hblock (List.mem_append_left _ hl)⟩
  · intro row hrow
    obtain ⟨l, hl, hstands⟩ := exists_of_mem_forall₂ hrows.flip hrow
    exact fitsColumn_of_standsIn hstands (isLineBreak_of_mem_block hblock (List.mem_append_right _ hl))

/-- The content of a column can stand in one. -/
theorem fitsColumn_content {c : String} (h : FitsColumn c) : FitsColumn (content c) := by
  unfold content
  split
  · decide
  · exact h

/-- What stands in a column that fits, fits. -/
theorem FitsColumn.of_subset {c : String} {piece : List Char} (h : FitsColumn c) (hsub : piece ⊆ c.toList) :
    FitsColumn (String.ofList piece) := by
  intro x hx
  rw [String.toList_ofList] at hx
  exact h x (hsub hx)

/-- What stands behind the colon of an entry can stand there again. -/
theorem fitsEntry_of_entry {deps : String} (h : FitsColumn deps) {head relation : List Char}
    (hentry : head ++ ':' :: relation ∈ deps.toList.splitOn '|') : FitsEntry (String.ofList relation) := by
  rw [← Text.splitOn_eq] at hentry
  obtain ⟨hbar, hsub⟩ := Text.of_mem_splitOn hentry
  have hrelation : relation ⊆ head ++ ':' :: relation := List.subset_append_of_subset_right _ (List.subset_cons_self _ _)
  refine ⟨?_, h.of_subset (List.Subset.trans hrelation hsub)⟩
  rw [String.toList_ofList]
  exact fun hm => hbar (hrelation hm)

/-- The relation of the root can stand in an entry again. -/
theorem fitsEntry_enhancedRoot (h : FitsColumn row.deps) : FitsEntry row.enhancedRoot := by
  unfold Row.enhancedRoot
  generalize hlast : List.getLast? _ = last
  cases last with
  | none => exact ⟨by decide, by decide⟩
  | some s =>
    obtain ⟨entry, hentry, hs⟩ := List.mem_filterMap.1 (List.mem_of_getLast? hlast)
    split at hs
    · rename_i relation hsplit
      cases hs
      rw [(Text.of_splitFirst?_eq_some hsplit).1] at hentry
      unfold Row.entries at hentry
      split at hentry
      · cases hentry
      · rw [Text.splitOn_eq] at hentry
        exact fitsEntry_of_entry h hentry
    · cases hs

/-! ## Graphs that are read -/

/-- Every token is that of a row. -/
theorem Depicts.exists_row (h : Depicts g comments rows locate) {t : Token} (ht : t ∈ g.tokenList) :
    ∃ row ∈ tokenRows rows, ∃ id : RowId, id.Spelled row.id.toList ∧ (∀ n, id = .ordinary n → locate row.id = n) ∧
      t = tokenAt g.multiwords locate (row, id) := by
  obtain ⟨p, hp, rfl⟩ := List.mem_map.1 ht
  obtain ⟨row, hrow, hindex⟩ := List.mem_map.1 (h.indices.mem_iff.1 (List.mem_map_of_mem hp))
  obtain ⟨id, hspelled, hordinary, htoken⟩ := h.tokens row hrow
  refine ⟨row, hrow, id, hspelled, hordinary, ?_⟩
  rw [hindex] at htoken
  show p.2 = tokenOf g.multiwords row id (locate row.id)
  rw [hindex]
  exact Option.some.inj ((h.sound.token?_eq_some_iff.2 hp).symm.trans htoken)

/-- The links of the rows of a sentence have relations. -/
theorem Sensible.relation_ne_nil (h : Sensible rows) (hrow : row ∈ tokenRows rows) (hdeps : row.deps ≠ blank) {head relation : List Char}
    (hentry : head ++ ':' :: relation ∈ row.deps.toList.splitOn '|') (hcolon : ':' ∉ head) : relation ≠ [] := by
  obtain ⟨ps, hids, hrefers⟩ := sensible_iff.1 h
  rw [hids.tokenRows_eq] at hrow
  obtain ⟨p, hp, rfl⟩ := List.mem_map.1 hrow
  have hentries := (hrefers p hp).entries (head ++ ':' :: relation) (by rwa [Row.entries, if_neg hdeps, Text.splitOn_eq])
  obtain ⟨head', relation', hsplit, hne, -⟩ := hentries
  rw [Text.splitFirst?_append hcolon, Option.some.injEq, Prod.mk.injEq] at hsplit
  exact hsplit.2 ▸ hne

/-- The tokens and edges of a graph that is built of rows can stand in rows if the columns can. -/
theorem presentable_of_buildGraph (hbuild : buildGraph comments rows = .ok g) (hfits : ∀ row ∈ rows, ∀ c ∈ row.columns, FitsColumn c) :
    Presentable g := by
  obtain ⟨locate, h⟩ := depicts_of_buildGraph hbuild
  have hcolumns : ∀ row ∈ tokenRows rows, ∀ c ∈ row.columns, FitsColumn c := fun row hrow => hfits row (List.mem_of_mem_filter hrow)
  simp only [Row.columns, Row.tail, List.forall_mem_cons] at hcolumns
  refine ⟨h.sound, fun t ht => ?_, fun t ht => ?_, fun t ht => ?_, fun a ha hplain => ?_, fun a ha hextra => ?_⟩
  · obtain ⟨row, hrow, id, -, -, rfl⟩ := h.exists_row ht
    obtain ⟨-, hform, hbaseForm, hupos, htag, hfeats, -, -, -, hmisc, -⟩ := hcolumns row hrow
    obtain ⟨hform', hbaseForm', hupos', htag', hfeats', hmisc', -, -⟩ := fields_tokenAt g.multiwords locate (row, id)
    rw [hform', hbaseForm', hupos', htag', hfeats', hmisc']
    simp only [List.forall_mem_cons]
    exact ⟨fitsColumn_content hform, fitsColumn_content hbaseForm, fitsColumn_content hupos, fitsColumn_content htag,
      fitsColumn_content hfeats, fitsColumn_content hmisc, by simp⟩
  · obtain ⟨row, hrow, id, -, -, rfl⟩ := h.exists_row ht
    obtain ⟨-, -, -, -, -, -, -, hrelation, -⟩ := hcolumns row hrow
    obtain ⟨-, -, -, -, -, -, -, hroot⟩ := fields_tokenAt g.multiwords locate (row, id)
    rw [hroot]
    intro s hs
    split at hs
    · cases hs
      exact fitsColumn_content hrelation
    · cases hs
  · obtain ⟨row, hrow, id, -, -, rfl⟩ := h.exists_row ht
    obtain ⟨-, -, -, -, -, -, -, -, hdeps, -⟩ := hcolumns row hrow
    obtain ⟨-, -, -, -, -, -, hroot, -⟩ := fields_tokenAt g.multiwords locate (row, id)
    rw [hroot]
    exact fitsEntry_enhancedRoot hdeps
  · obtain ⟨row, hrow, hnames⟩ := (h.edges a.edge).1 (Graph.mem_edges.2 ⟨a, ha, rfl⟩)
    obtain ⟨-, -, -, -, -, -, -, hrelation, -⟩ := hcolumns row hrow
    rcases hnames with ⟨-, -, he⟩ | ⟨-, head, relation, -, -, -, he⟩
    · rw [he]
      exact fitsColumn_content hrelation
    · rw [he] at hplain
      cases hplain
  · obtain ⟨row, hrow, hnames⟩ := (h.edges a.edge).1 (Graph.mem_edges.2 ⟨a, ha, rfl⟩)
    obtain ⟨-, -, -, -, -, -, -, -, hdeps, -⟩ := hcolumns row hrow
    rcases hnames with ⟨-, -, he⟩ | ⟨hne, head, relation, hentry, hcolon, -, he⟩
    · rw [he] at hextra
      cases hextra
    · have hrelation := (exists_buildGraph_iff.1 ⟨g, hbuild⟩).relation_ne_nil hrow hne hentry hcolon
      rw [he]
      exact ⟨fun e => hrelation (by simpa using e), fitsEntry_of_entry hdeps hentry⟩

/-- The rows of a block stand in lines that are numbered from one on. -/
theorem IsBlock.lineNumber_ne_zero (h : IsBlock block comments rows) (hblock : block ∈ blocks (numberedLines text)) :
    ∀ row ∈ rows, row.lineNumber ≠ 0 := by
  obtain ⟨commentLines, rowLines, rfl, -, -, -, hrows⟩ := h.cut
  intro row hrow
  obtain ⟨l, hl, hnumber, -⟩ := exists_of_mem_forall₂ hrows.flip hrow
  have hline : l ∈ numberedLines text := (Text.of_mem_splitOnP (List.mem_of_mem_filter hblock)).2 (List.mem_append_right _ hl)
  have := List.le_snd_of_mem_zipIdx hline
  omega

/-- A graph without elided tokens as it is read. -/
structure Pristine (g : Graph) : Prop where
  presentable : Presentable g
  /-- Comments are lines that begin with a number sign. -/
  comments : ∀ c ∈ g.comments, c.toList.head? = some '#' ∧ ∀ x ∈ c.toList, Text.isLineBreak x = false
  /-- Tokens stand at their indices, and come from lines. -/
  placed : ∀ t ∈ g.tokenList, t.position = t.index ∧ t.emptyIndex = 0 ∧ t.lineNumber ≠ 0
  words : ∀ m ∈ g.multiwords, m.Counts ∧ FitsRow m

/-- Graphs without elided tokens that are read are as they are read. -/
theorem pristine_of_read {validate : Bool} {sink sink' : Sink} {graphs : List Graph}
    (hread : (read validate text).run.run sink = (.ok graphs, sink')) (hg : g ∈ graphs) (hunelided : g.isUnelided) : Pristine g := by
  obtain ⟨block, hblock, comments, rows, hrows, hbuild⟩ := exists_block_of_read hread hg
  obtain ⟨locate, hdepicts⟩ := depicts_of_buildGraph hbuild
  obtain ⟨hcomments, hcolumns⟩ := hrows.fits hblock
  refine ⟨presentable_of_buildGraph hbuild hcolumns, hdepicts.comments ▸ hcomments, fun t ht => ?_, fun m hm => ?_⟩
  · have hordinary : t.isEmptyNode = false := by
      obtain ⟨p, hp, rfl⟩ := List.mem_map.1 ht
      exact Graph.isUnelided_iff.1 hunelided p hp
    obtain ⟨row, hrow, id, hspelled, -, rfl⟩ := hdepicts.exists_row ht
    have hline : (row.lineNumber : Int) ≠ 0 := Int.natCast_ne_zero.2 (hrows.lineNumber_ne_zero hblock row (List.mem_of_mem_filter hrow))
    cases id with
    | ordinary n => exact ⟨rfl, rfl, hline⟩
    | span start stop => exact ⟨rfl, rfl, hline⟩
    | elided host n =>
      have hcounts : (RowId.elided host n).Counts := by
        generalize row.id.toList = cs at hspelled
        cases hspelled
        assumption
      rw [isEmptyNode_tokenAt rfl hcounts] at hordinary
      cases hordinary
  · obtain ⟨hcounts, row, hrow, hform, htail⟩ := exists_row_of_mem_multiwords hbuild hm
    have hfits := hcolumns row hrow
    exact ⟨hcounts, row, hform, htail, (List.forall_mem_cons.1 hfits).2⟩

end Conllu

/-! ## Edits -/

namespace Edit

open Treebank.Graph Conllu

/-- Whether what an edit adds can stand in columns. -/
def FitsColumns : Edit → Prop
  | addDependent _ relation attributes _ _ => FitsColumn relation ∧ ∀ a ∈ attributes, FitsColumn a.2
  | _ => True

variable {w w' : Workspace} {e : Edit} {es : List Edit} {g : Graph}

/-- A token that was not read: it can stand in a row, is no root and not elided, and comes from no line. -/
structure Added (t : Token) : Prop where
  fields : ∀ s ∈ [t.word, t.baseForm, t.upos, t.tag, t.feats, t.misc], FitsColumn s
  rootRelation : t.rootRelation = none
  enhancedRootRelation : t.enhancedRootRelation = ""
  emptyIndex : t.emptyIndex = 0
  lineNumber : t.lineNumber = 0

/-- A token of attributes that can stand in columns. -/
theorem added_ofAttributes {attributes : List (String × String)} (h : ∀ a ∈ attributes, FitsColumn a.2) (index position : Int) :
    Added (Token.ofAttributes index position attributes) := by
  have hempty : FitsColumn "" := by decide
  have hfold : ∀ t : Token, (∀ s ∈ [t.word, t.baseForm, t.upos, t.tag, t.feats, t.misc], FitsColumn s) →
      let u := attributes.foldl Token.withAttribute t
      ∀ s ∈ [u.word, u.baseForm, u.upos, u.tag, u.feats, u.misc], FitsColumn s := by
    induction attributes with
    | nil => exact fun t ht => ht
    | cons a attributes ih =>
      obtain ⟨ha, hrest⟩ := List.forall_mem_cons.1 h
      refine fun t ht => ih hrest _ ?_
      simp only [List.forall_mem_cons] at ht ⊢
      obtain ⟨hword, hbaseForm, hupos, htag, hfeats, hmisc, hnil⟩ := ht
      unfold Token.withAttribute
      split <;> refine ⟨?_, ?_, ?_, ?_, ?_, ?_, hnil⟩ <;> assumption
  refine ⟨hfold _ (by simp [hempty]), ?_, ?_, ?_, ?_⟩
  all_goals
    refine (Token.keeps_ofAttributes (fun t entry => ?_) index position attributes).trans rfl
    unfold Token.withAttribute
    split <;> rfl

/-- Tree edits bring no token but one under the next index. -/
theorem mem_tokenList_apply (he : e.isTreeEdit) (hfits : e.FitsColumns) (h : e.apply w = .ok w') {t : Token} (ht : t ∈ w'.graph.tokenList) :
    t ∈ w.graph.tokenList ∨ Added t ∧ t.index = w.graph.nextIndex := by
  have hattributes : ∀ a ∈ e.newAttributes, FitsColumn a.2 := by
    cases e with
    | addDependent governor relation attributes name weight => exact hfits.2
    | delete node => simp [newAttributes]
    | _ => cases he
  obtain ⟨p, hp, rfl⟩ := List.mem_map.1 ht
  rcases mem_tokens_apply h hp with hp | ⟨-, position, rfl⟩
  · exact .inl (List.mem_map_of_mem hp)
  · exact .inr ⟨added_ofAttributes hattributes _ _, Token.index_ofAttributes ..⟩

/-- Tree edits bring no edge but plain ones with relations that they give. -/
theorem mem_arcs_apply (he : e.isTreeEdit) (hfits : e.FitsColumns) (h : e.apply w = .ok w') {a : Arc} (ha : a ∈ w'.graph.arcs) :
    a ∈ w.graph.arcs ∨ a.edge.extra = false ∧ FitsColumn a.edge.relation := by
  cases e with
  | addDependent governor relation attributes name weight =>
    obtain ⟨top, -, h⟩ := bind_eq_ok_iff.1 h
    cases h
    rw [graph_bind] at ha
    rcases mem_arcs_withEdge ha with hedge | ha
    · rw [hedge]
      exact .inr ⟨rfl, hfits.1⟩
    · exact .inl (arcs_withToken w.graph _ ▸ ha)
  | delete node =>
    obtain ⟨top, -, h⟩ := bind_eq_ok_iff.1 h
    cases h
    have ha : a ∈ (w.graph.withoutTokens (w.graph.subtree top)).resetRoots.arcs := ha
    rw [arcs_resetRoots] at ha
    exact .inl ((sublist_withoutTokens w.graph _).2.subset ha)
  | _ => cases he

/-- A graph whose tokens and edges can stand in rows, after a tree edit. -/
theorem presentable_apply (hw : Presentable w.graph) (he : e.isTreeEdit) (hfits : e.FitsColumns) (h : e.apply w = .ok w') :
    Presentable w'.graph := by
  refine ⟨(checkedApply_agrees hw.sound e).sound w' h, fun t ht => ?_, fun t ht => ?_, fun t ht => ?_, fun a ha hplain => ?_,
    fun a ha hextra => ?_⟩
  · rcases mem_tokenList_apply he hfits h ht with ht | ⟨hadded, -⟩
    · exact hw.fields t ht
    · exact hadded.fields
  · rcases mem_tokenList_apply he hfits h ht with ht | ⟨hadded, -⟩
    · exact hw.rootRelations t ht
    · rw [hadded.rootRelation]
      simp
  · rcases mem_tokenList_apply he hfits h ht with ht | ⟨hadded, -⟩
    · exact hw.enhancedRootRelations t ht
    · rw [hadded.enhancedRootRelation]
      exact ⟨by decide, by decide⟩
  · rcases mem_arcs_apply he hfits h ha with ha | ⟨-, hrelation⟩
    · exact hw.plainRelations a ha hplain
    · exact hrelation
  · rcases mem_arcs_apply he hfits h ha with ha | ⟨hplain, -⟩
    · exact hw.extraRelations a ha hextra
    · rw [hplain] at hextra
      cases hextra

/-- What tree edits keep of the graph `g` that they are applied to. -/
structure TreeEdited (g g' : Graph) : Prop where
  presentable : Presentable g'
  /-- No token is elided. -/
  emptyIndices : ∀ t ∈ g'.tokenList, t.emptyIndex = 0
  header : g'.header = g.header
  /-- Tokens that were added have higher indices than those that are left. -/
  above : ∀ t ∈ g'.tokenList, t ∈ g.tokenList → ∀ u ∈ g'.tokenList, u ∉ g.tokenList → t.index < u.index

/-- A graph is what no edits make of it. -/
theorem TreeEdited.refl (hg : Presentable g) (hempty : ∀ t ∈ g.tokenList, t.emptyIndex = 0) : TreeEdited g g :=
  ⟨hg, hempty, rfl, fun _ _ _ _ hu hno => absurd hu hno⟩

/-- One tree edit. -/
theorem TreeEdited.apply (hw : TreeEdited g w.graph) (hlines : ∀ t ∈ g.tokenList, t.lineNumber ≠ 0) (he : e.isTreeEdit)
    (hfits : e.FitsColumns) (h : e.apply w = .ok w') : TreeEdited g w'.graph := by
  have hsound := hw.presentable.sound
  refine ⟨presentable_apply hw.presentable he hfits h, fun t ht => ?_, (header_apply h).trans hw.header, fun t ht hold u hu hnew => ?_⟩
  · rcases mem_tokenList_apply he hfits h ht with ht | ⟨hadded, -⟩
    · exact hw.emptyIndices t ht
    · exact hadded.emptyIndex
  · rcases mem_tokenList_apply he hfits h ht with ht | ⟨hadded, -⟩
    · rcases mem_tokenList_apply he hfits h hu with hu | ⟨-, hindex⟩
      · exact hw.above t ht hold u hu hnew
      · rw [hindex]
        exact hsound.lt_nextIndex (hsound.hasToken_of_mem (w.graph.perm_tokensInOrder.mem_iff.2 ht))
    · exact absurd hadded.lineNumber (hlines t hold)

/-- A list of tree edits. -/
theorem TreeEdited.applyAll (hw : TreeEdited g w.graph) (hlines : ∀ t ∈ g.tokenList, t.lineNumber ≠ 0)
    (hes : ∀ e ∈ es, e.isTreeEdit ∧ e.FitsColumns) (h : applyAll w es = .ok w') : TreeEdited g w'.graph := by
  induction es generalizing w with
  | nil =>
    cases h
    exact hw
  | cons e es ih =>
    obtain ⟨⟨htree, hfits⟩, hes⟩ := List.forall_mem_cons.1 hes
    obtain ⟨w₁, he, h⟩ := applyAll_cons_eq_ok_iff.1 h
    exact ih (hw.apply hlines htree hfits he) hes h

end Edit

end Treebank

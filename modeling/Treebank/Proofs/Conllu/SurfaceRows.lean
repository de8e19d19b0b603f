import Treebank.Proofs.Conllu.Accepted
import Treebank.Proofs.Conllu.Lines
import Treebank.Proofs.Conllu.Rows

/-!
# Graphs with surface words that are read back

The rows of a graph are those of its tokens and those of its surface words. Where no two tokens are given one id and every surface word
is written with two numbers, they make a sentence, and every token comes back under its number (`exists_read_writeGraph`).
-/

namespace Treebank.Conllu

variable {g : Graph} {t u : Token} {m : Multiword} {rows : List Row} {row : Row} {n : Nat}

/-! ## Numbers of lines -/

/-- What does not ask for the numbers of lines is the same of numbered rows. -/
theorem filterMap_numberRows {β : Type} {f : Row → Option β} (hf : ∀ r k, f { r with lineNumber := k } = f r) (n : Nat) (rows : List Row) :
    (numberRows n rows).filterMap f = rows.filterMap f := by
  induction rows generalizing n with
  | nil => rfl
  | cons r rows ih => rw [numberRows, List.filterMap_cons, List.filterMap_cons, hf, ih]

/-- Numbered rows are those rows with the numbers of their lines. -/
theorem exists_of_mem_numberRows (h : row ∈ numberRows n rows) : ∃ r ∈ rows, ∃ k, row = { r with lineNumber := k } := by
  induction rows generalizing n with
  | nil => cases h
  | cons r rows ih =>
    rcases List.mem_cons.1 h with rfl | h
    · exact ⟨r, List.mem_cons_self .., n, rfl⟩
    · obtain ⟨r', hr', hk⟩ := ih h
      exact ⟨r', List.mem_cons_of_mem _ hr', hk⟩

/-- Every row is numbered. -/
theorem exists_mem_numberRows (h : row ∈ rows) (n : Nat) : ∃ k, { row with lineNumber := k } ∈ numberRows n rows := by
  induction rows generalizing n with
  | nil => cases h
  | cons r rows ih =>
    rcases List.mem_cons.1 h with rfl | h
    · exact ⟨n, List.mem_cons_self ..⟩
    · obtain ⟨k, hk⟩ := ih h (n + 1)
      exact ⟨k, List.mem_cons_of_mem _ hk⟩

/-- The ids of the rows of tokens. -/
theorem map_id_tokenRows (rows : List Row) :
    (tokenRows rows).map (·.id) = rows.filterMap fun row => if row.IsSpan then none else some row.id := by
  induction rows with
  | nil => rfl
  | cons row rows ih =>
    rw [tokenRows] at ih ⊢
    by_cases h : row.IsSpan <;> simpa [h] using ih

/-- Numbered rows make a sentence as the rows do. -/
theorem Sensible.numberRows (h : Sensible rows) (n : Nat) : Sensible (numberRows n rows) := by
  have hids : (tokenRows (Conllu.numberRows n rows)).map (·.id) = (tokenRows rows).map (·.id) := by
    rw [map_id_tokenRows, map_id_tokenRows, filterMap_numberRows fun _ _ => rfl]
  have htokens : ∀ row ∈ tokenRows (Conllu.numberRows n rows), ∃ r ∈ tokenRows rows, r.head = row.head ∧ r.deps = row.deps := by
    intro row hrow
    obtain ⟨hrow, hspan⟩ := List.mem_filter.1 hrow
    obtain ⟨r, hr, k, rfl⟩ := exists_of_mem_numberRows hrow
    exact ⟨r, List.mem_filter.2 ⟨hr, hspan⟩, rfl, rfl⟩
  constructor
  · intro row hrow
    obtain ⟨r, hr, k, rfl⟩ := exists_of_mem_numberRows hrow
    exact h.ids r hr
  · rw [hids]
    exact h.distinct
  · intro row hrow
    obtain ⟨r, hr, hhead, -⟩ := htokens row hrow
    rw [hids, ← hhead]
    exact h.heads r hr
  · intro row hrow
    obtain ⟨r, hr, -, hdeps⟩ := htokens row hrow
    rw [hids, ← hdeps]
    exact h.deps r hr

/-- The surface word of a row does not ask for the number of its line. -/
theorem span?_numbered (r : Row) (k : Nat) : Row.span? { r with lineNumber := k } = r.span? := by
  unfold Row.span?
  refine Option.bind_congr fun id _ => ?_
  cases id <;> rfl

/-! ## Numbers of tokens -/

/-- The number with which an ordinary token is written. -/
def numberOf (g : Graph) (t : Token) : Nat := (ordinaryBefore g.tokensInOrder t).length + 1

/-- What the id of an ordinary token says is its number. -/
theorem rowIdOf_eq_ordinary (hordinary : t.isEmptyNode = false) : rowIdOf g t = .ordinary (numberOf g t) := by
  rw [rowIdOf, RowId.behind, hordinary]
  rfl

/-- The id of an ordinary token is its number. -/
theorem idOf_eq_numberOf (hg : g.Sound) (ht : t ∈ g.tokensInOrder) (hordinary : t.isEmptyNode = false) :
    idOf (idsOf g) t.index = toString (numberOf g t) := by
  rw [idOf_eq hg ht, rowIdOf_eq_ordinary hordinary]
  rfl

/-- The id of a token is one of a token. -/
theorem isToken_rowIdOf (g : Graph) (t : Token) : (rowIdOf g t).isToken := (RowId.of_behind _ t).1

/-- Tokens are numbered in linear order. -/
theorem numberOf_le_iff (hu : u ∈ g.tokensInOrder) (hordinary : u.isEmptyNode = false) :
    numberOf g t ≤ numberOf g u ↔ (Token.cmp t u).isLE := by
  constructor
  · intro hle
    by_contra hgt
    rw [Bool.not_eq_true, Ordering.isLE_eq_false] at hgt
    have hlt : Token.cmp u t = .lt := Std.OrientedCmp.lt_of_gt hgt
    have hsub := sublist_ordinaryBefore g.tokensInOrder (t := u) (u := t) (hlt ▸ rfl)
    -- As many tokens stand before both, so the second one would stand before itself.
    have hlength : (ordinaryBefore g.tokensInOrder t).length = (ordinaryBefore g.tokensInOrder u).length :=
      Nat.le_antisymm (Nat.le_of_succ_le_succ hle) hsub.length_le
    have hself := ((length_ordinaryBefore_eq_iff g.tokensInOrder t u).1 hlength u hu hordinary).1 hlt
    exact absurd hself (by simp [Std.ReflCmp.compare_self])
  · exact fun h => Nat.succ_le_succ (sublist_ordinaryBefore g.tokensInOrder h).length_le

/-! ## Rows -/

/-- The row of a surface word. -/
def spanRowOf (g : Graph) (m : Multiword) : Row := (Row.ofColumns? 0 (spanId g m :: column m.form :: m.columns)).getD default

/-- The row of a surface word has its id, its form and its columns. -/
theorem spanRowOf_eq (g : Graph) (hrow : m.columns = row.tail) :
    spanRowOf g m = { row with lineNumber := 0, id := spanId g m, form := column m.form } := by
  rw [spanRowOf, hrow]
  rfl

/-- The row of a surface word is its line. -/
theorem text_spanRowOf (g : Graph) (hrow : m.columns = row.tail) :
    (spanRowOf g m).text = spanRow (idsByPosition (idsOf g) g.tokensInOrder) m := by
  rw [spanRowOf_eq g hrow, spanRow, hrow]
  rfl

/-- The rows of the tokens of a graph, and then those of its surface words. -/
def rowsWithSpans (g : Graph) : List Row := g.tokensInOrder.map (rowOf g (idsOf g)) ++ g.multiwords.map (spanRowOf g)

theorem mem_rowsWithSpans :
    row ∈ rowsWithSpans g ↔ (∃ t ∈ g.tokensInOrder, rowOf g (idsOf g) t = row) ∨ ∃ m ∈ g.multiwords, spanRowOf g m = row := by
  rw [rowsWithSpans, List.mem_append, List.mem_map, List.mem_map]

/-- The lines of a graph are those of the rows of its tokens and its surface words. -/
theorem exists_rows (hwords : ∀ m ∈ g.multiwords, FitsRow m) :
    ∃ rows : List Row, writtenLines g = rows.map Row.text ∧ rows.Perm (rowsWithSpans g) := by
  have hlines : g.tokensInOrder.map (fun t => (rowOf g (idsOf g) t).text) ++
      g.multiwords.map (spanRow (idsByPosition (idsOf g) g.tokensInOrder)) = (rowsWithSpans g).map Row.text := by
    rw [rowsWithSpans, List.map_append, List.map_map, List.map_map]
    refine congrArg _ (List.map_congr_left fun m hm => ?_)
    obtain ⟨row, -, htail, -⟩ := hwords m hm
    exact (text_spanRowOf g htail).symm
  have hperm := perm_writtenLines g
  rw [hlines] at hperm
  have htexts : List.Forall₂ (fun line row => line = Row.text row) ((rowsWithSpans g).map Row.text) (rowsWithSpans g) :=
    List.forall₂_map_left_iff.2 (List.forall₂_same.2 fun _ _ => rfl)
  obtain ⟨rows, htexts, hrows⟩ := List.perm_comp_forall₂ hperm htexts
  exact ⟨rows, List.forall₂_eq_eq_eq ▸ List.forall₂_map_right_iff.2 htexts, hrows⟩

/-- What has to hold of a graph with surface words that is read back. -/
structure Readback (g : Graph) : Prop where
  presentable : Presentable g
  /-- Comments are lines that begin with a number sign. -/
  comments : ∀ c ∈ g.comments, c.toList.head? = some '#' ∧ ∀ x ∈ c.toList, Text.isLineBreak x = false
  nonempty : g.tokensInOrder ≠ []
  /-- No two tokens are given one id. -/
  ids : (knownIds g).Nodup
  words : ∀ m ∈ g.multiwords, FitsRow m
  /-- Surface words are written with two numbers. -/
  spans : ∀ m ∈ g.multiwords, ∃ a b, (RowId.span a b).Counts ∧ spanId g m = (RowId.span a b).text

namespace Readback

/-- The row of a token has its id. -/
theorem spelled_rowOf (hg : Readback g) (ht : t ∈ g.tokensInOrder) : (rowIdOf g t).Spelled (rowOf g (idsOf g) t).id.toList := by
  obtain ⟨-, hcounts, -⟩ := RowId.of_behind (ordinaryBefore g.tokensInOrder t).length t
  rw [← ofText?_eq_some_iff]
  show RowId.ofText? (idOf (idsOf g) t.index) = some (rowIdOf g t)
  rw [idOf_eq hg.presentable.sound ht]
  exact ofText?_text hcounts

/-- The row of a surface word has the id of a span. -/
theorem spelled_spanRowOf (hg : Readback g) (hm : m ∈ g.multiwords) :
    ∃ a b, (RowId.span a b).Counts ∧ (RowId.span a b).Spelled (spanRowOf g m).id.toList ∧ spanId g m = (RowId.span a b).text := by
  obtain ⟨a, b, hcounts, hid⟩ := hg.spans m hm
  obtain ⟨row, -, htail, -⟩ := hg.words m hm
  refine ⟨a, b, hcounts, ?_, hid⟩
  rw [← ofText?_eq_some_iff, spanRowOf_eq g htail]
  show RowId.ofText? (spanId g m) = some (.span a b)
  rw [hid]
  exact ofText?_text hcounts

/-- The row of a token is not that of a surface word. -/
theorem not_isSpan_rowOf (hg : Readback g) (ht : t ∈ g.tokensInOrder) : ¬ (rowOf g (idsOf g) t).IsSpan := by
  rw [isSpan_iff (ofText?_eq_some_iff.2 (hg.spelled_rowOf ht)), isToken_rowIdOf]
  exact Bool.false_ne_true.symm

/-- The row of a token gives no surface word. -/
theorem span?_rowOf (hg : Readback g) (ht : t ∈ g.tokensInOrder) : (rowOf g (idsOf g) t).span? = none := by
  have htoken := isToken_rowIdOf g t
  rw [Row.span?, ofText?_eq_some_iff.2 (hg.spelled_rowOf ht), Option.bind_some]
  cases h : rowIdOf g t with
  | span a b =>
    rw [h] at htoken
    cases htoken
  | ordinary n => rfl
  | elided host n => rfl

/-- The row of a surface word is one. -/
theorem isSpan_spanRowOf (hg : Readback g) (hm : m ∈ g.multiwords) : (spanRowOf g m).IsSpan := by
  obtain ⟨a, b, -, hspelled, -⟩ := hg.spelled_spanRowOf hm
  exact ⟨a, b, hspelled⟩

/-- The rows of tokens among the rows are those of the tokens. -/
theorem perm_tokenRows (hg : Readback g) (h : rows.Perm (rowsWithSpans g)) :
    (tokenRows rows).Perm (g.tokensInOrder.map (rowOf g (idsOf g))) := by
  have htokens : (g.tokensInOrder.map (rowOf g (idsOf g))).filter (¬·.IsSpan) = g.tokensInOrder.map (rowOf g (idsOf g)) := by
    refine List.filter_eq_self.2 fun row hrow => ?_
    obtain ⟨t, ht, rfl⟩ := List.mem_map.1 hrow
    simpa using hg.not_isSpan_rowOf ht
  have hspans : (g.multiwords.map (spanRowOf g)).filter (¬·.IsSpan) = [] := by
    refine List.filter_eq_nil_iff.2 fun row hrow => ?_
    obtain ⟨m, hm, rfl⟩ := List.mem_map.1 hrow
    simpa using hg.isSpan_spanRowOf hm
  have hperm := h.filter (¬·.IsSpan)
  rwa [rowsWithSpans, List.filter_append, htokens, hspans, List.append_nil] at hperm

/-- The row of a token refers to tokens of the graph. -/
theorem refers_rowOf (hg : Readback g) (ht : t ∈ g.tokensInOrder) : (rowOf g (idsOf g) t).Refers (knownIds g) := by
  have hlinks : ∀ p ∈ linksOf g t, ':' ∉ p.1.toList ∧ '|' ∉ p.1.toList ∧ '|' ∉ p.2.toList := by
    intro p hp
    obtain ⟨hhead, -, -, hrelation⟩ := hg.presentable.of_mem_linksOf ht hp
    rcases hhead with hzero | hm
    · rw [hzero]
      exact ⟨by decide, by decide, hrelation.1⟩
    · obtain ⟨u, hu, hid⟩ := List.mem_map.1 hm
      rw [← hid, idOf_eq hg.presentable.sound hu]
      exact ⟨(plain_text _).1, (plain_text _).2, hrelation.1⟩
  constructor
  · show (headColumns g (idsOf g) t).1 = "0" ∨ (headColumns g (idsOf g) t).1 = blank ∨ (headColumns g (idsOf g) t).1 ∈ knownIds g
    rcases hg.presentable.headColumns_cases t with ⟨e, -, hgovernor, -, h⟩ | h | h
    · rw [h]
      exact .inr (.inr (idOf_mem hg.presentable.sound hgovernor))
    · rw [h]
      exact .inl rfl
    · rw [h]
      exact .inr (.inl rfl)
  · intro entry hentry
    rw [entries_eq (fun p hp => (hlinks p hp).2) (depsColumn_eq_linksText g t)] at hentry
    obtain ⟨p, hp, rfl⟩ := List.mem_map.1 hentry
    obtain ⟨hhead, -, hne, -⟩ := hg.presentable.of_mem_linksOf ht hp
    refine ⟨p.1.toList, p.2.toList, ?_, fun e => hne (String.toList_eq_nil_iff.1 e), ?_⟩
    · rw [toList_linkText]
      exact Text.splitFirst?_append (hlinks p hp).1 _
    · rw [String.ofList_toList]
      exact hhead.imp_left fun hzero => by rw [hzero]; rfl

/-- The rows make a sentence. -/
theorem sensible (hg : Readback g) (h : rows.Perm (rowsWithSpans g)) :
    Sensible rows := by
  have htokens := hg.perm_tokenRows h
  have hids : ((tokenRows rows).map (·.id)).Perm (knownIds g) := by
    refine (htokens.map (·.id)).trans (List.Perm.of_eq ?_)
    rw [List.map_map]
    rfl
  have hplain : ∀ head ∈ knownIds g, ':' ∉ head.toList := by
    intro head hm
    obtain ⟨t, ht, rfl⟩ := List.mem_map.1 hm
    rw [idOf_eq hg.presentable.sound ht]
    exact (plain_text _).1
  have hrefers : ∀ row ∈ tokenRows rows, row.Refers (knownIds g) := by
    intro row hrow
    obtain ⟨t, ht, rfl⟩ := List.mem_map.1 (htokens.mem_iff.1 hrow)
    exact hg.refers_rowOf ht
  refine ⟨fun row hrow => ?_, hids.nodup_iff.2 hg.ids, fun row hrow => ?_, fun row hrow => ?_⟩
  · rcases mem_rowsWithSpans.1 (h.mem_iff.1 hrow) with ⟨t, ht, rfl⟩ | ⟨m, hm, rfl⟩
    · exact ⟨_, hg.spelled_rowOf ht, (RowId.of_behind _ t).2.1⟩
    · obtain ⟨a, b, hcounts, hspelled, -⟩ := hg.spelled_spanRowOf hm
      exact ⟨_, hspelled, hcounts⟩
  · simp only [hids.mem_iff]
    exact ((refers_iff hplain).1 (hrefers row hrow)).1
  · simp only [hids.mem_iff]
    exact ((refers_iff hplain).1 (hrefers row hrow)).2

/-- The comments and rows are told apart when they are read. -/
theorem legible (hg : Readback g) (h : rows.Perm (rowsWithSpans g)) :
    Legible g.comments rows := by
  refine ⟨hg.comments, ?_, fun row hrow => ?_⟩
  · rintro rfl
    exact hg.nonempty (List.map_eq_nil_iff.1 (List.append_eq_nil_iff.1 h.symm.eq_nil).1)
  · rcases mem_rowsWithSpans.1 (h.mem_iff.1 hrow) with ⟨t, ht, rfl⟩ | ⟨m, hm, rfl⟩
    · exact ⟨⟨_, idOf_eq hg.presentable.sound ht⟩, fun c hc => (hg.presentable.fitsColumn_rowOf ht c hc).2⟩
    · obtain ⟨a, b, -, hid⟩ := hg.spans m hm
      obtain ⟨row, hform, htail, hfits⟩ := hg.words m hm
      obtain ⟨hfitsForm, hfitsTail⟩ := List.forall_mem_cons.1 hfits
      rw [spanRowOf_eq g htail]
      refine ⟨⟨_, hid⟩, List.forall_mem_cons.2 ⟨?_, List.forall_mem_cons.2 ⟨?_, hfitsTail⟩⟩⟩
      · show FitsColumn (spanId g m)
        rw [hid]
        exact (fitsColumn_text _).2
      · show FitsColumn (column m.form)
        rw [hform]
        exact (fitsColumn_column hfitsForm).2

/-- The row of a surface word gives it back between its numbers. -/
theorem span?_spanRowOf (hg : Readback g) (hm : m ∈ g.multiwords) {a b : Nat} (hcounts : (RowId.span a b).Counts)
    (hid : spanId g m = (RowId.span a b).text) :
    (spanRowOf g m).span? = some { start := a, stop := b, form := column m.form, columns := m.columns } := by
  obtain ⟨row, -, htail, -⟩ := hg.words m hm
  have hread : RowId.ofText? (spanId g m) = some (.span a b) := by rw [hid, ofText?_text hcounts]
  rw [spanRowOf_eq g htail, Row.span?]
  show (RowId.ofText? (spanId g m)).bind _ = _
  rw [hread, htail]
  rfl

/-- The surface words of the rows are those of the graph, each between its numbers. -/
theorem mem_filterMap_span? (hg : Readback g) (h : rows.Perm (rowsWithSpans g)) {m' : Multiword} :
    m' ∈ rows.filterMap Row.span? ↔ ∃ m ∈ g.multiwords, ∃ a b, (RowId.span a b).Counts ∧ spanId g m = (RowId.span a b).text ∧
      m' = { start := a, stop := b, form := column m.form, columns := m.columns } := by
  rw [(h.filterMap _).mem_iff, List.mem_filterMap]
  constructor
  · rintro ⟨row, hrow, hm'⟩
    rcases mem_rowsWithSpans.1 hrow with ⟨t, ht, rfl⟩ | ⟨m, hm, rfl⟩
    · rw [hg.span?_rowOf ht] at hm'
      cases hm'
    · obtain ⟨a, b, hcounts, hid⟩ := hg.spans m hm
      rw [hg.span?_spanRowOf hm hcounts hid] at hm'
      exact ⟨m, hm, a, b, hcounts, hid, (Option.some.inj hm').symm⟩
  · rintro ⟨m, hm, a, b, hcounts, hid, rfl⟩
    exact ⟨spanRowOf g m, mem_rowsWithSpans.2 (.inr ⟨m, hm, rfl⟩), hg.span?_spanRowOf hm hcounts hid⟩

/-- An ordinary token is read back from its row under its number. -/
theorem exists_token (hg : Readback g) (h : rows.Perm (rowsWithSpans g)) {r : Graph} {locate : String → Int}
    (hdepicts : Depicts r g.comments (numberRows n rows) locate) (ht : t ∈ g.tokensInOrder) (hordinary : t.isEmptyNode = false) :
    ∃ u ∈ r.tokenList, u.index = numberOf g t ∧ u.spanForm = spanning r.multiwords (numberOf g t) := by
  obtain ⟨hrow, hspan⟩ := List.mem_filter.1 ((hg.perm_tokenRows h).mem_iff.2 (List.mem_map_of_mem ht))
  obtain ⟨k, hk⟩ := exists_mem_numberRows hrow n
  obtain ⟨id, hspelled, hlocate, htoken⟩ := hdepicts.tokens _ (List.mem_filter.2 ⟨hk, hspan⟩)
  have hid : RowId.ofText? (rowOf g (idsOf g) t).id = some (.ordinary (numberOf g t)) := by
    rw [← rowIdOf_eq_ordinary hordinary]
    exact ofText?_eq_some_iff.2 (hg.spelled_rowOf ht)
  obtain rfl : id = .ordinary (numberOf g t) := Option.some.inj ((ofText?_eq_some_iff.2 hspelled).symm.trans hid)
  rw [hlocate _ rfl] at htoken
  exact ⟨_, List.mem_map.2 ⟨_, hdepicts.sound.token?_eq_some_iff.1 htoken, rfl⟩, rfl, rfl⟩

end Readback

/-- A graph whose tokens have ids of their own and whose surface words are written with two numbers is read back: each ordinary token
under its number, and each surface word between its numbers. -/
theorem exists_read_writeGraph (hg : Readback g) (validate : Bool) (sink : Sink) :
    ∃ r sink', (read validate (writeGraph g)).run.run sink = (.ok [r], sink') ∧ r.Sound ∧
      (∀ t ∈ g.tokensInOrder, t.isEmptyNode = false →
        ∃ u ∈ r.tokenList, u.index = numberOf g t ∧ u.spanForm = spanning r.multiwords (numberOf g t)) ∧
      ∀ m', m' ∈ r.multiwords ↔ ∃ m ∈ g.multiwords, ∃ a b, (RowId.span a b).Counts ∧ spanId g m = (RowId.span a b).text ∧
        m' = { start := a, stop := b, form := column m.form, columns := m.columns } := by
  obtain ⟨rows, hlines, hperm⟩ := exists_rows hg.words
  have hlegible := hg.legible hperm
  obtain ⟨r, hbuild⟩ := exists_buildGraph_iff.2 ((hg.sensible hperm).numberRows (1 + g.comments.length))
  obtain ⟨locate, hdepicts⟩ := depicts_of_buildGraph hbuild
  obtain ⟨sink', hread⟩ := hlegible.read_eq_ok hbuild validate sink
  rw [← writeGraph_eq_sentenceText hlines hlegible.nonempty] at hread
  refine ⟨r, sink', hread, hdepicts.sound, fun t ht => hg.exists_token hperm hdepicts ht, fun m' => ?_⟩
  rw [hdepicts.multiwords, filterMap_numberRows span?_numbered, hg.mem_filterMap_span? hperm]

end Treebank.Conllu

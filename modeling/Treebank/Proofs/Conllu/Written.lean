import Treebank.Proofs.Conllu.Graph

/-!
# Writing graphs of canonical sentences

The graph of a canonical sentence is written as the sentence: every row comes out as it was, with the id, the head and the links
that it had, and the rows of surface words stand where they stood.
-/

namespace Treebank.Conllu

variable {known : List String} {locate : String → Int} {multiwords : List Multiword} {ps ts : List (Row × RowId)} {g : Graph}

/-! ## Ids -/

/-- What a token takes from its row as it is. -/
theorem fields_tokenAt (multiwords : List Multiword) (locate : String → Int) (p : Row × RowId) :
    let t := tokenAt multiwords locate p
    t.word = content p.1.form ∧ t.baseForm = content p.1.baseForm ∧ t.upos = content p.1.upos ∧ t.tag = content p.1.tag ∧
      t.feats = content p.1.feats ∧ t.misc = content p.1.misc ∧ t.enhancedRootRelation = p.1.enhancedRoot ∧
      t.rootRelation = if p.1.head = "0" then some (content p.1.relation) else none := by
  obtain ⟨row, id⟩ := p
  cases id <;> exact ⟨rfl, rfl, rfl, rfl, rfl, rfl, rfl, rfl⟩

/-- The token of an elided row is an elided one. -/
theorem isEmptyNode_elided {row : Row} {host n : Nat} (hn : 0 < n) :
    (tokenAt multiwords locate (row, .elided host n)).isEmptyNode = true := decide_eq_true (Int.natCast_pos.2 hn)

/-- A token is elided exactly if its id is one of an elided token. -/
theorem isEmptyNode_tokenAt {p : Row × RowId} (ht : p.2.isToken) (hc : p.2.Counts) :
    (tokenAt multiwords locate p).isEmptyNode = !p.2.isOrdinary := by
  obtain ⟨row, id⟩ := p
  cases id with
  | ordinary n => rfl
  | span start stop => cases ht
  | elided host n => exact isEmptyNode_elided hc

/-- The tokens of arranged rows get the ids that their rows have. -/
theorem assignIds_eq {k b : Nat} {due : Bool} (h : Arranged k b due (ps.map (·.2))) :
    assignIds k ((ps.filter (·.2.isToken)).map (tokenAt multiwords locate)) =
      (ps.filter (·.2.isToken)).map fun p => (locate p.1.id, p.2.text) := by
  induction ps generalizing k b due with
  | nil => rfl
  | cons p ps ih =>
    obtain ⟨row, id⟩ := p
    cases id with
    | ordinary n =>
      obtain ⟨rfl, h⟩ := h
      have hempty : (tokenAt multiwords locate (row, .ordinary (k + 1))).isEmptyNode = false := rfl
      rw [List.filter_cons_of_pos rfl, List.map_cons, assignIds, hempty, ih h]
      rfl
    | span start stop =>
      obtain ⟨-, -, h⟩ := h
      rw [List.filter_cons_of_neg Bool.false_ne_true, ih h]
    | elided host n =>
      obtain ⟨-, rfl, hn, h⟩ := h
      rw [List.filter_cons_of_pos rfl, List.map_cons, assignIds, isEmptyNode_elided (Nat.zero_lt_of_lt hn), ih h]
      rfl

/-- The ids that a graph is written with are those of the rows that it mirrors. -/
def Numbered (g : Graph) (locate : String → Int) (ts : List (Row × RowId)) : Prop :=
  ∀ p ∈ ts, (idsOf g).lookup (locate p.1.id) = some p.1.id

/-- The tokens of a canonical sentence are written with the ids that they had. -/
theorem Sheet.numbered (h : Sheet known ps) (hl : Listed known locate (ps.filter (·.2.isToken)))
    (hg : Mirrors g multiwords locate (ps.filter (·.2.isToken))) : Numbered g locate (ps.filter (·.2.isToken)) := by
  have hids : idsOf g = ((ps.filter (·.2.isToken)).map fun p => (locate p.1.id, p.2.text)).reverse := by
    rw [idsOf, hg.tokens, assignIds_eq h.arranged]
  have hkeys : ((idsOf g).map (·.1)).Nodup := by
    rw [hids, List.map_reverse, List.nodup_reverse, List.map_map]
    exact hl.indices
  intro p hp
  rw [Pairs.lookup_eq_some_iff_mem hkeys, hids, List.mem_reverse, (hl.fits p hp).named]
  exact List.mem_map.2 ⟨p, hp, by rw [(hl.fits p hp).named]⟩

/-- A head that may be named is written as it was. -/
theorem Numbered.idOf_locate (h : Numbered g locate ts) (hl : Listed known locate ts) {head : String} (hm : head ∈ known) :
    idOf (idsOf g) (locate head) = head := by
  rw [hl.known_eq] at hm
  obtain ⟨p, hp, rfl⟩ := List.mem_map.1 hm
  rw [idOf, h p hp]
  rfl

/-! ## Heads and links -/

/-- No head that may be named is a zero or a column without content. -/
theorem Listed.head_ne (hl : Listed known locate ts) {head : String} (hm : head ∈ known) : head ≠ "0" ∧ head ≠ blank := by
  rw [hl.known_eq] at hm
  obtain ⟨p, hp, rfl⟩ := List.mem_map.1 hm
  rw [(hl.fits p hp).named]
  exact text_ne (hl.counts p hp)

/-- The plain edge into a token is the one that the head of its row gives. -/
theorem governorEdge?_eq (hg : Mirrors g multiwords locate ts) {p : Row × RowId} (hp : p ∈ ts) :
    g.governorEdge? (locate p.1.id) = (p.1.plainEdge locate (locate p.1.id)).head? := by
  rw [Graph.governorEdge?, hg.entering p hp, edgesAt, List.find?_append]
  have hextra : (p.1.linkEdges locate (locate p.1.id)).find? (fun e => !e.extra) = none := by
    refine List.find?_eq_none.2 fun e he => ?_
    obtain ⟨link, -, rfl⟩ := List.mem_map.1 he
    simp
  rw [hextra, Option.or_none, Row.plainEdge]
  split <;> rfl

/-- The extra edges into a token are those that the links of its row give. -/
theorem filter_extra_eq (hg : Mirrors g multiwords locate ts) {p : Row × RowId} (hp : p ∈ ts) :
    (g.incomingBySlot (locate p.1.id)).filter (·.extra) = p.1.linkEdges locate (locate p.1.id) := by
  have hextra : (p.1.linkEdges locate (locate p.1.id)).filter (·.extra) = p.1.linkEdges locate (locate p.1.id) := by
    refine List.filter_eq_self.2 fun e he => ?_
    obtain ⟨link, -, rfl⟩ := List.mem_map.1 he
    rfl
  have hplain : (p.1.plainEdge locate (locate p.1.id)).filter (·.extra) = [] := by
    rw [Row.plainEdge]
    split <;> rfl
  rw [hg.entering p hp, edgesAt, List.filter_append, hplain, hextra, List.nil_append]

/-- Head and relation of a row are written as they were. -/
theorem headColumns_eq (hl : Listed known locate ts) (hg : Mirrors g multiwords locate ts) (hn : Numbered g locate ts)
    {p : Row × RowId} (hp : p ∈ ts) :
    headColumns g (idsOf g) (tokenAt multiwords locate p) = (p.1.head, p.1.relation) := by
  have hrelation : column (content p.1.relation) = p.1.relation :=
    column_content ((hl.fits p hp).columns p.1.relation (by simp [Row.columns, Row.tail])).1
  obtain ⟨-, -, -, -, -, -, -, hroot⟩ := fields_tokenAt multiwords locate p
  rw [headColumns, index_tokenAt, governorEdge?_eq hg hp, isEmptyNode_tokenAt (hl.isToken p hp) (hl.counts p hp), hroot]
  rcases (hl.fits p hp).head (hl.isToken p hp) with ⟨hzero, hordinary⟩ | ⟨hblank, hnone⟩ | hm
  · have hisroot := (hg.isRoot p hp).2 hzero
    simp [Row.plainEdge, hzero, hordinary, hisroot, hrelation]
  · have hisroot : g.isRoot (locate p.1.id) = false :=
      Bool.eq_false_iff.2 fun e => absurd ((hg.isRoot p hp).1 e) (by rw [hblank]; decide)
    simp [Row.plainEdge, hblank, hnone, hisroot]
  · obtain ⟨hzero, hblank⟩ := hl.head_ne hm
    simp [Row.plainEdge, hzero, hblank, hn.idOf_locate hl hm, hrelation]

/-- The relation of the root is the one of the last link whose head is zero. -/
theorem Row.Linked.enhancedRoot_eq {r : Row} (h : r.Linked known) :
    r.enhancedRoot = (r.links.filterMap fun p => if p.1 = "0" then some p.2 else none).getLast?.getD "" := by
  rw [Row.enhancedRoot, h.entries, List.filterMap_map]
  refine congrArg (fun l : List String => l.getLast?.getD "") (List.filterMap_congr fun p hp => ?_)
  rw [Function.comp_apply, toList_linkText, Text.splitFirst?_append (h.plain p hp)]
  by_cases hz : p.1 = "0"
  · simp [hz]
  · have hchars : p.1.toList ≠ ['0'] := fun e => hz (String.toList_inj.1 e)
    rw [if_neg hz]
    split
    · rename_i heq
      exact absurd (Prod.mk.inj (Option.some.inj heq)).1 hchars
    · rfl

/-- Of the links that fit, the first one may have the head zero, and no other. -/
theorem LinksFit.cases {links : List (String × String)} (h : LinksFit known links) :
    (∀ p ∈ links, p.1 ≠ "0") ∨
      ∃ relation rest, links = ("0", relation) :: rest ∧ relation ≠ "" ∧ ∀ p ∈ rest, p.1 ≠ "0" := by
  cases links with
  | nil => exact Or.inl fun _ hp => by cases hp
  | cons p rest =>
    obtain ⟨head, relation⟩ := p
    by_cases hz : head = "0"
    · subst hz
      exact Or.inr ⟨relation, rest, rfl, (h.relations _ (List.mem_cons_self ..)).1, h.root⟩
    · exact Or.inl (List.forall_mem_cons.2 ⟨hz, h.root⟩)

/-- The enhanced column of a row is written as it was. -/
theorem depsColumn_eq (hl : Listed known locate ts) (hg : Mirrors g multiwords locate ts) (hn : Numbered g locate ts)
    {p : Row × RowId} (hp : p ∈ ts) : depsColumn g (idsOf g) (tokenAt multiwords locate p) = p.1.deps := by
  have hlinked := (hl.fits p hp).linked (hl.isToken p hp) hl.plain
  obtain ⟨-, -, -, -, -, -, hroot, -⟩ := fields_tokenAt multiwords locate p
  have hextra : (p.1.linkEdges locate (locate p.1.id)).map (fun e => idOf (idsOf g) e.governor ++ ":" ++ e.relation) =
      (p.1.links.filter (·.1 != "0")).map linkText := by
    rw [Row.linkEdges, List.map_map]
    refine List.map_congr_left fun link hlink => ?_
    obtain ⟨hlink, hz⟩ := List.mem_filter.1 hlink
    have hm : link.1 ∈ known := (hlinked.fits.heads link hlink).resolve_left (by simpa using hz)
    rw [Function.comp_apply, hn.idOf_locate hl hm]
    rfl
  have hentries : (if p.1.enhancedRoot = "" then [] else ["0:" ++ p.1.enhancedRoot]) ++
      (p.1.links.filter (·.1 != "0")).map linkText = p.1.links.map linkText := by
    rw [hlinked.enhancedRoot_eq]
    rcases hlinked.fits.cases with hno | ⟨relation, rest, hlinks, hne, hno⟩
    · have hnone : p.1.links.filterMap (fun p => if p.1 = "0" then some p.2 else none) = [] :=
        List.filterMap_eq_nil_iff.2 fun q hq => if_neg (hno q hq)
      have hall : p.1.links.filter (·.1 != "0") = p.1.links := List.filter_eq_self.2 fun q hq => by simpa using hno q hq
      rw [hnone, hall]
      rfl
    · have hnone : rest.filterMap (fun p => if p.1 = "0" then some p.2 else none) = [] :=
        List.filterMap_eq_nil_iff.2 fun q hq => if_neg (hno q hq)
      have hall : rest.filter (·.1 != "0") = rest := List.filter_eq_self.2 fun q hq => by simpa using hno q hq
      simp [hlinks, hnone, hall, hne, linkText]
  rw [depsColumn, index_tokenAt, filter_extra_eq hg hp, hextra, hroot, hlinked.deps, linksText]
  dsimp only
  rw [hentries]
  cases p.1.links <;> rfl

/-! ## Rows -/

/-- The row of a token is written as it was. -/
theorem rowOf_eq (hl : Listed known locate ts) (hg : Mirrors g multiwords locate ts) (hn : Numbered g locate ts)
    {p : Row × RowId} (hp : p ∈ ts) : rowOf g (idsOf g) (tokenAt multiwords locate p) = { p.1 with lineNumber := 0 } := by
  have hcolumn : ∀ c ∈ p.1.columns, column (content c) = c := fun c hc => column_content ((hl.fits p hp).columns c hc).1
  simp only [Row.columns, Row.tail, List.forall_mem_cons] at hcolumn
  obtain ⟨-, hform, hbaseForm, hupos, htag, hfeats, -, -, -, hmisc, -⟩ := hcolumn
  obtain ⟨hform', hbaseForm', hupos', htag', hfeats', hmisc', -, -⟩ := fields_tokenAt multiwords locate p
  rw [rowOf, headColumns_eq hl hg hn hp, depsColumn_eq hl hg hn hp, hform', hbaseForm', hupos', htag', hfeats', hmisc', hform,
    hbaseForm, hupos, htag, hfeats, hmisc, index_tokenAt, idOf, hn p hp]
  rfl

/-- The ids of ordinary tokens by position are their positions in writing. -/
theorem lookup_idsByPosition (hl : Listed known locate ts) (hg : Mirrors g multiwords locate ts) (hn : Numbered g locate ts)
    {n : Nat} {id : String} (h : (idsByPosition (idsOf g) g.tokensInOrder).lookup (n : Int) = some id) : id = toString n := by
  have hm := Pairs.mem_of_lookup_eq h
  rw [idsByPosition, List.mem_reverse, List.mem_map, hg.tokens] at hm
  obtain ⟨t, ht, e⟩ := hm
  obtain ⟨ht, hempty⟩ := List.mem_filter.1 ht
  obtain ⟨p, hp, rfl⟩ := List.mem_map.1 ht
  obtain ⟨hposition, hid⟩ := Prod.mk.inj e
  rw [isEmptyNode_tokenAt (hl.isToken p hp) (hl.counts p hp), Bool.not_not] at hempty
  rw [(hl.place_tokenAt multiwords hp).1] at hposition
  rw [← hid, index_tokenAt, idOf, hn p hp, Option.getD_some, (hl.fits p hp).named]
  obtain ⟨row, id⟩ := p
  cases id with
  | ordinary m =>
    have hm : m = n := Int.ofNat.inj hposition
    rw [hm]
    rfl
  | span start stop => cases hempty
  | elided host m => cases hempty

/-- The row of a surface word is written as it was. -/
theorem spanRow_eq (hl : Listed known locate ts) (hg : Mirrors g multiwords locate ts) (hn : Numbered g locate ts)
    {p : Row × RowId} (hp : p.1.Fits known p.2) {m : Multiword} (hm : multiword? p = some m) :
    spanRow (idsByPosition (idsOf g) g.tokensInOrder) m = p.1.text := by
  obtain ⟨row, id⟩ := p
  cases id with
  | ordinary n => cases hm
  | elided host n => cases hm
  | span start stop =>
    cases hm
    have hid : ∀ n : Nat,
        ((idsByPosition (idsOf g) g.tokensInOrder).lookup (n : Int)).getD (toString (n : Int)) = toString n := by
      intro n
      cases h : (idsByPosition (idsOf g) g.tokensInOrder).lookup (n : Int) with
      | none => rfl
      | some id => exact lookup_idsByPosition hl hg hn h
    have hform : column row.form = row.form := if_neg (hp.columns row.form (by simp [Row.columns])).1
    have hnamed : row.id = toString start ++ "-" ++ toString stop := hp.named
    rw [Row.text, Row.columns, hnamed, spanRow]
    dsimp only
    rw [hid, hid, hform]
    rfl

/-! ## Lines -/

/-- Behind the rows of spans comes the ordinary token with which they begin. -/
theorem exists_ordinary_of_due {k b : Nat} (h : Arranged k b true (ps.map (·.2))) :
    ∃ row rest, ps.filter (·.2.isToken) = (row, .ordinary (k + 1)) :: rest := by
  induction ps with
  | nil => cases h
  | cons p ps ih =>
    obtain ⟨row, id⟩ := p
    cases id with
    | ordinary n =>
      obtain ⟨rfl, -⟩ := h
      exact ⟨row, _, List.filter_cons_of_pos rfl⟩
    | span start stop =>
      obtain ⟨-, -, h⟩ := h
      rw [List.filter_cons_of_neg Bool.false_ne_true]
      exact ih h
    | elided host n => cases h.1

/-- Surface words begin with the numbers that their rows say. -/
theorem start_of_mem {m : Multiword} (hm : m ∈ ps.filterMap multiword?) :
    ∃ start stop : Nat, .span start stop ∈ ps.map (·.2) ∧ m.start = start := by
  obtain ⟨⟨row, id⟩, hp, hm⟩ := List.mem_filterMap.1 hm
  cases id with
  | ordinary n => cases hm
  | elided host n => cases hm
  | span start stop =>
    cases hm
    exact ⟨start, stop, List.mem_map_of_mem hp, rfl⟩

/-- Surface words come in the order in which they begin. -/
theorem sortBy_start_eq {k b : Nat} {due : Bool} (h : Arranged k b due (ps.map (·.2))) :
    Order.sortBy (compareOn Multiword.start) (ps.filterMap multiword?) = ps.filterMap multiword? := by
  refine Order.sortBy_eq_self ?_
  induction ps generalizing k b due with
  | nil => exact List.Pairwise.nil
  | cons p ps ih =>
    obtain ⟨row, id⟩ := p
    cases id with
    | ordinary n =>
      obtain ⟨rfl, h⟩ := h
      exact ih h
    | elided host n =>
      obtain ⟨-, -, -, h⟩ := h
      exact ih h
    | span start stop =>
      obtain ⟨rfl, -, h⟩ := h
      refine List.pairwise_cons.2 ⟨fun m hm => ?_, ih h⟩
      obtain ⟨start, stop', hm, hstart⟩ := start_of_mem hm
      have hlt := lt_of_span_mem h hm
      have hle : ((k + 1 : Nat) : Int) ≤ m.start := by omega
      exact Int.isLE_compare.2 hle

/-- A surface word that is due is written before the token. -/
theorem rowLines_due {ids byPosition : List (Int × String)} {m : Multiword} {pending : List Multiword} {t : Token}
    {tokens : List Token} (hempty : t.isEmptyNode = false) (hdue : m.start ≤ t.position) :
    rowLines g ids byPosition (m :: pending) (t :: tokens) =
      spanRow byPosition m :: rowLines g ids byPosition pending (t :: tokens) := by
  simp [rowLines, hempty, hdue]

/-- A token before which no surface word is due is written next. -/
theorem rowLines_idle {ids byPosition : List (Int × String)} {pending : List Multiword} {t : Token} {tokens : List Token}
    (h : t.isEmptyNode = true ∨ ∀ m ∈ pending, t.position < m.start) :
    rowLines g ids byPosition pending (t :: tokens) = (rowOf g ids t).text :: rowLines g ids byPosition pending tokens := by
  cases pending with
  | nil => rfl
  | cons m pending =>
    have hidle : (!t.isEmptyNode && decide (m.start ≤ t.position)) = false := by
      rcases h with h | h
      · rw [h]
        rfl
      · have := h m (List.mem_cons_self ..)
        rw [decide_eq_false (by omega), Bool.and_false]
    simp [rowLines, hidle]

/-- The rows of a canonical sentence are written as they were, if each of them is. -/
theorem rowLines_eq {ids byPosition : List (Int × String)} {k b : Nat} {due : Bool} (h : Arranged k b due (ps.map (·.2)))
    (hplace : ∀ row (n : Nat), (row, .ordinary n) ∈ ps → locate row.id = n)
    (hrow : ∀ p ∈ ps, p.2.isToken → (rowOf g ids (tokenAt multiwords locate p)).text = p.1.text)
    (hspan : ∀ p ∈ ps, ∀ m, multiword? p = some m → spanRow byPosition m = p.1.text) :
    rowLines g ids byPosition (ps.filterMap multiword?) ((ps.filter (·.2.isToken)).map (tokenAt multiwords locate)) =
      ps.map (·.1.text) := by
  -- What is pending are the words of the rows still to come, none of which begins before the tokens still to come.
  induction ps generalizing k b due with
  | nil => rfl
  | cons p ps ih =>
    obtain ⟨row, id⟩ := p
    obtain ⟨hp, hrow'⟩ := List.forall_mem_cons.1 hrow
    obtain ⟨hp', hspan'⟩ := List.forall_mem_cons.1 hspan
    have hplace' : ∀ row (n : Nat), (row, .ordinary n) ∈ ps → locate row.id = n := fun row n hm =>
      hplace row n (List.mem_cons_of_mem _ hm)
    cases id with
    | ordinary n =>
      obtain ⟨rfl, h⟩ := h
      have hposition : (tokenAt multiwords locate (row, .ordinary (k + 1))).position = (k + 1 : Nat) :=
        hplace row (k + 1) (List.mem_cons_self ..)
      have hlater : ∀ m ∈ ps.filterMap multiword?, (tokenAt multiwords locate (row, .ordinary (k + 1))).position < m.start := by
        intro m hm
        obtain ⟨start, stop, hm, hstart⟩ := start_of_mem hm
        have := lt_of_span_mem h hm
        omega
      rw [List.filterMap_cons_none rfl, List.filter_cons_of_pos rfl, List.map_cons, rowLines_idle (Or.inr hlater),
        hp rfl, ih h hplace' hrow' hspan']
      rfl
    | span start stop =>
      obtain ⟨rfl, -, h⟩ := h
      have hih := ih h hplace' hrow' hspan'
      -- The next token is the one with which the word begins, so the word is due.
      obtain ⟨next, rest, hnext⟩ := exists_ordinary_of_due h
      have hmem : (next, .ordinary (k + 1)) ∈ ps := (List.mem_filter.1 (hnext ▸ List.mem_cons_self ..)).1
      have hposition : (tokenAt multiwords locate (next, .ordinary (k + 1))).position = (k + 1 : Nat) :=
        hplace' next (k + 1) hmem
      rw [List.filter_cons_of_neg Bool.false_ne_true,
        List.filterMap_cons_some (rfl : multiword? (row, .span (k + 1) stop) = some _)]
      rw [hnext, List.map_cons] at hih ⊢
      rw [rowLines_due rfl hposition.ge, hih, hp' _ rfl]
      rfl
    | elided host n =>
      obtain ⟨-, rfl, hn, h⟩ := h
      rw [List.filterMap_cons_none rfl, List.filter_cons_of_pos rfl, List.map_cons,
        rowLines_idle (Or.inl (isEmptyNode_elided (Nat.zero_lt_of_lt hn))), hp rfl, ih h hplace' hrow' hspan']
      rfl

/-! ## Sentences -/

/-- A sentence, character by character. -/
theorem toList_sentenceText (comments : List String) (rows : List Row) :
    (sentenceText comments rows).toList = ((sentenceLines comments rows).map String.toList).flatMap (· ++ ['\n']) := by
  simp [sentenceText, String.toList_join, List.flatMap_map]

/-- A graph is written as the sentence of its comments and of the rows that its lines are. -/
theorem writeGraph_eq_sentenceText {rows : List Row}
    (h : rowLines g (idsOf g) (idsByPosition (idsOf g) g.tokensInOrder)
      (Order.sortBy (compareOn Multiword.start) g.multiwords) g.tokensInOrder = rows.map Row.text)
    (hne : rows ≠ []) : writeGraph g = sentenceText g.comments rows := by
  have hlines : (g.comments ++ rows.map Row.text).map String.toList ≠ [] := by simp [hne]
  rw [writeGraph, h, ← String.toList_inj, toList_sentenceText, sentenceLines, List.map_append, List.flatMap_append,
    ← Text.intercalate_append hlines]
  simp [String.toList_intercalate]

/-- The graph of a canonical sentence is written as the sentence. -/
theorem Sheet.writeGraph_eq (h : Sheet known ps) (hne : ps ≠ []) (hl : Listed known locate (ps.filter (·.2.isToken)))
    (hg : Mirrors g (ps.filterMap multiword?) locate (ps.filter (·.2.isToken))) (hwords : g.multiwords = ps.filterMap multiword?) :
    writeGraph g = sentenceText g.comments (ps.map (·.1)) := by
  have hn := h.numbered hl hg
  have hrows : rowLines g (idsOf g) (idsByPosition (idsOf g) g.tokensInOrder)
      (Order.sortBy (compareOn Multiword.start) g.multiwords) g.tokensInOrder = (ps.map (·.1)).map Row.text := by
    have hplace : ∀ row (n : Nat), (row, .ordinary n) ∈ ps → locate row.id = n := fun row n hm =>
      hl.ordinary row n (List.mem_filter.2 ⟨hm, rfl⟩)
    have hrow : ∀ p ∈ ps, p.2.isToken →
        (rowOf g (idsOf g) (tokenAt (ps.filterMap multiword?) locate p)).text = p.1.text := by
      intro p hp ht
      rw [rowOf_eq hl hg hn (List.mem_filter.2 ⟨hp, ht⟩)]
      rfl
    have hlines := rowLines_eq h.arranged hplace hrow fun p hp m hm => spanRow_eq hl hg hn (h.fits p hp) hm
    rw [← hg.tokens] at hlines
    rw [hwords, sortBy_start_eq h.arranged, hlines, List.map_map]
    rfl
  exact writeGraph_eq_sentenceText hrows (by simp [hne])

end Treebank.Conllu

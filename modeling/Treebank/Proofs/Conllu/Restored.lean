import Treebank.Proofs.Conllu.Rows

/-!
# Graphs that are read back

A graph of which nothing is lost in writing is read back but for its indices, positions and slots: reading gives one graph, into which
every token goes as the one of its row, with its fields, its place among the ordinary tokens, its being a root, and its edges in their
order (`Restores`).
-/

namespace Treebank

/-- An edge between the tokens that `f` gives for its ends. -/
def Edge.renamed (f : Int → Int) (e : Edge) : Edge := { e with governor := f e.governor, dependent := f e.dependent }

/-- A token keeps what its row says of it. -/
structure Token.Kept (t u : Token) : Prop where
  word : u.word = t.word
  baseForm : u.baseForm = t.baseForm
  upos : u.upos = t.upos
  tag : u.tag = t.tag
  feats : u.feats = t.feats
  misc : u.misc = t.misc
  enhancedRootRelation : u.enhancedRootRelation = t.enhancedRootRelation
  isEmptyNode : u.isEmptyNode = t.isEmptyNode

namespace Conllu

/-- What is kept of a graph that is written and read: `f` takes every token to the one that is read from its row. -/
structure Restores (f : Int → Int) (g h : Graph) : Prop where
  /-- The tokens that are read are those of the rows. -/
  indices : h.indices.Perm (g.indices.map f)
  /-- No two tokens go to one. -/
  apart : (g.indices.map f).Nodup
  /-- A token goes to the one that is read from the line of its row, behind the comments. -/
  token : ∀ k t, g.tokensInOrder[k]? = some t →
    ∃ u, h.token? (f t.index) = some u ∧ u.lineNumber = (g.comments.length + k + 1 : Nat) ∧ t.Kept u
  /-- Ordinary tokens stand in the order in which they stood. -/
  order : (h.tokensInOrder.filter (!·.isEmptyNode)).map (·.index) =
    (g.tokensInOrder.filter (!·.isEmptyNode)).map fun t => f t.index
  roots : ∀ index, h.isRoot index ↔ ∃ root, g.isRoot root ∧ f root = index
  /-- The edges are those between the tokens to which their ends go, as often, but for their weights. -/
  edges : (h.edges.map Edge.outline).Perm (g.edges.map fun e => (e.renamed f).outline)
  /-- The extra edges into a token stand in the order in which they stood. -/
  extra : ∀ index ∈ g.indices, ((h.incomingBySlot (f index)).filter (·.extra)).map Edge.outline =
    ((g.incomingBySlot index).filter (·.extra)).map fun e => (e.renamed f).outline
  comments : h.comments = g.comments

/-! ## The graph that is read -/

section Read

variable {g h : Graph} {locate : String → Int} {n : Nat}

/-- Where a token goes: to the one that is found by its id. -/
def goesTo (g : Graph) (locate : String → Int) (index : Int) : Int := locate (idOf (idsOf g) index)

/-- The head column of a row gives the plain edge into its token. -/
theorem outline_plainEdge (hg : Writable g) {x : (Token × RowId) × Nat} (hx : x ∈ placed g n) :
    ((entryOf g x).1.plainEdge locate (locate (entryOf g x).1.id)).map Edge.outline =
      ((g.governorEdge? x.1.1.index).toList).map fun e => (e.renamed (goesTo g locate)).outline := by
  have ht : x.1.1 ∈ g.tokensInOrder := map_placed g n ▸ List.mem_map_of_mem hx
  rw [Row.plainEdge]
  show (if (headColumns g (idsOf g) x.1.1).1 = "0" || (headColumns g (idsOf g) x.1.1).1 = blank then _ else
    [({ governor := locate (headColumns g (idsOf g) x.1.1).1, dependent := goesTo g locate x.1.1.index,
        relation := content (headColumns g (idsOf g) x.1.1).2 } : Edge)]).map Edge.outline = _
  rcases hg.headColumns_cases ht with ⟨e, he, hgovernor, hrelation, hh⟩ | ⟨he, -, -, hh⟩ | ⟨he, -, hh⟩
  · obtain ⟨id, hcounts, hid⟩ := idOf_text hg.sound hgovernor
    obtain ⟨hzero, hblank⟩ := text_ne hcounts
    obtain ⟨hextra, hentering⟩ := Graph.plain_of_governorEdge? he
    obtain ⟨-, -, -, hdependent⟩ := Graph.exists_arc_of_mem_incomingBySlot hentering
    rw [← hid] at hzero hblank
    simp [hh, he, hzero, hblank, content_column hrelation.1, Edge.outline, Edge.renamed, goesTo, hextra, hdependent]
  · simp [hh, he]
  · simp [hh, he]

/-- The links of a row give the extra edges into its token. -/
theorem outline_linkEdges (hg : Writable g) (hknown : Plain (knownIds g)) {x : (Token × RowId) × Nat} (hx : x ∈ placed g n) :
    ((entryOf g x).1.linkEdges locate (locate (entryOf g x).1.id)).map Edge.outline =
      ((g.incomingBySlot x.1.1.index).filter (·.extra)).map fun e => (e.renamed (goesTo g locate)).outline := by
  have ht : x.1.1 ∈ g.tokensInOrder := map_placed g n ▸ List.mem_map_of_mem hx
  rw [Row.linkEdges, hg.links_entryOf hknown hx, hg.filter_linksOf, List.map_map, List.map_map]
  refine List.map_congr_left fun e he => ?_
  obtain ⟨hextra, hdependent, -⟩ := hg.presentable.of_mem_extra he
  simp only [Function.comp_apply, Edge.outline, Edge.renamed, goesTo, hextra, hdependent]
  rfl

/-- The edges of a row are those that enter its token. -/
theorem outline_edgesAt (hg : Writable g) (hknown : Plain (knownIds g)) {x : (Token × RowId) × Nat} (hx : x ∈ placed g n) :
    (edgesAt locate (entryOf g x)).map Edge.outline =
      (rowEdges g x.1.1).map fun e => (e.renamed (goesTo g locate)).outline := by
  rw [edgesAt, List.map_append, outline_plainEdge hg hx, outline_linkEdges hg hknown hx, ← List.map_append]
  rfl

variable {multiwords : List Multiword}

/-- Tokens that are placed go to the indices of their rows. -/
theorem map_locate_rowsOf (g : Graph) (locate : String → Int) (n : Nat) :
    (rowsOf g n).map (fun p => locate p.1.id) = (g.tokensInOrder.map (·.index)).map (goesTo g locate) := by
  rw [rowsOf, ← map_placed g n, List.map_map, List.map_map, List.map_map]
  rfl

/-- A token that is read is elided exactly if it was. -/
theorem isEmptyNode_entryOf {x : (Token × RowId) × Nat} (hx : x ∈ placed g n) :
    (tokenAt multiwords locate (entryOf g x)).isEmptyNode = x.1.1.isEmptyNode := by
  obtain ⟨htoken, hcounts, hordinary⟩ := of_mem_withIds (mem_of_placed hx).1
  have hread : (tokenAt multiwords locate (entryOf g x)).isEmptyNode = !x.1.2.isOrdinary := isEmptyNode_tokenAt htoken hcounts
  rw [hread, hordinary, Bool.not_not]

/-- A token keeps what its row says of it. -/
theorem kept_entryOf (hg : Writable g) (hknown : Plain (knownIds g)) {x : (Token × RowId) × Nat} (hx : x ∈ placed g n) :
    x.1.1.Kept (tokenAt multiwords locate (entryOf g x)) := by
  have hfields := hg.fields x.1.1 (g.perm_tokensInOrder.mem_iff.1 (mem_of_placed hx).2)
  have hback : ∀ s ∈ [x.1.1.word, x.1.1.baseForm, x.1.1.upos, x.1.1.tag, x.1.1.feats, x.1.1.misc], content (column s) = s :=
    fun s hs => content_column (hfields s hs).1
  simp only [List.forall_mem_cons] at hback
  obtain ⟨hword, hbaseForm, hupos, htag, hfeats, hmisc, -⟩ := hback
  obtain ⟨hword', hbaseForm', hupos', htag', hfeats', hmisc', hroot, -⟩ := fields_tokenAt multiwords locate (entryOf g x)
  exact ⟨hword'.trans hword, hbaseForm'.trans hbaseForm, hupos'.trans hupos, htag'.trans htag, hfeats'.trans hfeats,
    hmisc'.trans hmisc, hroot.trans (hg.enhancedRoot_entryOf hknown hx), isEmptyNode_entryOf hx⟩

/-- A token is read from the line of its row. -/
theorem lineNumber_entryOf (x : (Token × RowId) × Nat) : (tokenAt multiwords locate (entryOf g x)).lineNumber = x.2 := by
  obtain ⟨⟨t, id⟩, k⟩ := x
  cases id <;> rfl

end Read

/-- The graph `h` is made of what the rows of `g` give, the first of which stands in line `n`; `locate` finds tokens by their ids. -/
structure Rebuilt (g h : Graph) (locate : String → Int) (multiwords : List Multiword) (n : Nat) : Prop where
  located : Located (knownIds g) locate (rowsOf g n)
  made : h.MadeOf ((rowsOf g n).map (tokenAt multiwords locate)) ((rowsOf g n).flatMap (edgesAt locate)) (rootsAt locate (rowsOf g n))

namespace Rebuilt

variable {g h : Graph} {locate : String → Int} {multiwords : List Multiword} {n : Nat}

/-- The tokens that are read are those of the rows. -/
theorem perm_indices (hg : Writable g) (hr : Rebuilt g h locate multiwords n) :
    h.indices.Perm (g.indices.map (goesTo g locate)) := by
  have hindices : ((rowsOf g n).map (tokenAt multiwords locate)).map (·.index) =
      (g.tokensInOrder.map (·.index)).map (goesTo g locate) := by
    rw [← map_locate_rowsOf g locate n, List.map_map]
    exact List.map_congr_left fun p _ => index_tokenAt multiwords locate p
  exact (hindices ▸ hr.made.indices).trans (hg.sound.perm_indices.map _)

/-- No two tokens go to one. -/
theorem nodup_goesTo (hg : Writable g) (hr : Rebuilt g h locate multiwords n) : (g.indices.map (goesTo g locate)).Nodup := by
  have hapart := hr.located.indices
  rw [map_locate_rowsOf] at hapart
  exact (hg.sound.perm_indices.map _).nodup_iff.1 hapart

/-- A token goes to the one that is read from the line of its row, and keeps what the row says. -/
theorem exists_kept (hg : Writable g) (hr : Rebuilt g h locate multiwords n) {k : Nat} {t : Token}
    (ht : g.tokensInOrder[k]? = some t) :
    ∃ u, h.token? (goesTo g locate t.index) = some u ∧ u.lineNumber = (n + k : Nat) ∧ t.Kept u := by
  rw [← map_fst_withIds 0 g.tokensInOrder, List.getElem?_map, Option.map_eq_some_iff] at ht
  obtain ⟨p, hp, rfl⟩ := ht
  have hx : (p, n + k) ∈ placed g n := List.mk_add_mem_zipIdx_iff_getElem?.2 hp
  have htoken := (hr.located.holds hr.made).token _ (List.mem_map_of_mem hx)
  exact ⟨_, htoken, lineNumber_entryOf _, kept_entryOf hg hr.located.plain hx⟩

/-- The numbers of the ordinary tokens ascend. -/
theorem pairwise_ordinary (hr : Rebuilt g h locate multiwords n) :
    (((rowsOf g n).map (tokenAt multiwords locate)).filter (!·.isEmptyNode)).Pairwise fun t u => Token.cmp t u = .lt := by
  have hnumbers : (placed g n).Pairwise fun x y => y.1.2.isOrdinary → x.1.2.isOrdinary → x.1.2.place.1 < y.1.2.place.1 := by
    have hids := pairwise_withIds 0 g.tokensInOrder
    rw [← List.zipIdx_map_fst n (withIds 0 g.tokensInOrder)] at hids
    exact List.pairwise_map.1 hids
  have hordinary : ∀ x ∈ (placed g n).filter fun x => !(tokenAt multiwords locate (entryOf g x)).isEmptyNode,
      x.1.2.isOrdinary ∧ (tokenAt multiwords locate (entryOf g x)).position = (x.1.2.place.1 : Nat) := by
    intro x hx
    obtain ⟨hx, hordinary⟩ := List.mem_filter.1 hx
    rw [isEmptyNode_entryOf hx, ← (of_mem_withIds (mem_of_placed hx).1).2.2] at hordinary
    exact ⟨hordinary, (hr.located.place_tokenAt multiwords (List.mem_map_of_mem hx)).1⟩
  rw [rowsOf, List.map_map, List.filter_map]
  refine List.pairwise_map.2 ((hnumbers.filter _).imp_of_mem fun {x y} hx hy hlt => ?_)
  obtain ⟨hx, hplace⟩ := hordinary x hx
  obtain ⟨hy, hplace'⟩ := hordinary y hy
  have hlt := hlt hy hx
  simp only [Token.cmp, compareLex, compareOn, Function.comp_apply, hplace, hplace', Ordering.then_eq_lt, Int.compare_eq_lt]
  omega

/-- Ordinary tokens are read in the order in which they stood. -/
theorem ordinary_eq (hr : Rebuilt g h locate multiwords n) :
    (h.tokensInOrder.filter (!·.isEmptyNode)).map (·.index) =
      (g.tokensInOrder.filter (!·.isEmptyNode)).map fun t => goesTo g locate t.index := by
  have hread := Order.filter_sortBy_eq_of_perm (hr.made.tokens.filter (!·.isEmptyNode)) hr.pairwise_ordinary
  rw [Graph.tokensInOrder, hread, ← map_placed g n, rowsOf, List.map_map, List.filter_map, List.filter_map, List.map_map,
    List.map_map]
  have hsame : (placed g n).filter ((fun t : Token => !t.isEmptyNode) ∘ tokenAt multiwords locate ∘ entryOf g) =
      (placed g n).filter ((fun t : Token => !t.isEmptyNode) ∘ fun x => x.1.1) := by
    refine List.filter_congr fun x hx => ?_
    rw [Function.comp_apply, Function.comp_apply, Function.comp_apply, isEmptyNode_entryOf hx]
  rw [hsame]
  exact List.map_congr_left fun x _ => index_tokenAt multiwords locate (entryOf g x)

/-- The roots that are read are those to which the roots go. -/
theorem isRoot_iff (hg : Writable g) (hr : Rebuilt g h locate multiwords n) (index : Int) :
    h.isRoot index ↔ ∃ root, g.isRoot root ∧ goesTo g locate root = index := by
  have hhead : ∀ x ∈ placed g n, (entryOf g x).1.head = "0" ↔ g.isRoot x.1.1.index := by
    intro x hx
    show (headColumns g (idsOf g) x.1.1).1 = "0" ↔ _
    rcases hg.headColumns_cases (mem_of_placed hx).2 with ⟨e, he, hgovernor, -, hh⟩ | ⟨-, hroot, -, hh⟩ | ⟨-, hroot, hh⟩
    · obtain ⟨id, hcounts, hid⟩ := idOf_text hg.sound hgovernor
      rw [hh, hid]
      refine ⟨fun e => absurd e (text_ne hcounts).1, fun hroot => ?_⟩
      rw [(hg.roots x.1.1.index (List.contains_iff_mem.1 hroot)).1] at he
      cases he
    · simp [hh, hroot]
    · simp [hh, hroot, blank]
  rw [hr.made.isRoot, rootsAt, rowsOf]
  constructor
  · intro hm
    obtain ⟨p, hp, rfl⟩ := List.mem_map.1 hm
    obtain ⟨hp, hzero⟩ := List.mem_filter.1 hp
    obtain ⟨x, hx, rfl⟩ := List.mem_map.1 hp
    exact ⟨x.1.1.index, (hhead x hx).1 (beq_iff_eq.1 hzero), rfl⟩
  · rintro ⟨root, hroot, rfl⟩
    obtain ⟨t, ht, rfl⟩ := hg.sound.exists_token (hg.sound.roots root (List.contains_iff_mem.1 hroot))
    rw [← map_placed g n] at ht
    obtain ⟨x, hx, rfl⟩ := List.mem_map.1 ht
    have hzero := (hhead x hx).2 hroot
    exact List.mem_map.2 ⟨entryOf g x, List.mem_filter.2 ⟨List.mem_map_of_mem hx, beq_iff_eq.2 hzero⟩, rfl⟩

/-- The edges that are read are those of the graph, between the tokens to which their ends go. -/
theorem perm_outlines (hg : Writable g) (hr : Rebuilt g h locate multiwords n) :
    (h.edges.map Edge.outline).Perm (g.edges.map fun e => (e.renamed (goesTo g locate)).outline) := by
  have hrows : ((rowsOf g n).flatMap (edgesAt locate)).map Edge.outline =
      (g.tokensInOrder.flatMap (rowEdges g)).map fun e => (e.renamed (goesTo g locate)).outline := by
    rw [← map_placed g n, rowsOf, List.flatMap_map, List.flatMap_map, List.map_flatMap, List.map_flatMap]
    exact List.flatMap_congr fun x hx => outline_edgesAt hg hr.located.plain hx
  have hread := hr.made.edges.map Edge.outline
  have hwritten := (perm_flatMap_rowEdges hg.sound hg.governors).map fun e => (e.renamed (goesTo g locate)).outline
  have hedges : g.edges.Perm (g.arcs.map (·.edge)) :=
    (Order.perm_sortBy Edge.cmp g.edgesBySlot).trans ((Order.perm_sortBy (compareOn Arc.slot) g.arcs).map _)
  rw [hrows, List.map_map] at hread
  exact h.perm_outlines.trans (hread.trans (hwritten.trans (hedges.map _).symm))

/-- The extra edges into a token are read in the order in which they stood. -/
theorem extra_eq (hg : Writable g) (hr : Rebuilt g h locate multiwords n) {index : Int} (hi : index ∈ g.indices) :
    ((h.incomingBySlot (goesTo g locate index)).filter (·.extra)).map Edge.outline =
      ((g.incomingBySlot index).filter (·.extra)).map fun e => (e.renamed (goesTo g locate)).outline := by
  obtain ⟨t, ht, rfl⟩ := hg.sound.exists_token (Graph.hasToken_iff.2 hi)
  rw [← map_placed g n] at ht
  obtain ⟨x, hx, rfl⟩ := List.mem_map.1 ht
  have hentering : h.incomingBySlot (goesTo g locate x.1.1.index) = edgesAt locate (entryOf g x) :=
    (hr.located.holds hr.made).entering _ (List.mem_map_of_mem hx)
  have houtlines : (edgesAt locate (entryOf g x)).map Edge.outline =
      (rowEdges g x.1.1).map fun e => (e.renamed (goesTo g locate)).outline := outline_edgesAt hg hr.located.plain hx
  have hextra := congrArg (List.filter (·.2.2.2)) houtlines
  rw [List.filter_map, List.filter_map] at hextra
  rw [hentering, ← filter_rowEdges (hg.governed (mem_of_placed hx).2)]
  exact hextra

/-- A graph that is made of what the rows of a graph give restores it. -/
theorem restores (hg : Writable g) (hr : Rebuilt g h locate multiwords (g.comments.length + 1)) (hcomments : h.comments = g.comments) :
    Restores (goesTo g locate) g h where
  indices := hr.perm_indices hg
  apart := hr.nodup_goesTo hg
  token k t ht := by
    have hkept := hr.exists_kept hg ht
    rwa [Nat.add_right_comm] at hkept
  order := hr.ordinary_eq
  roots := hr.isRoot_iff hg
  edges := hr.perm_outlines hg
  extra index hi := hr.extra_eq hg hi
  comments := hcomments

end Rebuilt

/-! ## Sentences -/

section Sentences

variable {g : Graph}

/-- Without surface words the lines are the rows of the tokens. -/
theorem rowLines_nil (ids byPosition : List (Int × String)) (ts : List Token) :
    rowLines g ids byPosition [] ts = (ts.map (rowOf g ids)).map Row.text := by
  induction ts with
  | nil => rfl
  | cons t ts ih =>
    have hidle : ∀ m ∈ ([] : List Multiword), t.position < m.start := fun m hm => by cases hm
    rw [rowLines_idle (Or.inr hidle), ih]
    rfl

/-- A graph of which nothing is lost in writing is written as the sentence of its rows. -/
theorem Writable.writeGraph_eq (hg : Writable g) :
    writeGraph g = sentenceText g.comments (g.tokensInOrder.map (rowOf g (idsOf g))) := by
  refine writeGraph_eq_sentenceText ?_ fun e => Graph.tokensInOrder_ne_nil hg.nonempty (List.map_eq_nil_iff.1 e)
  rw [hg.multiwords]
  exact rowLines_nil _ _ _

/-- The rows of a graph of which nothing is lost in writing are legible. -/
theorem Writable.legible (hg : Writable g) : Legible g.comments (g.tokensInOrder.map (rowOf g (idsOf g))) := by
  refine ⟨hg.comments, fun e => Graph.tokensInOrder_ne_nil hg.nonempty (List.map_eq_nil_iff.1 e), fun r hr => ?_⟩
  obtain ⟨t, ht, rfl⟩ := List.mem_map.1 hr
  obtain ⟨id, hp, -⟩ := exists_id hg.sound ht
  exact (hg.fits hp).legible

/-- A graph of which nothing is lost in writing can be written, and its sentence is read as one graph, which restores it. -/
theorem read_writeGraph (hg : Writable g) (validate : Bool) (sink : Sink) :
    writeGraph? g = .ok (writeGraph g) ∧
      ∃ h sink', (read validate (writeGraph g)).run.run sink = (.ok [h], sink') ∧ ∃ f, Restores f g h := by
  obtain ⟨locate, h, hbuild, hlocated, hmade, hcomments, -⟩ := (hg.readable (g.comments.length + 1)).buildGraph_eq_ok g.comments
  rw [filter_isToken_rowsOf] at hlocated hmade
  rw [map_rowsOf, Nat.add_comm] at hbuild
  obtain ⟨sink', hread⟩ := hg.legible.read_eq_ok hbuild validate sink
  rw [← hg.writeGraph_eq] at hread
  exact ⟨writeGraph?_eq_ok hg.sound, h, sink', hread, _, Rebuilt.restores hg ⟨hlocated, hmade⟩ hcomments⟩

/-- The graph of a sentence with an elided verb, after edits: indices, positions and slots have gaps, and the edges were not added in
the order of the words. -/
def gapping : Graph where
  tokens := [(2, { index := 2, word := "Bill", baseForm := "Bill", upos := "PROPN", position := 3 }),
    (4, { index := 4, word := "ate", baseForm := "eat", upos := "VERB", feats := "Tense=Past", position := 5,
          enhancedRootRelation := "root" }),
    (7, { index := 7, word := "soup", upos := "NOUN", misc := "SpaceAfter=No", position := 9 }),
    (9, { index := 9, baseForm := "eat", upos := "VERB", position := 7, emptyIndex := 2 })]
  arcs := [⟨5, { governor := 9, dependent := 7, relation := "obj", extra := true }⟩,
    ⟨0, { governor := 4, dependent := 7, relation := "obj" }⟩,
    ⟨2, { governor := 4, dependent := 7, relation := "ref:it", extra := true }⟩,
    ⟨3, { governor := 4, dependent := 2, relation := "nsubj" }⟩,
    ⟨1, { governor := 4, dependent := 9, relation := "conj:and", extra := true }⟩]
  free := [4]
  fresh := 6
  roots := [4]
  comments := ["# text = Bill ate soup"]

/-- So it is with an elided verb, extra edges out of the order of words, and gaps in indices, positions and slots. -/
theorem read_writeGraph_gapping :
    Writable gapping ∧ writeGraph? gapping = .ok (writeGraph gapping) ∧
      ∃ h sink', (read true (writeGraph gapping)).run.run {} = (.ok [h], sink') ∧ ∃ f, Restores f gapping h := by
  have hplaced : ∀ index t, gapping.token? index = some t → t.index = index := by
    intro index t ht
    have hm := Pairs.mem_of_lookup_eq ht
    simp only [gapping, List.mem_cons, Prod.mk.injEq, List.not_mem_nil, or_false] at hm
    rcases hm with ⟨rfl, rfl⟩ | ⟨rfl, rfl⟩ | ⟨rfl, rfl⟩ | ⟨rfl, rfl⟩ <;> rfl
  have hsound : gapping.Sound := by
    refine ⟨by decide, hplaced, by decide, by decide, ?_, by decide, by decide⟩
    show ([5, 0, 2, 3, 1] ++ [4]).Perm (List.range 6)
    decide
  have hweights : gapping.WeightBlind := by
    unfold Graph.WeightBlind
    decide
  have hcomments : ∀ c ∈ gapping.comments, c.toList.head? = some '#' ∧ ∀ x ∈ c.toList, Text.isLineBreak x = false := by
    intro c hc
    obtain rfl : c = "# text = Bill ate soup" := List.mem_singleton.1 hc
    have hline : ("# text = Bill ate soup".toList.all fun x => !Text.isLineBreak x) = true := by decide
    exact ⟨rfl, fun x hx => by simpa using List.all_eq_true.1 hline x hx⟩
  have hg : Writable gapping := ⟨hsound, by decide, rfl, hcomments, by decide +kernel, by decide +kernel, by decide +kernel,
    by decide +kernel, by decide +kernel, by decide +kernel, by decide +kernel, hweights, by decide +kernel⟩
  exact ⟨hg, read_writeGraph hg true {}⟩

end Sentences

end Conllu

end Treebank

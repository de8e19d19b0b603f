import Treebank.Proofs.Conllu.Columns
import Treebank.Proofs.Conllu.Roster
import Treebank.Proofs.Graph.Linear

/-!
# Graphs of canonical sentences

The graph that is built of the rows of a canonical sentence: its tokens stand in the order of their rows, and into each of them lead
the edges that its row names, first the plain one and then the extra ones in the order in which they are written.
-/

namespace Treebank.Conllu

variable {known : List String} {locate : String → Int} {ts : List (Row × RowId)}

namespace Located

/-! ## Heads -/

/-- Heads can be told from relations and entries from each other. -/
theorem plain (h : Located known locate ts) : Plain known := by
  intro head hm
  rw [h.known_eq] at hm
  obtain ⟨p, hp, rfl⟩ := List.mem_map.1 hm
  rw [(h.fits p hp).named]
  exact plain_text p.2

/-- Every head that may be named has an index. -/
theorem locate_mem (h : Located known locate ts) {head : String} (hm : head ∈ known) :
    locate head ∈ ts.map fun p => locate p.1.id := by
  rw [h.known_eq] at hm
  obtain ⟨p, hp, rfl⟩ := List.mem_map.1 hm
  exact List.mem_map.2 ⟨p, hp, rfl⟩

/-- Heads that have one index are the same. -/
theorem eq_of_locate_eq (h : Located known locate ts) {head head' : String} (hm : head ∈ known) (hm' : head' ∈ known)
    (e : locate head = locate head') : head = head' := by
  have hnodup : (known.map locate).Nodup := by
    rw [h.known_eq, List.map_map]
    exact h.indices
  exact List.inj_on_of_nodup_map hnodup hm hm' e

end Located

/-! ## Tokens -/

/-- The token of a row. -/
def tokenAt (multiwords : List Multiword) (locate : String → Int) (p : Row × RowId) : Token :=
  tokenOf multiwords p.1 p.2 (locate p.1.id)

/-- The token of a row has the index by which it is found. -/
theorem index_tokenAt (multiwords : List Multiword) (locate : String → Int) (p : Row × RowId) :
    (tokenAt multiwords locate p).index = locate p.1.id := by
  obtain ⟨row, id⟩ := p
  cases id <;> rfl

/-- The token of a row stands in the place of its id. -/
theorem Located.place_tokenAt (h : Located known locate ts) (multiwords : List Multiword) {p : Row × RowId} (hp : p ∈ ts) :
    (tokenAt multiwords locate p).position = p.2.place.1 ∧ (tokenAt multiwords locate p).emptyIndex = p.2.place.2 := by
  obtain ⟨row, id⟩ := p
  cases id with
  | ordinary n => exact ⟨h.ordinary row n hp, rfl⟩
  | span start stop => exact absurd (h.isToken _ hp) Bool.false_ne_true
  | elided host n => exact ⟨rfl, rfl⟩

/-- The tokens of the rows ascend. -/
theorem Listed.pairwise_tokenAt (h : Listed known locate ts) (multiwords : List Multiword) :
    (ts.map (tokenAt multiwords locate)).Pairwise fun t u => Token.cmp t u = .lt := by
  refine List.pairwise_map.2 (h.ascending.imp_of_mem fun {p q} hp hq hbefore => ?_)
  obtain ⟨hposition, hempty⟩ := h.place_tokenAt multiwords hp
  obtain ⟨hposition', hempty'⟩ := h.place_tokenAt multiwords hq
  simp only [Token.cmp, compareLex, compareOn, hposition, hposition', hempty, hempty', Ordering.then_eq_lt,
    Int.compare_eq_lt, Int.compare_eq_eq]
  rcases hbefore with hlt | ⟨heq, hlt⟩ <;> omega

/-! ## Edges -/

/-- The edges of a row. -/
def edgesAt (locate : String → Int) (p : Row × RowId) : List Edge :=
  p.1.plainEdge locate (locate p.1.id) ++ p.1.linkEdges locate (locate p.1.id)

/-- The edges of a row lead into its token. -/
theorem dependent_of_mem {e : Edge} {p : Row × RowId} (he : e ∈ edgesAt locate p) : e.dependent = locate p.1.id := by
  rcases List.mem_append.1 he with he | he
  · unfold Row.plainEdge at he
    split at he
    · cases he
    · rw [List.mem_singleton.1 he]
  · obtain ⟨link, -, rfl⟩ := List.mem_map.1 he
    rfl

/-- The edges of a row come from tokens. -/
theorem Located.governor_of_mem (h : Located known locate ts) {e : Edge} {p : Row × RowId} (hp : p ∈ ts)
    (he : e ∈ edgesAt locate p) : e.governor ∈ ts.map fun p => locate p.1.id := by
  have hfits := h.fits p hp
  rcases List.mem_append.1 he with he | he
  · unfold Row.plainEdge at he
    split at he
    · cases he
    · rename_i hhead
      simp only [Bool.or_eq_true, decide_eq_true_eq, not_or] at hhead
      rw [List.mem_singleton.1 he]
      rcases hfits.head (h.isToken p hp) with hz | hb | hm
      · exact absurd hz.1 hhead.1
      · exact absurd hb.1 hhead.2
      · exact h.locate_mem hm
  · obtain ⟨link, hlink, rfl⟩ := List.mem_map.1 he
    obtain ⟨hlink, hz⟩ := List.mem_filter.1 hlink
    exact h.locate_mem (((hfits.linked (h.isToken p hp) h.plain).fits.heads link hlink).resolve_left (by simpa using hz))

/-- No two edges of a row are equal. -/
theorem Located.pairwise_edgesAt (h : Located known locate ts) {p : Row × RowId} (hp : p ∈ ts) :
    (edgesAt locate p).Pairwise fun e f => ¬ e.same f := by
  have hlinked := (h.fits p hp).linked (h.isToken p hp) h.plain
  refine List.pairwise_append.2 ⟨?_, ?_, fun e he f hf hsame => ?_⟩
  · unfold Row.plainEdge
    split
    · exact List.Pairwise.nil
    · exact List.pairwise_singleton _ _
  · refine List.pairwise_map.2 ((hlinked.fits.distinct.filter _).imp_of_mem fun {a b} ha hb hne hsame => hne ?_)
    obtain ⟨ha, hza⟩ := List.mem_filter.1 ha
    obtain ⟨hb, hzb⟩ := List.mem_filter.1 hb
    have hheads := h.eq_of_locate_eq ((hlinked.fits.heads a ha).resolve_left (by simpa using hza))
      ((hlinked.fits.heads b hb).resolve_left (by simpa using hzb)) (Edge.ends_of_same hsame).1
    exact Prod.ext hheads (Edge.labels_of_same hsame).1
  · -- The plain edge is no extra one.
    have hextra := (Edge.labels_of_same hsame).2
    obtain ⟨link, -, rfl⟩ := List.mem_map.1 hf
    unfold Row.plainEdge at he
    split at he
    · cases he
    · rw [List.mem_singleton.1 he] at hextra
      cases hextra

/-! ## Graphs -/

/-- The indices of the roots. -/
def rootsAt (locate : String → Int) (ts : List (Row × RowId)) : List Int :=
  (ts.filter (·.1.head == "0")).map fun p => locate p.1.id

/-- Tokens, edges and roots of the rows make a graph. -/
theorem Located.parts (h : Located known locate ts) (multiwords : List Multiword) :
    Graph.Parts (ts.map (tokenAt multiwords locate)) (ts.flatMap (edgesAt locate)) (rootsAt locate ts) := by
  have hindices : (ts.map (tokenAt multiwords locate)).map (·.index) = ts.map fun p => locate p.1.id := by
    rw [List.map_map]
    exact List.map_congr_left fun p _ => index_tokenAt multiwords locate p
  constructor
  · exact hindices ▸ h.indices
  · refine List.pairwise_flatMap.2 ⟨fun p hp => h.pairwise_edgesAt hp, ?_⟩
    refine (List.pairwise_map.1 h.indices).imp fun hne e he f hf hsame => hne ?_
    rw [← dependent_of_mem he, ← dependent_of_mem hf]
    exact (Edge.ends_of_same hsame).2
  · intro e he
    obtain ⟨p, hp, he⟩ := List.mem_flatMap.1 he
    rw [hindices]
    exact ⟨h.governor_of_mem hp he, List.mem_map.2 ⟨p, hp, (dependent_of_mem he).symm⟩⟩
  · intro i hi
    obtain ⟨p, hp, rfl⟩ := List.mem_map.1 hi
    rw [hindices]
    exact List.mem_map.2 ⟨p, (List.mem_filter.1 hp).1, rfl⟩

/-- What a graph has under the indices of rows: their tokens, the edges into these, and the roots. -/
structure Holds (g : Graph) (multiwords : List Multiword) (locate : String → Int) (ts : List (Row × RowId)) : Prop where
  token : ∀ p ∈ ts, g.token? (locate p.1.id) = some (tokenAt multiwords locate p)
  entering : ∀ p ∈ ts, g.incomingBySlot (locate p.1.id) = edgesAt locate p
  isRoot : ∀ p ∈ ts, g.isRoot (locate p.1.id) ↔ p.1.head = "0"

/-- A graph that is made of what the rows give has it under their indices. -/
theorem Located.holds (h : Located known locate ts) {multiwords : List Multiword} {g : Graph}
    (hg : g.MadeOf (ts.map (tokenAt multiwords locate)) (ts.flatMap (edgesAt locate)) (rootsAt locate ts)) :
    Holds g multiwords locate ts := by
  constructor
  · intro p hp
    rw [← index_tokenAt multiwords locate p]
    exact hg.token _ (List.mem_map_of_mem hp)
  · intro p hp
    rw [hg.entering]
    exact filter_flatMap_eq h.indices (fun q _ e he => dependent_of_mem he) hp
  · intro p hp
    rw [hg.isRoot]
    constructor
    · intro hm
      obtain ⟨q, hq, e⟩ := List.mem_map.1 hm
      obtain ⟨hq, hhead⟩ := List.mem_filter.1 hq
      rw [← List.inj_on_of_nodup_map h.indices hq hp e]
      exact beq_iff_eq.1 hhead
    · exact fun hhead => List.mem_map.2 ⟨p, List.mem_filter.2 ⟨hp, beq_iff_eq.2 hhead⟩, rfl⟩

/-- A graph that is built of rows is sound. -/
theorem sound_of_buildGraph {comments : List String} {rows : List Row} {g : Graph} (h : buildGraph comments rows = .ok g) : g.Sound := by
  obtain ⟨s, -, h⟩ := bind_eq_ok_iff.1 h
  obtain ⟨ess, -, h⟩ := bind_eq_ok_iff.1 h
  cases h
  exact (Graph.sound_start comments s.multiwords).extend _ _ _

/-- Of rows that can be taken in a graph is built, which is made of what they give. -/
theorem Readable.buildGraph_eq_ok {ps : List (Row × RowId)} (h : Readable known ps) (comments : List String) :
    ∃ locate g, buildGraph comments (ps.map (·.1)) = .ok g ∧ Located known locate (ps.filter (·.2.isToken)) ∧
      g.MadeOf ((ps.filter (·.2.isToken)).map (tokenAt (ps.filterMap multiword?) locate))
        ((ps.filter (·.2.isToken)).flatMap (edgesAt locate)) (rootsAt locate (ps.filter (·.2.isToken))) ∧
      g.comments = comments ∧ g.multiwords = ps.filterMap multiword? := by
  let s : Roster := { tokens := ps.filter (·.2.isToken), multiwords := ps.filterMap multiword? }
  obtain ⟨locate, hlocated, hindex, hlookup⟩ := h.exists_located (s := s) rfl
  have hparts := hlocated.parts s.multiwords
  let g := Graph.extend { comments := comments, multiwords := s.multiwords } (s.tokens.map (tokenAt s.multiwords locate))
    (s.tokens.flatMap (edgesAt locate)) (rootsAt locate s.tokens)
  have hedges : ∀ e ∈ indexRows s.firstFree s.tokens,
      e.1.edges ((indexRows s.firstFree s.tokens).map fun e => (e.1.id, e.2.2)) e.2.2 = .ok (edgesAt locate (e.1, e.2.1)) := by
    intro e he
    rw [hindex] at he
    obtain ⟨p, hp, rfl⟩ := List.mem_map.1 he
    refine edges_eq_ok (hlocated.fits p hp) (hlocated.isToken p hp) hlocated.plain (fun head hm => ?_) (locate p.1.id)
    rw [hlocated.known_eq] at hm
    obtain ⟨q, hq, rfl⟩ := List.mem_map.1 hm
    exact hlookup q hq
  have hbuild : buildGraph comments (ps.map (·.1)) = .ok g := by
    refine bind_eq_ok_iff.2 ⟨s, h.foldlM_add, bind_eq_ok_iff.2 ⟨_, mapM_eq_ok hedges, ?_⟩⟩
    have hroots : (((indexRows s.firstFree s.tokens).filter fun e => e.1.head == "0").map fun e => e.2.2) =
        rootsAt locate s.tokens := by
      rw [hindex, List.filter_map, List.map_map]
      rfl
    have htokens : ((indexRows s.firstFree s.tokens).map fun e => tokenOf s.multiwords e.1 e.2.1 e.2.2) =
        s.tokens.map (tokenAt s.multiwords locate) := by
      rw [hindex, List.map_map]
      rfl
    have hflatten : ((indexRows s.firstFree s.tokens).map fun e => edgesAt locate (e.1, e.2.1)).flatten =
        s.tokens.flatMap (edgesAt locate) := by
      rw [hindex, List.map_map]
      rfl
    show Except.ok (Graph.extend _ ((indexRows s.firstFree s.tokens).map fun e => tokenOf s.multiwords e.1 e.2.1 e.2.2) _
      (((indexRows s.firstFree s.tokens).filter fun e => e.1.head == "0").map fun e => e.2.2)) = _
    rw [hroots, htokens, hflatten]
  exact ⟨locate, g, hbuild, hlocated, Graph.madeOf_extend hparts comments s.multiwords,
    Graph.header_extend hparts comments s.multiwords⟩

/-- What the graph of a canonical sentence has, its tokens in the order of the rows. -/
structure Mirrors (g : Graph) (multiwords : List Multiword) (locate : String → Int) (ts : List (Row × RowId)) : Prop extends
    Holds g multiwords locate ts where
  tokens : g.tokensInOrder = ts.map (tokenAt multiwords locate)

/-- Of the rows of a canonical sentence a graph is built that has its tokens and edges in the order of the rows. -/
theorem Sheet.buildGraph_eq_ok {ps : List (Row × RowId)} (h : Sheet known ps) (comments : List String) :
    ∃ locate g, buildGraph comments (ps.map (·.1)) = .ok g ∧ Listed known locate (ps.filter (·.2.isToken)) ∧
      Mirrors g (ps.filterMap multiword?) locate (ps.filter (·.2.isToken)) ∧
      g.comments = comments ∧ g.multiwords = ps.filterMap multiword? := by
  obtain ⟨locate, g, hbuild, hlocated, hmade, hheader⟩ := h.readable.buildGraph_eq_ok comments
  have hlisted : Listed known locate (ps.filter (·.2.isToken)) := ⟨hlocated, h.pairwise_before⟩
  have htokens := hmade.tokensInOrder_eq (hlisted.pairwise_tokenAt _)
  exact ⟨locate, g, hbuild, hlisted, ⟨hlocated.holds hmade, htokens⟩, hheader⟩

end Treebank.Conllu

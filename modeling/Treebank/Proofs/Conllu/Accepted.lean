import Treebank.Proofs.Conllu.Graph
import Treebank.Proofs.Conllu.Spelling

/-!
# Rows that make a sentence

A graph is built of rows exactly if their ids can be read, no two tokens share one, and every head is zero, left out or the id of a
token (`exists_buildGraph_iff`). Then it has one token for each row that is not that of a surface word, and just the edges that the rows
name (`depicts_of_buildGraph`). The ids are first taken in and given indices, an elided token one above those of all ordinary ones, and
heads are resolved when all indices are known; so a head may be the id of a later row.
-/

namespace Treebank.Conllu

/-! ## Rows of tokens -/

/-- Whether a row is that of a surface word. -/
def Row.IsSpan (row : Row) : Prop := ∃ start stop, RowId.Spelled (.span start stop) row.id.toList

/-- A row whose id is read is that of a surface word exactly if its id is not that of a token. -/
theorem isSpan_iff {row : Row} {id : RowId} (h : RowId.ofText? row.id = some id) : row.IsSpan ↔ id.isToken = false := by
  simp only [Row.IsSpan, ← ofText?_eq_some_iff, h, Option.some.injEq]
  constructor
  · rintro ⟨start, stop, rfl⟩
    rfl
  · intro ht
    cases id with
    | span start stop => exact ⟨start, stop, rfl⟩
    | ordinary n => cases ht
    | elided host n => cases ht

instance (row : Row) : Decidable row.IsSpan :=
  decidable_of_iff ((RowId.ofText? row.id).any (!·.isToken)) (by
    cases h : RowId.ofText? row.id with
    | none => simp [Row.IsSpan, ← ofText?_eq_some_iff, h]
    | some id => simp [isSpan_iff h])

/-- The rows of tokens. -/
def tokenRows (rows : List Row) : List Row := rows.filter (¬·.IsSpan)

/-- What makes rows a sentence. -/
structure Sensible (rows : List Row) : Prop where
  /-- Every row has an id, and no span stops before it starts. -/
  ids : ∀ row ∈ rows, ∃ id : RowId, id.Spelled row.id.toList ∧ id.Counts
  /-- No two tokens have one id. -/
  distinct : ((tokenRows rows).map (·.id)).Nodup
  /-- The head of a token is zero, left out or the id of a token. -/
  heads : ∀ row ∈ tokenRows rows, row.head = "0" ∨ row.head = blank ∨ row.head ∈ (tokenRows rows).map (·.id)
  /-- The enhanced column of a token is left out, or has entries that each name a relation to zero or to a token. -/
  deps : ∀ row ∈ tokenRows rows, row.deps = blank ∨ ∀ entry ∈ row.deps.toList.splitOn '|', ∃ head relation,
    entry = head ++ ':' :: relation ∧ relation ≠ [] ∧ (head = ['0'] ∨ String.ofList head ∈ (tokenRows rows).map (·.id))

/-! ## Taking rows in -/

/-- Rows, each with what its id says, of which no two tokens have ids that are written alike. -/
structure Identified (rows : List Row) (ps : List (Row × RowId)) : Prop where
  rows_eq : ps.map (·.1) = rows
  ids : ∀ p ∈ ps, RowId.ofText? p.1.id = some p.2
  counts : ∀ p ∈ ps, p.2.Counts
  distinct : ((ps.filter (·.2.isToken)).map (·.1.id)).Nodup

/-- An id that is read counts from one. -/
theorem counts_of_ofText? {text : String} {id : RowId} (h : RowId.ofText? text = some id)
    (hspan : ∀ start stop, id = .span start stop → start ≤ stop) : id.Counts := by
  rw [ofText?_eq_some_iff] at h
  generalize text.toList = cs at h
  cases h with
  | ordinary hn => exact hn
  | span ha hb => exact ⟨ha, hspan _ _ rfl⟩
  | elided hne hdigits hn => exact hn

/-- A row that is taken in has an id, no token before it has the same one, and it stands behind the others. -/
theorem add_eq_ok {s s' : Roster} {row : Row} (h : s.add row = .ok s') :
    ∃ id, RowId.ofText? row.id = some id ∧ id.Counts ∧ (id.isToken → row.id ∉ s.tokens.map (·.1.id)) ∧
      s' = { tokens := s.tokens ++ [(row, id)].filter (·.2.isToken)
             multiwords := s.multiwords ++ [(row, id)].filterMap multiword? } := by
  unfold Roster.add at h
  split at h
  · rename_i start stop hid
    split at h
    · cases h
    · rename_i hle
      cases h
      refine ⟨.span start stop, hid, counts_of_ofText? hid fun a b e => ?_, fun ht => (by cases ht), ?_⟩
      · cases e
        exact Nat.le_of_not_lt hle
      · simp [RowId.isToken, multiword?]
  · rename_i hspan
    split at h
    · cases h
    · rename_i hnew
      split at h
      · rename_i id hid
        cases h
        have hnot : ∀ start stop, id ≠ .span start stop := fun start stop e => hspan start stop (e ▸ hid)
        refine ⟨id, hid, counts_of_ofText? hid fun a b e => absurd e (hnot a b), fun _ hm => hnew ?_, ?_⟩
        · obtain ⟨p, hp, e⟩ := List.mem_map.1 hm
          exact List.any_eq_true.2 ⟨p, hp, beq_iff_eq.2 e⟩
        · cases id with
          | span start stop => exact absurd rfl (hnot start stop)
          | ordinary n => simp [RowId.isToken, multiword?]
          | elided host n => simp [RowId.isToken, multiword?]
      · cases h

/-- Rows that are taken in one after the other have ids, and no token has the id of another one. -/
theorem of_foldlM_add {s s' : Roster} {rows : List Row} (h : rows.foldlM Roster.add s = .ok s')
    (hs : (s.tokens.map (·.1.id)).Nodup) :
    ∃ ps : List (Row × RowId), ps.map (·.1) = rows ∧ (∀ p ∈ ps, RowId.ofText? p.1.id = some p.2) ∧ (∀ p ∈ ps, p.2.Counts) ∧
      ((s.tokens ++ ps.filter (·.2.isToken)).map (·.1.id)).Nodup ∧
      s' = { tokens := s.tokens ++ ps.filter (·.2.isToken), multiwords := s.multiwords ++ ps.filterMap multiword? } := by
  induction rows generalizing s with
  | nil =>
    cases h
    exact ⟨[], rfl, by simp, by simp, by simpa using hs, by simp⟩
  | cons row rows ih =>
    rw [List.foldlM_cons] at h
    obtain ⟨s₁, hadd, hrest⟩ := bind_eq_ok_iff.1 h
    obtain ⟨id, hid, hcounts, hnew, rfl⟩ := add_eq_ok hadd
    have hnodup : ((s.tokens ++ [(row, id)].filter (·.2.isToken)).map (·.1.id)).Nodup := by
      by_cases ht : id.isToken
      · rw [show [(row, id)].filter (·.2.isToken) = [(row, id)] from List.filter_cons_of_pos ht, List.map_append]
        exact hs.append (List.nodup_singleton row.id) (List.disjoint_singleton.2 (hnew ht))
      · rwa [show [(row, id)].filter (·.2.isToken) = [] from List.filter_cons_of_neg ht, List.append_nil]
    obtain ⟨ps, rfl, hids, hcount, hdistinct, rfl⟩ := ih hrest hnodup
    have hfilter : ((row, id) :: ps).filter (·.2.isToken) = [(row, id)].filter (·.2.isToken) ++ ps.filter (·.2.isToken) :=
      List.filter_append [(row, id)] ps
    have hwords : ((row, id) :: ps).filterMap multiword? = [(row, id)].filterMap multiword? ++ ps.filterMap multiword? :=
      List.filterMap_append (l := [(row, id)])
    refine ⟨(row, id) :: ps, rfl, List.forall_mem_cons.2 ⟨hid, hids⟩, List.forall_mem_cons.2 ⟨hcounts, hcount⟩, ?_, ?_⟩
    · rwa [hfilter, ← List.append_assoc]
    · rw [hfilter, hwords, List.append_assoc, List.append_assoc]

/-- The rows of tokens with what their ids say. -/
def tokensOf (ps : List (Row × RowId)) : List (Row × RowId) := ps.filter (·.2.isToken)

/-- What the rows of a sentence are, if no two tokens have one id. -/
def rosterOf (ps : List (Row × RowId)) : Roster where
  tokens := tokensOf ps
  multiwords := ps.filterMap multiword?

/-- Rows are taken in exactly if their ids can be read and no token has the id of another one. -/
theorem foldlM_add_eq_ok_iff {s : Roster} {rows : List Row} :
    rows.foldlM Roster.add {} = .ok s ↔
      ∃ ps, Identified rows ps ∧ s = rosterOf ps := by
  constructor
  · intro h
    obtain ⟨ps, hrows, hids, hcounts, hdistinct, hs⟩ := of_foldlM_add h List.nodup_nil
    exact ⟨ps, ⟨hrows, hids, hcounts, hdistinct⟩, hs⟩
  · rintro ⟨ps, h, rfl⟩
    rw [← h.rows_eq]
    exact foldlM_add {} ps h.ids h.counts h.distinct

/-! ## Heads that are named -/

/-- Whether an entry of an enhanced column names a relation to zero or to a known head. -/
def Refers (known : List String) (entry : List Char) : Prop :=
  ∃ head relation, Text.splitFirst? ':' entry = some (head, relation) ∧ relation ≠ [] ∧
    (head = ['0'] ∨ String.ofList head ∈ known)

/-- Whether a row names no head but zero and known ones. -/
structure Row.Refers (known : List String) (row : Row) : Prop where
  head : row.head = "0" ∨ row.head = blank ∨ row.head ∈ known
  entries : ∀ entry ∈ row.entries, Conllu.Refers known entry

/-- Which indices known heads have; others have none. -/
structure Knows (known : List String) (locate : String → Int) (ids : Indices) : Prop where
  found : ∀ head ∈ known, ids.lookup head = some (locate head)
  missing : ∀ head, head ∉ known → ids.lookup head = none

variable {known : List String} {locate : String → Int} {ids : Indices} {row : Row} {index : Int} {es : List Edge}

/-- A head is resolved exactly if it is known. -/
theorem resolve_eq_ok_iff (h : Knows known locate ids) {head : String} {governor : Int} :
    resolve ids row head = .ok governor ↔ head ∈ known ∧ governor = locate head := by
  by_cases hm : head ∈ known
  · rw [resolve_eq_ok h.found row hm]
    simp [hm, eq_comm]
  · rw [resolve, h.missing head hm]
    simp [hm]

/-- A row gives the plain edge that its head names, exactly if the head is zero, left out or known. -/
theorem plainEdges_eq_ok_iff (h : Knows known locate ids) :
    row.plainEdges ids index = .ok es ↔
      (row.head = "0" ∨ row.head = blank ∨ row.head ∈ known) ∧ es = row.plainEdge locate index := by
  unfold Row.plainEdges Row.plainEdge
  split
  · rename_i hhead
    simp only [Bool.or_eq_true, decide_eq_true_eq] at hhead
    rw [Except.ok.injEq, eq_comm, and_iff_right (hhead.imp_right Or.inl)]
  · rename_i hhead
    simp only [Bool.or_eq_true, decide_eq_true_eq, not_or] at hhead
    simp only [bind_eq_ok_iff, resolve_eq_ok_iff h, hhead.1, hhead.2, false_or, pure, Except.pure, Except.ok.injEq]
    constructor
    · rintro ⟨governor, ⟨hm, rfl⟩, rfl⟩
      exact ⟨hm, rfl⟩
    · rintro ⟨hm, rfl⟩
      exact ⟨_, ⟨hm, rfl⟩, rfl⟩

/-- What an entry of an enhanced column names. -/
def link? (entry : List Char) : Option (String × String) :=
  (Text.splitFirst? ':' entry).map fun (head, relation) => (String.ofList head, String.ofList relation)

/-- The edges that the entries of an enhanced column name. -/
def edgesOf (locate : String → Int) (index : Int) (entries : List (List Char)) : List Edge :=
  ((entries.filterMap link?).filter (·.1 != "0")).map fun p =>
    { governor := locate p.1, dependent := index, relation := p.2, extra := true }

/-- The entries of an enhanced column give the edges that they name, exactly if each names a relation to zero or to a known head. -/
theorem extraEdges_eq_ok_iff (h : Knows known locate ids) {entries : List (List Char)} :
    row.extraEdges ids index entries = .ok es ↔ (∀ entry ∈ entries, Refers known entry) ∧ es = edgesOf locate index entries := by
  induction entries generalizing es with
  | nil => simp [Row.extraEdges, edgesOf, eq_comm]
  | cons entry entries ih =>
    rw [Row.extraEdges]
    split
    · rename_i head c relation hsplit
      have hlink : link? entry = some (String.ofList head, String.ofList (c :: relation)) := by rw [link?, hsplit]; rfl
      have hrefers : Refers known entry ↔ head = ['0'] ∨ String.ofList head ∈ known := by
        simp only [Refers, hsplit, Option.some.injEq, Prod.mk.injEq]
        constructor
        · rintro ⟨_, _, ⟨rfl, rfl⟩, -, hhead⟩
          exact hhead
        · exact fun hhead => ⟨head, c :: relation, ⟨rfl, rfl⟩, List.cons_ne_nil _ _, hhead⟩
      simp only [List.forall_mem_cons, hrefers, edgesOf, List.filterMap_cons_some hlink]
      split
      · rename_i hzero
        rw [hzero, ih]
        simp [edgesOf]
      · rename_i hzero
        have hne : String.ofList head ≠ "0" := fun e => hzero (by rw [← String.toList_ofList (l := head), e]; rfl)
        simp only [bind_eq_ok_iff, resolve_eq_ok_iff h, ih, hzero, false_or, pure, Except.pure, Except.ok.injEq]
        rw [List.filter_cons_of_pos (by simpa using hne), List.map_cons]
        constructor
        · rintro ⟨governor, ⟨hm, rfl⟩, rest, ⟨hrest, rfl⟩, rfl⟩
          exact ⟨⟨hm, hrest⟩, rfl⟩
        · rintro ⟨⟨hm, hrest⟩, rfl⟩
          exact ⟨_, ⟨hm, rfl⟩, _, ⟨hrest, rfl⟩, rfl⟩
    · rename_i hsplit
      refine iff_of_false (fun e => by cases e) ?_
      rintro ⟨hall, -⟩
      obtain ⟨head, relation, hs, hne, -⟩ := hall entry (List.mem_cons_self ..)
      obtain ⟨c, relation, rfl⟩ := List.exists_cons_of_ne_nil hne
      exact hsplit head c relation hs

/-- A row gives the edges that it names, exactly if it names no head but zero and known ones. -/
theorem edges_eq_ok_iff (h : Knows known locate ids) :
    row.edges ids index = .ok es ↔ row.Refers known ∧ es = row.plainEdge locate index ++ row.linkEdges locate index := by
  simp only [Row.edges, bind_eq_ok_iff, plainEdges_eq_ok_iff h, extraEdges_eq_ok_iff h, pure, Except.pure, Except.ok.injEq]
  constructor
  · rintro ⟨_, ⟨hhead, rfl⟩, _, ⟨hentries, rfl⟩, rfl⟩
    exact ⟨⟨hhead, hentries⟩, rfl⟩
  · rintro ⟨⟨hhead, hentries⟩, rfl⟩
    exact ⟨_, ⟨hhead, rfl⟩, _, ⟨hentries, rfl⟩, rfl⟩

/-! ## Graphs of rows -/

variable {rows : List Row} {ps : List (Row × RowId)} {comments : List String} {g : Graph}

/-- The ids of tokens, as they are written. -/
def knownOf (ps : List (Row × RowId)) : List String := (tokensOf ps).map (·.1.id)

/-- The graph that is made of what rows say, if they refer to no other tokens than each other. -/
def graphOf (comments : List String) (locate : String → Int) (ps : List (Row × RowId)) : Graph :=
  Graph.extend { comments := comments, multiwords := ps.filterMap multiword? }
    ((tokensOf ps).map (tokenAt (ps.filterMap multiword?) locate)) ((tokensOf ps).flatMap (edgesAt locate))
    (rootsAt locate (tokensOf ps))

/-- Two ordinary tokens with one number have ids that are written alike. -/
theorem Identified.nodup_ordinary (h : Identified rows ps) : (((tokensOf ps).map (·.2)).filter (·.isOrdinary)).Nodup := by
  rw [List.filter_map]
  refine List.pairwise_map.2 (((List.pairwise_map.1 h.distinct).filter _).imp_of_mem fun {p q} hp hq hne e => hne ?_)
  have hordinary : p.2.isOrdinary := (List.mem_filter.1 hp).2
  have hidp := h.ids p (List.mem_of_mem_filter (List.mem_of_mem_filter hp))
  have hidq := h.ids q (List.mem_of_mem_filter (List.mem_of_mem_filter hq))
  rw [ofText?_eq_some_iff] at hidp hidq
  rw [← e] at hidq
  refine String.toList_inj.1 ?_
  generalize p.1.id.toList = cs at hidp
  generalize q.1.id.toList = ds at hidq
  generalize p.2 = id at hidp hidq hordinary
  cases hidp with
  | ordinary hn =>
    cases hidq
    rfl
  | span ha hb => cases hordinary
  | elided hne hdigits hn => cases hordinary

/-- The rows of tokens with the indices that they are given. -/
def entriesOf (ps : List (Row × RowId)) : List (Row × RowId × Int) := indexRows (rosterOf ps).firstFree (rosterOf ps).tokens

/-- The indices that rows get belong to their ids, and heads are resolved with them. -/
structure Resolved (locate : String → Int) (ps : List (Row × RowId)) : Prop extends Indexed locate (tokensOf ps) where
  entries : entriesOf ps = (tokensOf ps).map fun p => (p.1, p.2, locate p.1.id)
  knows : Knows (knownOf ps) locate ((entriesOf ps).map fun e => (e.1.id, e.2.2))

/-- Rows with ids get indices. -/
theorem Identified.exists_resolved (h : Identified rows ps) : ∃ locate, Resolved locate ps := by
  obtain ⟨locate, hindexed, hentries, hlookup⟩ :=
    (rosterOf ps).exists_indexed (fun p hp => (List.mem_filter.1 hp).2) h.distinct h.nodup_ordinary
  refine ⟨locate, hindexed, hentries, fun head hm => ?_, fun head hm => ?_⟩
  · obtain ⟨p, hp, rfl⟩ := List.mem_map.1 hm
    exact hlookup p hp
  · rw [Pairs.lookup_eq_none_iff_notMem, show entriesOf ps = _ from hentries, List.map_map, List.map_map]
    exact hm

/-- The rows of tokens give edges exactly if they refer to no other tokens than each other. -/
theorem Resolved.mapM_edges_eq_ok_iff (h : Resolved locate ps) {ess : List (List Edge)} :
    ((entriesOf ps).mapM fun e => e.1.edges ((entriesOf ps).map fun e => (e.1.id, e.2.2)) e.2.2) = .ok ess ↔
      (∀ p ∈ tokensOf ps, p.1.Refers (knownOf ps)) ∧ ess = (tokensOf ps).map (edgesAt locate) := by
  refine (mapM_eq_ok_iff fun _ _ _ => edges_eq_ok_iff h.knows).trans ?_
  rw [h.entries, List.forall_mem_map, List.map_map]
  rfl

/-- The tokens of rows, by the indices that they get. -/
theorem Resolved.map_tokenOf (h : Resolved locate ps) (multiwords : List Multiword) :
    ((entriesOf ps).map fun e => tokenOf multiwords e.1 e.2.1 e.2.2) = (tokensOf ps).map (tokenAt multiwords locate) := by
  rw [h.entries, List.map_map]
  rfl

/-- The roots among rows, by the indices that they get. -/
theorem Resolved.map_roots (h : Resolved locate ps) :
    (((entriesOf ps).filter fun e => e.1.head == "0").map fun e => e.2.2) = rootsAt locate (tokensOf ps) := by
  rw [h.entries, List.filter_map, List.map_map]
  rfl

/-- With the indices that they get, rows with ids make a graph exactly if they refer to no other tokens than each other. -/
theorem Identified.buildGraph_eq_ok_iff (h : Identified rows ps) (hr : Resolved locate ps) :
    buildGraph comments rows = .ok g ↔ (∀ p ∈ tokensOf ps, p.1.Refers (knownOf ps)) ∧ g = graphOf comments locate ps := by
  have hadd : rows.foldlM Roster.add {} = .ok (rosterOf ps) := foldlM_add_eq_ok_iff.2 ⟨ps, h, rfl⟩
  have hgraph : ∀ es, Graph.extend { comments := comments, multiwords := ps.filterMap multiword? }
      ((entriesOf ps).map fun e => tokenOf (ps.filterMap multiword?) e.1 e.2.1 e.2.2) es
      (((entriesOf ps).filter fun e => e.1.head == "0").map fun e => e.2.2) = Graph.extend _
        ((tokensOf ps).map (tokenAt (ps.filterMap multiword?) locate)) es (rootsAt locate (tokensOf ps)) := fun es => by
    rw [hr.map_tokenOf, hr.map_roots]
  constructor
  · intro hbuild
    obtain ⟨s, hs, hbuild⟩ := bind_eq_ok_iff.1 hbuild
    obtain rfl := Except.ok.inj (hadd.symm.trans hs)
    obtain ⟨ess, hess, hg⟩ := bind_eq_ok_iff.1 hbuild
    obtain ⟨hrefers, rfl⟩ := hr.mapM_edges_eq_ok_iff.1 hess
    exact ⟨hrefers, (Except.ok.inj hg).symm.trans (hgraph _)⟩
  · rintro ⟨hrefers, rfl⟩
    refine bind_eq_ok_iff.2 ⟨_, hadd, bind_eq_ok_iff.2 ⟨_, hr.mapM_edges_eq_ok_iff.2 ⟨hrefers, rfl⟩, ?_⟩⟩
    exact congrArg Except.ok (hgraph _)

/-- Whether a row names an edge, given the indices that belong to ids. -/
def Row.Names (locate : String → Int) (row : Row) (e : Edge) : Prop :=
  (row.head ≠ "0" ∧ row.head ≠ blank ∧
    e = { governor := locate row.head, dependent := locate row.id, relation := content row.relation }) ∨
  row.deps ≠ blank ∧ ∃ head relation : List Char, head ++ ':' :: relation ∈ row.deps.toList.splitOn '|' ∧ ':' ∉ head ∧ head ≠ ['0'] ∧
    e = { governor := locate (String.ofList head), dependent := locate row.id, relation := String.ofList relation, extra := true }

/-- The edges of a row are those that it names. -/
theorem mem_edgesAt {p : Row × RowId} {e : Edge} : e ∈ edgesAt locate p ↔ p.1.Names locate e := by
  rw [edgesAt, List.mem_append, Row.Names]
  refine or_congr ?_ ?_
  · unfold Row.plainEdge
    split
    · rename_i hhead
      simp only [Bool.or_eq_true, decide_eq_true_eq] at hhead
      refine iff_of_false List.not_mem_nil fun ⟨hzero, hblank, _⟩ => hhead.elim hzero hblank
    · rename_i hhead
      simp only [Bool.or_eq_true, decide_eq_true_eq, not_or] at hhead
      rw [List.mem_singleton]
      exact ⟨fun he => ⟨hhead.1, hhead.2, he⟩, fun he => he.2.2⟩
  · simp only [Row.linkEdges, Row.links, Row.entries, List.mem_map, List.mem_filter, List.mem_filterMap, Option.map_eq_some_iff]
    by_cases hdeps : p.1.deps = blank
    · simp [hdeps]
    · rw [if_neg hdeps]
      simp only [Text.splitOn_eq, ne_eq, hdeps, not_false_eq_true, true_and]
      constructor
      · rintro ⟨_, ⟨⟨entry, hentry, ⟨head, relation⟩, hsplit, rfl⟩, hzero⟩, rfl⟩
        obtain ⟨rfl, hcolon⟩ := Text.of_splitFirst?_eq_some hsplit
        refine ⟨head, relation, hentry, hcolon, ?_, rfl⟩
        rintro rfl
        exact bne_iff_ne.1 hzero rfl
      · rintro ⟨head, relation, hentry, hcolon, hzero, rfl⟩
        refine ⟨(String.ofList head, String.ofList relation),
          ⟨⟨_, hentry, (head, relation), Text.splitFirst?_append hcolon relation, rfl⟩, ?_⟩, rfl⟩
        refine bne_iff_ne.2 fun e => hzero ?_
        rw [← String.toList_ofList (l := head), show String.ofList head = "0" from e]
        rfl

/-- The edges that a row names come from tokens, if it refers to no others. -/
theorem Row.Refers.governor_mem (h : row.Refers known) {id : RowId} {e : Edge} (he : e ∈ edgesAt locate (row, id)) :
    ∃ head ∈ known, e.governor = locate head := by
  rcases mem_edgesAt.1 he with ⟨hzero, hblank, rfl⟩ | ⟨hdeps, head, relation, hentry, hcolon, hzero, rfl⟩
  · exact ⟨row.head, (h.head.resolve_left hzero).resolve_left hblank, rfl⟩
  · have hmem : head ++ ':' :: relation ∈ row.entries := by
      rw [Row.entries, if_neg hdeps, Text.splitOn_eq]
      exact hentry
    obtain ⟨head', relation', hsplit, -, hhead⟩ := h.entries _ hmem
    rw [Text.splitFirst?_append hcolon] at hsplit
    obtain ⟨rfl, rfl⟩ := Prod.mk.inj (Option.some.inj hsplit)
    exact ⟨_, hhead.resolve_left hzero, rfl⟩

/-- Edges that rows name have the weight of an edge that names none, so equal ones are the same. -/
theorem eq_of_same_edgesAt {p q : Row × RowId} {e f : Edge} (he : e ∈ edgesAt locate p) (hf : f ∈ edgesAt locate q)
    (hsame : e.same f) : e = f := by
  have hweight : ∀ {p : Row × RowId} {e : Edge}, e ∈ edgesAt locate p → e.weight = .one := by
    intro p e he
    rcases mem_edgesAt.1 he with ⟨-, -, rfl⟩ | ⟨-, _, _, -, -, -, rfl⟩ <;> rfl
  have houtline := (Edge.same_iff e f).1 hsame
  have := hweight he
  have := hweight hf
  cases e
  cases f
  simp_all

/-- What rows say are the parts of a graph. -/
theorem Indexed.parts (h : Indexed locate (tokensOf ps)) (hrefers : ∀ p ∈ tokensOf ps, p.1.Refers (knownOf ps))
    (multiwords : List Multiword) :
    Graph.Parts ((tokensOf ps).map (tokenAt multiwords locate)) ((tokensOf ps).flatMap (edgesAt locate)).eraseDups
      (rootsAt locate (tokensOf ps)) := by
  have hindices : ((tokensOf ps).map (tokenAt multiwords locate)).map (·.index) = (tokensOf ps).map fun p => locate p.1.id := by
    rw [List.map_map]
    exact List.map_congr_left fun p _ => index_tokenAt multiwords locate p
  constructor
  · exact hindices ▸ h.indices
  · refine (Pairs.nodup_eraseDups _).imp_of_mem fun {e f} he hf hne hsame => hne ?_
    obtain ⟨p, -, he⟩ := List.mem_flatMap.1 (List.mem_eraseDups.1 he)
    obtain ⟨q, -, hf⟩ := List.mem_flatMap.1 (List.mem_eraseDups.1 hf)
    exact eq_of_same_edgesAt he hf hsame
  · intro e he
    obtain ⟨p, hp, he⟩ := List.mem_flatMap.1 (List.mem_eraseDups.1 he)
    obtain ⟨head, hhead, hgovernor⟩ := (hrefers p hp).governor_mem he
    obtain ⟨q, hq, rfl⟩ := List.mem_map.1 hhead
    rw [hindices, hgovernor, dependent_of_mem he]
    exact ⟨List.mem_map.2 ⟨q, hq, rfl⟩, List.mem_map.2 ⟨p, hp, rfl⟩⟩
  · intro i hi
    obtain ⟨p, hp, rfl⟩ := List.mem_map.1 hi
    rw [hindices]
    exact List.mem_map.2 ⟨p, (List.mem_filter.1 hp).1, rfl⟩

/-- The graph of rows is made of what they say. -/
theorem Indexed.madeOf (h : Indexed locate (tokensOf ps)) (comments : List String) (hrefers : ∀ p ∈ tokensOf ps, p.1.Refers (knownOf ps)) :
    (graphOf comments locate ps).MadeOf ((tokensOf ps).map (tokenAt (ps.filterMap multiword?) locate))
        ((tokensOf ps).flatMap (edgesAt locate)).eraseDups (rootsAt locate (tokensOf ps)) ∧
      (graphOf comments locate ps).Sound ∧ (graphOf comments locate ps).comments = comments ∧
      (graphOf comments locate ps).multiwords = ps.filterMap multiword? := by
  have hparts := h.parts hrefers (ps.filterMap multiword?)
  refine ⟨?_, (Graph.sound_start comments _).extend _ _ _, ?_⟩
  · rw [graphOf, Graph.extend_eraseDups hparts]
    exact Graph.madeOf_extend hparts _ _
  · rw [graphOf, Graph.extend_eraseDups hparts]
    exact Graph.header_extend hparts _ _

/-! ## What is accepted -/

/-- The rows of tokens are those with ids of tokens. -/
theorem tokenRows_map (hids : ∀ p ∈ ps, RowId.ofText? p.1.id = some p.2) : tokenRows (ps.map (·.1)) = (tokensOf ps).map (·.1) := by
  rw [tokenRows, List.filter_map, tokensOf]
  refine congrArg _ (List.filter_congr fun p hp => ?_)
  simp [isSpan_iff (hids p hp)]

theorem Identified.tokenRows_eq (h : Identified rows ps) : tokenRows rows = (tokensOf ps).map (·.1) := by
  rw [← h.rows_eq, tokenRows_map h.ids]

/-- The ids of the rows of tokens are known. -/
theorem Identified.knownOf_eq (h : Identified rows ps) : knownOf ps = (tokenRows rows).map (·.id) := by
  rw [h.tokenRows_eq, List.map_map]
  rfl

/-- No id holds a colon. -/
theorem Identified.plain (h : Identified rows ps) : ∀ head ∈ knownOf ps, ':' ∉ head.toList := by
  intro head hm
  obtain ⟨p, hp, rfl⟩ := List.mem_map.1 hm
  have hid := h.ids p (List.mem_of_mem_filter hp)
  rw [ofText?_eq_some_iff] at hid
  have hdigits : ∀ n, ':' ∉ Nat.toDigits 10 n := notMem_toDigits (by decide)
  generalize p.1.id.toList = cs at hid
  generalize p.2 = id at hid
  cases hid with
  | ordinary hn => exact hdigits _
  | span ha hb => simp [hdigits]
  | elided hne hhost hn => simp [hdigits, notMem_digits hhost (c := ':') (by decide)]

/-- A row refers to known heads alone exactly if its columns name no others. -/
theorem refers_iff (hplain : ∀ head ∈ known, ':' ∉ head.toList) : row.Refers known ↔
    (row.head = "0" ∨ row.head = blank ∨ row.head ∈ known) ∧ (row.deps = blank ∨ ∀ entry ∈ row.deps.toList.splitOn '|',
      ∃ head relation, entry = head ++ ':' :: relation ∧ relation ≠ [] ∧ (head = ['0'] ∨ String.ofList head ∈ known)) := by
  have hentry : ∀ entry, Refers known entry ↔
      ∃ head relation, entry = head ++ ':' :: relation ∧ relation ≠ [] ∧ (head = ['0'] ∨ String.ofList head ∈ known) := by
    refine fun entry => exists_congr fun head => exists_congr fun relation => ?_
    constructor
    · rintro ⟨hsplit, hrest⟩
      exact ⟨(Text.of_splitFirst?_eq_some hsplit).1, hrest⟩
    · rintro ⟨rfl, hne, hhead⟩
      have hcolon : ':' ∉ head := by
        rcases hhead with rfl | hm
        · decide
        · have := hplain _ hm
          rwa [String.toList_ofList] at this
      exact ⟨Text.splitFirst?_append hcolon relation, hne, hhead⟩
  constructor
  · rintro ⟨hhead, hentries⟩
    refine ⟨hhead, or_iff_not_imp_left.2 fun hdeps entry hm => (hentry entry).1 (hentries entry ?_)⟩
    rwa [Row.entries, if_neg hdeps, Text.splitOn_eq]
  · rintro ⟨hhead, hdeps⟩
    refine ⟨hhead, fun entry hm => ?_⟩
    rw [Row.entries] at hm
    split at hm
    · cases hm
    · rename_i hne
      rw [Text.splitOn_eq] at hm
      exact (hentry entry).2 (hdeps.resolve_left hne entry hm)

/-- Rows are a sentence exactly if they have ids and refer to no other tokens than each other. -/
theorem sensible_iff : Sensible rows ↔ ∃ ps, Identified rows ps ∧ ∀ p ∈ tokensOf ps, p.1.Refers (knownOf ps) := by
  constructor
  · intro h
    let ps := rows.map fun row => (row, (RowId.ofText? row.id).getD (.ordinary 0))
    have hread : ∀ p ∈ ps, RowId.ofText? p.1.id = some p.2 ∧ p.2.Counts := by
      intro p hp
      obtain ⟨row, hrow, rfl⟩ := List.mem_map.1 hp
      obtain ⟨id, hspelled, hcounts⟩ := h.ids row hrow
      have hid := ofText?_eq_some_iff.2 hspelled
      simp only [hid, Option.getD_some]
      exact ⟨trivial, hcounts⟩
    have hrows : ps.map (·.1) = rows := by
      rw [List.map_map]
      exact List.map_id _
    have htokens : (tokensOf ps).map (·.1) = tokenRows rows := by rw [← hrows, tokenRows_map fun p hp => (hread p hp).1]
    have hknown : knownOf ps = (tokenRows rows).map (·.id) := by
      rw [← htokens, List.map_map]
      rfl
    have hps : Identified rows ps :=
      ⟨hrows, fun p hp => (hread p hp).1, fun p hp => (hread p hp).2, show (knownOf ps).Nodup from hknown ▸ h.distinct⟩
    have hall : ∀ row ∈ tokenRows rows, row.Refers (knownOf ps) := fun row hrow =>
      (refers_iff hps.plain).2 (hknown ▸ ⟨h.heads row hrow, h.deps row hrow⟩)
    rw [← htokens, List.forall_mem_map] at hall
    exact ⟨ps, hps, hall⟩
  · rintro ⟨ps, h, hrefers⟩
    have hall : ∀ row ∈ tokenRows rows, row.Refers (knownOf ps) := by
      rw [h.tokenRows_eq, List.forall_mem_map]
      exact hrefers
    simp only [refers_iff h.plain] at hall
    rw [h.knownOf_eq] at hall
    refine ⟨fun row hrow => ?_, h.knownOf_eq ▸ h.distinct, fun row hrow => (hall row hrow).1, fun row hrow => (hall row hrow).2⟩
    rw [← h.rows_eq] at hrow
    obtain ⟨p, hp, rfl⟩ := List.mem_map.1 hrow
    exact ⟨p.2, ofText?_eq_some_iff.1 (h.ids p hp), h.counts p hp⟩

/-- A graph is built of rows exactly if they are a sentence. -/
theorem exists_buildGraph_iff : (∃ g, buildGraph comments rows = .ok g) ↔ Sensible rows := by
  rw [sensible_iff]
  constructor
  · rintro ⟨g, hbuild⟩
    obtain ⟨s, hs, -⟩ := bind_eq_ok_iff.1 hbuild
    obtain ⟨ps, h, -⟩ := foldlM_add_eq_ok_iff.1 hs
    obtain ⟨locate, hr⟩ := h.exists_resolved
    exact ⟨ps, h, ((h.buildGraph_eq_ok_iff hr).1 hbuild).1⟩
  · rintro ⟨ps, h, hrefers⟩
    obtain ⟨locate, hr⟩ := h.exists_resolved
    exact ⟨_, (h.buildGraph_eq_ok_iff hr).2 ⟨hrefers, rfl⟩⟩

/-- The surface word of a row, if its id is one of a span. -/
def Row.span? (row : Row) : Option Multiword := (RowId.ofText? row.id).bind fun id => multiword? (row, id)

/-- The surface words of rows are those of their ids. -/
theorem Identified.filterMap_span? (h : Identified rows ps) : rows.filterMap Row.span? = ps.filterMap multiword? := by
  rw [← h.rows_eq, List.filterMap_map]
  refine List.filterMap_congr fun p hp => ?_
  rw [Function.comp_apply, Row.span?, h.ids p hp]
  rfl

/-- What the graph of a sentence has: one token for each row of a token, and the edges that these rows name. -/
structure Depicts (g : Graph) (comments : List String) (rows : List Row) (locate : String → Int) : Prop where
  sound : g.Sound
  comments : g.comments = comments
  /-- The surface words are those of the rows of spans. -/
  multiwords : g.multiwords = rows.filterMap Row.span?
  /-- There is one token for each row of a token. -/
  indices : g.indices.Perm ((tokenRows rows).map fun row => locate row.id)
  /-- The token of a row has what stands in its columns; an ordinary one has its number as index. -/
  tokens : ∀ row ∈ tokenRows rows, ∃ id : RowId, id.Spelled row.id.toList ∧ (∀ n, id = .ordinary n → locate row.id = n) ∧
    g.token? (locate row.id) = some (tokenOf g.multiwords row id (locate row.id))
  /-- The edges are those that rows of tokens name. -/
  edges : ∀ e, e ∈ g.edges ↔ ∃ row ∈ tokenRows rows, row.Names locate e
  /-- The roots are the tokens whose head is zero. -/
  roots : ∀ i, i ∈ g.roots ↔ ∃ row ∈ tokenRows rows, row.head = "0" ∧ locate row.id = i

/-- The graph that is built of rows has one token for each row of a token, and the edges that these rows name. -/
theorem depicts_of_buildGraph (hbuild : buildGraph comments rows = .ok g) : ∃ locate, Depicts g comments rows locate := by
  obtain ⟨s, hs, -⟩ := bind_eq_ok_iff.1 hbuild
  obtain ⟨ps, h, -⟩ := foldlM_add_eq_ok_iff.1 hs
  obtain ⟨locate, hr⟩ := h.exists_resolved
  obtain ⟨hrefers, rfl⟩ := (h.buildGraph_eq_ok_iff hr).1 hbuild
  obtain ⟨hmade, hsound, hcomments, hwords⟩ := hr.toIndexed.madeOf comments hrefers
  refine ⟨locate, hsound, hcomments, hwords.trans h.filterMap_span?.symm, ?_, ?_, fun e => ?_, fun i => ?_⟩
  · refine hmade.indices.trans (List.Perm.of_eq ?_)
    rw [h.tokenRows_eq, List.map_map, List.map_map]
    exact List.map_congr_left fun p _ => index_tokenAt _ locate p
  · rw [h.tokenRows_eq, List.forall_mem_map]
    intro p hp
    refine ⟨p.2, ofText?_eq_some_iff.1 (h.ids p (List.mem_of_mem_filter hp)), fun n e => hr.ordinary p.1 n (e ▸ hp), ?_⟩
    have htoken := hmade.token _ (List.mem_map_of_mem hp)
    rw [index_tokenAt] at htoken
    rw [hwords, htoken]
    rfl
  · rw [Graph.mem_edges, ← List.mem_map, hmade.edges.mem_iff, List.mem_eraseDups, List.mem_flatMap, h.tokenRows_eq]
    simp only [mem_edgesAt, List.mem_map, exists_exists_and_eq_and]
  · rw [← List.contains_iff_mem]
    refine (hmade.isRoot i).trans ?_
    rw [h.tokenRows_eq, rootsAt]
    simp only [List.mem_map, List.mem_filter, beq_iff_eq, exists_exists_and_eq_and, and_assoc]

/-- The surface words of a graph that is built of rows come from rows with ids of spans. -/
theorem exists_row_of_mem_multiwords (hbuild : buildGraph comments rows = .ok g) {m : Multiword} (hm : m ∈ g.multiwords) :
    m.Counts ∧ ∃ row ∈ rows, m.form = row.form ∧ m.columns = row.tail := by
  obtain ⟨locate, hdepicts⟩ := depicts_of_buildGraph hbuild
  rw [hdepicts.multiwords] at hm
  obtain ⟨row, hrow, hspan⟩ := List.mem_filterMap.1 hm
  obtain ⟨id, hid, hword⟩ := Option.bind_eq_some_iff.1 hspan
  obtain ⟨id', hspelled, hcounts⟩ := (exists_buildGraph_iff.1 ⟨g, hbuild⟩).ids row hrow
  rw [ofText?_eq_some_iff.2 hspelled] at hid
  cases hid
  refine ⟨counts_of_multiword? hword hcounts, row, hrow, ?_⟩
  cases id with
  | span start stop =>
    cases hword
    exact ⟨rfl, rfl⟩
  | ordinary n => cases hword
  | elided host n => cases hword

end Treebank.Conllu

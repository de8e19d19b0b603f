import Treebank.Proofs.Conllu.Writable

/-!
# Rows of graphs of which nothing is lost in writing

The row of a token names the plain edge that enters it or says that it is a root, and names its extra edges in the order of their slots.
The rows of a graph can be taken in (`Writable.readable`).
-/

namespace Treebank.Conllu

/-! ## Links -/

/-- The links of a token: the relation of the root, and an entry for each extra edge. -/
def linksOf (g : Graph) (t : Token) : List (String × String) :=
  (if t.enhancedRootRelation = "" then [] else [("0", t.enhancedRootRelation)]) ++
    ((g.incomingBySlot t.index).filter (·.extra)).map fun e => (idOf (idsOf g) e.governor, e.relation)

/-- The enhanced column of a token is that of its links. -/
theorem depsColumn_eq_linksText (g : Graph) (t : Token) : depsColumn g (idsOf g) t = linksText (linksOf g t) := by
  have hentries : (linksOf g t).map (fun p => p.1 ++ ":" ++ p.2) =
      (if t.enhancedRootRelation = "" then [] else ["0:" ++ t.enhancedRootRelation]) ++
        ((g.incomingBySlot t.index).filter (·.extra)).map fun e => idOf (idsOf g) e.governor ++ ":" ++ e.relation := by
    rw [linksOf, List.map_append, List.map_map]
    split <;> rfl
  rw [depsColumn, linksText]
  dsimp only
  rw [← hentries]
  cases linksOf g t <;> rfl

/-! ## Columns of a row -/

namespace Presentable

variable {g : Graph}

/-- An extra edge into a token has a governor whose id is known and not zero, and a relation that may stand in an entry. -/
theorem of_mem_extra (hg : Presentable g) {index : Int} {e : Edge} (he : e ∈ (g.incomingBySlot index).filter (·.extra)) :
    e.extra ∧ e.dependent = index ∧ g.hasToken e.governor ∧ idOf (idsOf g) e.governor ≠ "0" ∧ e.relation ≠ "" ∧
      FitsEntry e.relation := by
  obtain ⟨he, hextra⟩ := List.mem_filter.1 he
  obtain ⟨a, ha, rfl, hdependent⟩ := Graph.exists_arc_of_mem_incomingBySlot he
  have hgovernor := (hg.sound.ends a ha).1
  obtain ⟨id, hcounts, hid⟩ := idOf_text hg.sound hgovernor
  exact ⟨hextra, hdependent, hgovernor, hid ▸ (text_ne hcounts).1, hg.extraRelations a ha hextra⟩

/-- Links have heads that are zero or known, and relations. -/
theorem of_mem_linksOf (hg : Presentable g) {t : Token} (ht : t ∈ g.tokensInOrder) {p : String × String} (hp : p ∈ linksOf g t) :
    (p.1 = "0" ∨ p.1 ∈ knownIds g) ∧ FitsColumn p.1 ∧ p.2 ≠ "" ∧ FitsEntry p.2 := by
  rcases List.mem_append.1 hp with hp | hp
  · split at hp
    · cases hp
    · rename_i hne
      rw [List.mem_singleton.1 hp]
      have hzero : FitsColumn "0" := by decide
      exact ⟨Or.inl rfl, hzero, hne, hg.enhancedRootRelations t (g.perm_tokensInOrder.mem_iff.1 ht)⟩
  · obtain ⟨e, he, rfl⟩ := List.mem_map.1 hp
    obtain ⟨-, -, hgovernor, -, hrelation⟩ := hg.of_mem_extra he
    obtain ⟨id, -, hid⟩ := idOf_text hg.sound hgovernor
    exact ⟨Or.inr (idOf_mem hg.sound hgovernor), hid ▸ (fitsColumn_text id).2, hrelation⟩

/-- The head of a row is that of the plain edge into its token; without one it is zero or blank. -/
theorem headColumns_cases (hg : Presentable g) (t : Token) :
    (∃ e, g.governorEdge? t.index = some e ∧ g.hasToken e.governor ∧ FitsColumn e.relation ∧
        headColumns g (idsOf g) t = (idOf (idsOf g) e.governor, column e.relation)) ∨
      headColumns g (idsOf g) t = ("0", (t.rootRelation.map column).getD "root") ∨ headColumns g (idsOf g) t = (blank, blank) := by
  unfold headColumns
  cases h : g.governorEdge? t.index with
  | some e =>
    obtain ⟨hextra, he⟩ := Graph.plain_of_governorEdge? h
    obtain ⟨a, ha, rfl, -⟩ := Graph.exists_arc_of_mem_incomingBySlot he
    exact .inl ⟨a.edge, rfl, (hg.sound.ends a ha).1, hg.plainRelations a ha hextra, rfl⟩
  | none =>
    dsimp only
    split
    · exact .inr (.inl rfl)
    · exact .inr (.inr rfl)

/-- Head and relation of a row may stand in columns. -/
theorem fitsColumn_headColumns (hg : Presentable g) {t : Token} (ht : t ∈ g.tokensInOrder) :
    ∀ c ∈ [(headColumns g (idsOf g) t).1, (headColumns g (idsOf g) t).2], c ≠ "" ∧ FitsColumn c := by
  have hzero : "0" ≠ "" ∧ FitsColumn "0" := ⟨by decide, by decide⟩
  have hblank : blank ≠ "" ∧ FitsColumn blank := ⟨by decide, by decide⟩
  have hdefault : "root" ≠ "" ∧ FitsColumn "root" := ⟨by decide, by decide⟩
  rw [List.forall_mem_cons, List.forall_mem_singleton]
  rcases hg.headColumns_cases t with ⟨e, -, hgovernor, hrelation, h⟩ | h | h
  · obtain ⟨id, -, hid⟩ := idOf_text hg.sound hgovernor
    rw [h, hid]
    exact ⟨fitsColumn_text id, fitsColumn_column hrelation⟩
  · rw [h]
    refine ⟨hzero, ?_⟩
    cases hr : t.rootRelation with
    | none => exact hdefault
    | some r => exact fitsColumn_column (hg.rootRelations t (g.perm_tokensInOrder.mem_iff.1 ht) r hr)
  · rw [h]
    exact ⟨hblank, hblank⟩

/-- The enhanced column of a row may stand in a column. -/
theorem fitsColumn_depsColumn (hg : Presentable g) {t : Token} (ht : t ∈ g.tokensInOrder) :
    depsColumn g (idsOf g) t ≠ "" ∧ FitsColumn (depsColumn g (idsOf g) t) := by
  rw [depsColumn_eq_linksText, linksText]
  split
  · exact ⟨by decide, by decide⟩
  · rename_i hne
    constructor
    · -- A column with an entry holds its colon.
      intro e
      have hcolon : ':' ∈ ("|".intercalate ((linksOf g t).map fun p => p.1 ++ ":" ++ p.2)).toList := by
        cases h : linksOf g t with
        | nil => simp [h] at hne
        | cons p ps => cases ps <;> simp
      rw [e] at hcolon
      cases hcolon
    · refine fitsColumn_intercalate fun s hs => ?_
      obtain ⟨p, hp, rfl⟩ := List.mem_map.1 hs
      obtain ⟨-, hhead, -, hrelation⟩ := hg.of_mem_linksOf ht hp
      have hcolon : FitsColumn ":" := by decide
      exact (hhead.append hcolon).append hrelation.2

/-- The columns of a row are not empty and hold no tab and no line break. -/
theorem fitsColumn_rowOf (hg : Presentable g) {t : Token} (ht : t ∈ g.tokensInOrder) :
    ∀ c ∈ (rowOf g (idsOf g) t).columns, c ≠ "" ∧ FitsColumn c := by
  have hfields := hg.fields t (g.perm_tokensInOrder.mem_iff.1 ht)
  have hcolumns : ∀ s ∈ [t.word, t.baseForm, t.upos, t.tag, t.feats, t.misc], column s ≠ "" ∧ FitsColumn (column s) := fun s hs =>
    fitsColumn_column (hfields s hs)
  have hid : idOf (idsOf g) t.index ≠ "" ∧ FitsColumn (idOf (idsOf g) t.index) := by
    obtain ⟨id, -, hid⟩ := exists_id hg.sound ht
    exact hid ▸ fitsColumn_text id
  have hheads := hg.fitsColumn_headColumns ht
  simp only [List.forall_mem_cons] at hcolumns hheads
  obtain ⟨hword, hbaseForm, hupos, htag, hfeats, hmisc, -⟩ := hcolumns
  obtain ⟨hhead, hrelation, -⟩ := hheads
  simp only [Row.columns, Row.tail, List.forall_mem_cons]
  exact ⟨hid, hword, hbaseForm, hupos, htag, hfeats, hhead, hrelation, hg.fitsColumn_depsColumn ht, hmisc, by simp⟩

end Presentable

namespace Writable

variable {g : Graph}

/-! ## Links of a row -/

/-- No two edges of a graph that is written have one outline. -/
theorem nodup_outlines (hg : Writable g) (index : Int) : ((g.incomingBySlot index).map Edge.outline).Nodup := by
  have harcs := hg.weights.nodup_outlines hg.sound.orderly
  rw [Graph.incomingBySlot, List.map_map]
  have hperm := (Order.perm_sortBy (compareOn Arc.slot) (g.arcs.filter (·.edge.dependent == index))).map
    (Edge.outline ∘ Arc.edge)
  rw [hperm.nodup_iff]
  exact (List.filter_sublist.map _).nodup harcs

/-- No two extra edges into a token give the same link. -/
theorem nodup_extraLinks (hg : Writable g) (index : Int) :
    (((g.incomingBySlot index).filter (·.extra)).map fun e => (idOf (idsOf g) e.governor, e.relation)).Nodup := by
  have hnodup : (((g.incomingBySlot index).filter (·.extra)).map Edge.outline).Nodup :=
    (List.filter_sublist.map _).nodup (hg.nodup_outlines index)
  refine List.pairwise_map.2 ((List.pairwise_map.1 hnodup).imp_of_mem fun {a b} ha hb hne e => hne ?_)
  obtain ⟨hid, hrelation⟩ := Prod.mk.inj e
  obtain ⟨hextra, hdependent, hgovernor, -⟩ := hg.presentable.of_mem_extra ha
  obtain ⟨hextra', hdependent', hgovernor', -⟩ := hg.presentable.of_mem_extra hb
  exact Edge.outline_eq_iff.2 ⟨hg.eq_of_idOf_eq hgovernor hgovernor' hid, hdependent.trans hdependent'.symm, hrelation,
    hextra.trans hextra'.symm⟩

/-- The links of a token may stand in an enhanced column. -/
theorem linksFit (hg : Writable g) {t : Token} (ht : t ∈ g.tokensInOrder) : LinksFit (knownIds g) (linksOf g t) := by
  have hnonzero : ∀ p ∈ ((g.incomingBySlot t.index).filter (·.extra)).map fun e => (idOf (idsOf g) e.governor, e.relation),
      p.1 ≠ "0" := by
    intro p hp
    obtain ⟨e, he, rfl⟩ := List.mem_map.1 hp
    exact (hg.presentable.of_mem_extra he).2.2.2.1
  have hnodup := hg.nodup_extraLinks t.index
  constructor
  · unfold linksOf
    split
    · exact hnodup
    · exact List.nodup_cons.2 ⟨fun hm => hnonzero _ hm rfl, hnodup⟩
  · intro p hp
    exact (hg.presentable.of_mem_linksOf ht hp).1
  · intro p hp
    obtain ⟨-, -, hne, hentry⟩ := hg.presentable.of_mem_linksOf ht hp
    exact ⟨hne, hentry.1⟩
  · -- Only the link of the root, which comes first if there is one, has the head zero.
    intro p hp
    refine hnonzero p ?_
    unfold linksOf at hp
    split at hp
    · exact List.mem_of_mem_tail hp
    · exact hp

/-! ## Rows -/

/-- The head of a row is that of the plain edge into its token; without one it is zero for a root and otherwise blank. -/
theorem headColumns_cases (hg : Writable g) {t : Token} (ht : t ∈ g.tokensInOrder) :
    (∃ e, g.governorEdge? t.index = some e ∧ g.hasToken e.governor ∧ ReadsBack e.relation ∧
        headColumns g (idsOf g) t = (idOf (idsOf g) e.governor, column e.relation)) ∨
      g.governorEdge? t.index = none ∧ g.isRoot t.index ∧ t.isEmptyNode = false ∧
        headColumns g (idsOf g) t = ("0", (t.rootRelation.map column).getD "root") ∨
      g.governorEdge? t.index = none ∧ g.isRoot t.index = false ∧ headColumns g (idsOf g) t = (blank, blank) := by
  cases h : g.governorEdge? t.index with
  | some e =>
    obtain ⟨hextra, he⟩ := Graph.plain_of_governorEdge? h
    obtain ⟨a, ha, rfl, -⟩ := Graph.exists_arc_of_mem_incomingBySlot he
    exact Or.inl ⟨a.edge, rfl, (hg.sound.ends a ha).1, hg.plainRelations a ha hextra, by rw [headColumns, h]⟩
  | none =>
    refine Or.inr ?_
    cases hroot : g.isRoot t.index with
    | false =>
      refine Or.inr ⟨rfl, rfl, ?_⟩
      rw [headColumns, h, hroot]
      rfl
    | true =>
      have hordinary := (hg.roots t.index (List.contains_iff_mem.1 hroot)).2 t (hg.sound.token_of_mem ht)
      refine Or.inl ⟨rfl, rfl, hordinary, ?_⟩
      rw [headColumns, h, hroot, hordinary]
      rfl

/-- The row of a token fits. -/
theorem fits (hg : Writable g) {p : Token × RowId} (hp : p ∈ withIds 0 g.tokensInOrder) :
    (rowOf g (idsOf g) p.1).Fits (knownIds g) p.2 := by
  have ht : p.1 ∈ g.tokensInOrder := by
    rw [← map_fst_withIds 0 g.tokensInOrder]
    exact List.mem_map_of_mem hp
  constructor
  · show idOf (idsOf g) p.1.index = p.2.text
    rw [idOf, lookup_idsOf hg.sound hp]
    rfl
  · exact hg.presentable.fitsColumn_rowOf ht
  · intro _
    show (headColumns g (idsOf g) p.1).1 = "0" ∧ _ ∨
      (headColumns g (idsOf g) p.1).1 = blank ∧ (headColumns g (idsOf g) p.1).2 = blank ∨ (headColumns g (idsOf g) p.1).1 ∈ _
    rcases hg.headColumns_cases ht with ⟨e, -, hgovernor, -, h⟩ | ⟨-, -, hordinary, h⟩ | ⟨-, -, h⟩
    · rw [h]
      exact Or.inr (Or.inr (idOf_mem hg.sound hgovernor))
    · rw [h, (of_mem_withIds hp).2.2, hordinary]
      exact Or.inl ⟨rfl, rfl⟩
    · rw [h]
      exact Or.inr (Or.inl ⟨rfl, rfl⟩)
  · intro _
    exact ⟨linksOf g p.1, hg.linksFit ht, depsColumn_eq_linksText g p.1⟩

end Writable

/-! ## Numbered rows -/

/-- Rows with the numbers of their lines are made one by one. -/
theorem numberRows_map {α : Type} (f : α → Row) (l : List α) (n : Nat) :
    numberRows n (l.map f) = (l.zipIdx n).map fun x => { f x.1 with lineNumber := x.2 } := by
  induction l generalizing n with
  | nil => rfl
  | cons a l ih => rw [List.map_cons, numberRows, ih, List.zipIdx_cons, List.map_cons]

/-- The row of a token with the number of its line, and what its id says. -/
def entryOf (g : Graph) (x : (Token × RowId) × Nat) : Row × RowId := ({ rowOf g (idsOf g) x.1.1 with lineNumber := x.2 }, x.1.2)

/-- The tokens of a graph with their ids and the numbers of their lines, the first of which is given. -/
def placed (g : Graph) (n : Nat) : List ((Token × RowId) × Nat) := (withIds 0 g.tokensInOrder).zipIdx n

/-- The rows of a graph with the numbers of their lines, the first of which is given, each with what its id says. -/
def rowsOf (g : Graph) (n : Nat) : List (Row × RowId) := (placed g n).map (entryOf g)

/-- The tokens of a graph are placed in linear order. -/
theorem map_placed (g : Graph) (n : Nat) : (placed g n).map (·.1.1) = g.tokensInOrder := by
  have hids : (placed g n).map (·.1) = withIds 0 g.tokensInOrder := List.zipIdx_map_fst n _
  rw [← map_fst_withIds 0 g.tokensInOrder, ← hids, List.map_map]
  rfl

/-- The rows of a graph are those of its tokens, with the numbers of their lines. -/
theorem map_rowsOf (g : Graph) (n : Nat) : (rowsOf g n).map (·.1) = numberRows n (g.tokensInOrder.map (rowOf g (idsOf g))) := by
  have htokens := congrArg (List.map (rowOf g (idsOf g))) (map_fst_withIds 0 g.tokensInOrder)
  rw [List.map_map] at htokens
  rw [← htokens, numberRows_map, rowsOf, List.map_map]
  rfl

/-- Placed tokens are those in linear order, with their ids. -/
theorem mem_of_placed {g : Graph} {n : Nat} {x : (Token × RowId) × Nat} (hx : x ∈ placed g n) :
    x.1 ∈ withIds 0 g.tokensInOrder ∧ x.1.1 ∈ g.tokensInOrder := by
  constructor
  · rw [← List.zipIdx_map_fst n (withIds 0 g.tokensInOrder)]
    exact List.mem_map_of_mem hx
  · rw [← map_placed g n]
    exact List.mem_map_of_mem hx

/-- All rows of a graph are those of tokens. -/
theorem filter_isToken_rowsOf (g : Graph) (n : Nat) : (rowsOf g n).filter (·.2.isToken) = rowsOf g n := by
  refine List.filter_eq_self.2 fun p hp => ?_
  obtain ⟨x, hx, rfl⟩ := List.mem_map.1 hp
  exact (of_mem_withIds (mem_of_placed hx).1).1

namespace Writable

variable {g : Graph} {n : Nat} {x : (Token × RowId) × Nat}

/-- The row of a placed token fits. -/
theorem fits_entryOf (hg : Writable g) (hx : x ∈ placed g n) : (entryOf g x).1.Fits (knownIds g) (entryOf g x).2 := by
  have hfits := hg.fits (mem_of_placed hx).1
  exact ⟨hfits.named, hfits.columns, hfits.head, hfits.deps⟩

/-- The links of a row are those of its token. -/
theorem links_entryOf (hg : Writable g) (hknown : Plain (knownIds g)) (hx : x ∈ placed g n) :
    (entryOf g x).1.links = linksOf g x.1.1 :=
  links_eq hknown (hg.linksFit (mem_of_placed hx).2) (depsColumn_eq_linksText g x.1.1)

/-- The relation of the root is read from the row of a token. -/
theorem enhancedRoot_entryOf (hg : Writable g) (hknown : Plain (knownIds g)) (hx : x ∈ placed g n) :
    (entryOf g x).1.enhancedRoot = x.1.1.enhancedRootRelation := by
  have hlinked := (hg.fits_entryOf hx).linked (of_mem_withIds (mem_of_placed hx).1).1 hknown
  have hnone : (((g.incomingBySlot x.1.1.index).filter (·.extra)).map fun e => (idOf (idsOf g) e.governor, e.relation)).filterMap
      (fun p => if p.1 = "0" then some p.2 else none) = [] := by
    refine List.filterMap_eq_nil_iff.2 fun p hp => ?_
    obtain ⟨e, he, rfl⟩ := List.mem_map.1 hp
    exact if_neg (hg.presentable.of_mem_extra he).2.2.2.1
  rw [hlinked.enhancedRoot_eq, hg.links_entryOf hknown hx, linksOf, List.filterMap_append, hnone, List.append_nil]
  split
  · rename_i hempty
    rw [hempty]
    rfl
  · rfl

/-- The links of a token without that of the root are those of its extra edges. -/
theorem filter_linksOf (hg : Writable g) (t : Token) : (linksOf g t).filter (·.1 != "0") =
    ((g.incomingBySlot t.index).filter (·.extra)).map fun e => (idOf (idsOf g) e.governor, e.relation) := by
  have hall : (((g.incomingBySlot t.index).filter (·.extra)).map fun e => (idOf (idsOf g) e.governor, e.relation)).filter
      (·.1 != "0") = ((g.incomingBySlot t.index).filter (·.extra)).map fun e => (idOf (idsOf g) e.governor, e.relation) := by
    refine List.filter_eq_self.2 fun p hp => ?_
    obtain ⟨e, he, rfl⟩ := List.mem_map.1 hp
    simpa using (hg.presentable.of_mem_extra he).2.2.2.1
  rw [linksOf, List.filter_append, hall]
  split <;> rfl

/-- The rows of a graph of which nothing is lost in writing can be taken in. -/
theorem readable (hg : Writable g) (n : Nat) : Readable (knownIds g) (rowsOf g n) := by
  constructor
  · intro p hp
    obtain ⟨x, hx, rfl⟩ := List.mem_map.1 hp
    exact (of_mem_withIds (mem_of_placed hx).1).2.1
  · intro p hp
    obtain ⟨x, hx, rfl⟩ := List.mem_map.1 hp
    exact hg.fits_entryOf hx
  · rw [filter_isToken_rowsOf, rowsOf, List.map_map, knownIds, ← map_placed g n, List.map_map]
    rfl
  · exact hg.nodup_known

end Writable

end Treebank.Conllu

import Treebank.Proofs.Conllu.RoundTrip

/-!
# Graphs of which nothing is lost in writing

What has to hold of a graph so that its sentence says all of it (`Writable`), whatever indices, positions and slots it has come to have.
Every token of such a graph is written with an id that no other one has. Less is asked of a graph whose tokens and edges can merely stand
in rows (`Presentable`), as those of every graph can that is read.
-/

namespace Treebank.Conllu

/-! ## Columns -/

/-- Whether a text can stand in a column: it holds no tab and no line break. -/
def FitsColumn (s : String) : Prop := ∀ x ∈ s.toList, x ≠ '\t' ∧ Text.isLineBreak x = false

/-- Whether a text comes back from a column: it can stand in one, and is not what a column without content holds. -/
def ReadsBack (s : String) : Prop := s ≠ blank ∧ FitsColumn s

/-- Whether a relation can stand in an entry of an enhanced column, where bars part the entries. -/
def FitsEntry (s : String) : Prop := '|' ∉ s.toList ∧ FitsColumn s

instance : DecidablePred FitsColumn := fun s => List.decidableBAll (fun x => x ≠ '\t' ∧ Text.isLineBreak x = false) s.toList

instance : DecidablePred ReadsBack := fun s => inferInstanceAs (Decidable (s ≠ blank ∧ FitsColumn s))

instance : DecidablePred FitsEntry := fun s => inferInstanceAs (Decidable ('|' ∉ s.toList ∧ FitsColumn s))

/-- What comes back from a column comes back as it was. -/
theorem content_column {s : String} (h : s ≠ blank) : content (column s) = s := by
  unfold content column
  by_cases hs : s = ""
  · simp [hs]
  · simp [hs, h]

/-- A column of its content is not empty, and can stand there if the content can. -/
theorem fitsColumn_column {s : String} (h : FitsColumn s) : column s ≠ "" ∧ FitsColumn (column s) := by
  unfold column
  split
  · exact ⟨by decide, by decide⟩
  · rename_i hs
    exact ⟨hs, h⟩

/-- An id can stand in a column. -/
theorem fitsColumn_text (id : RowId) : id.text ≠ "" ∧ FitsColumn id.text := by
  obtain ⟨c, rest, hid, -⟩ := text_eq_cons id
  refine ⟨fun e => ?_, fun x hx => ?_⟩
  · rw [e] at hid
    cases hid
  · rcases mem_text hx with h | rfl | rfl
    · constructor
      · rintro rfl
        exact absurd h (by decide)
      · exact Text.isLineBreak_of_isAsciiDigit h
    · decide
    · decide

/-- A text that is made of some that can stand in a column can. -/
theorem FitsColumn.append {s t : String} (hs : FitsColumn s) (ht : FitsColumn t) : FitsColumn (s ++ t) := by
  intro x hx
  rw [String.toList_append, List.mem_append] at hx
  exact hx.elim (hs x) (ht x)

/-- Entries that can stand in a column can, joined by bars. -/
theorem fitsColumn_intercalate {l : List String} (h : ∀ s ∈ l, FitsColumn s) : FitsColumn ("|".intercalate l) := by
  intro x hx
  rw [String.toList_intercalate] at hx
  rcases Text.mem_intercalate hx with rfl | ⟨piece, hp, hx⟩
  · decide
  · obtain ⟨s, hs, rfl⟩ := List.mem_map.1 hp
    exact h s hs x hx

/-! ## Graphs -/

/-- A graph whose tokens and edges can stand in rows. -/
structure Presentable (g : Graph) : Prop where
  sound : g.Sound
  fields : ∀ t ∈ g.tokenList, ∀ s ∈ [t.word, t.baseForm, t.upos, t.tag, t.feats, t.misc], FitsColumn s
  rootRelations : ∀ t ∈ g.tokenList, ∀ s ∈ t.rootRelation, FitsColumn s
  enhancedRootRelations : ∀ t ∈ g.tokenList, FitsEntry t.enhancedRootRelation
  plainRelations : ∀ a ∈ g.arcs, a.edge.extra = false → FitsColumn a.edge.relation
  extraRelations : ∀ a ∈ g.arcs, a.edge.extra → a.edge.relation ≠ "" ∧ FitsEntry a.edge.relation

/-- Whether the columns of a surface word are those of a row, and can stand there. -/
def FitsRow (m : Multiword) : Prop :=
  ∃ row : Row, m.form = row.form ∧ m.columns = row.tail ∧ ∀ c ∈ row.form :: row.tail, FitsColumn c

/-- A graph of which nothing is lost in writing. -/
structure Writable (g : Graph) : Prop where
  sound : g.Sound
  nonempty : g.tokens ≠ []
  multiwords : g.multiwords = []
  /-- Comments are lines that begin with a number sign. -/
  comments : ∀ c ∈ g.comments, c.toList.head? = some '#' ∧ ∀ x ∈ c.toList, Text.isLineBreak x = false
  fields : ∀ t ∈ g.tokenList, ∀ s ∈ [t.word, t.baseForm, t.upos, t.tag, t.feats, t.misc], ReadsBack s
  rootRelations : ∀ t ∈ g.tokenList, ∀ s ∈ t.rootRelation, FitsColumn s
  enhancedRootRelations : ∀ t ∈ g.tokenList, FitsEntry t.enhancedRootRelation
  /-- At most one plain edge enters a token. -/
  governors : ∀ index ∈ g.indices, ((g.incomingBySlot index).filter (!·.extra)).length ≤ 1
  /-- Roots are ordinary tokens that no plain edge enters. -/
  roots : ∀ index ∈ g.roots, g.governorEdge? index = none ∧ ∀ t ∈ g.token? index, t.isEmptyNode = false
  plainRelations : ∀ a ∈ g.arcs, a.edge.extra = false → ReadsBack a.edge.relation
  extraRelations : ∀ a ∈ g.arcs, a.edge.extra → a.edge.relation ≠ "" ∧ FitsEntry a.edge.relation
  weights : g.WeightBlind
  /-- No two tokens are given one id. -/
  ids : ((assignIds 0 g.tokensInOrder).map (·.2)).Nodup

namespace Writable

variable {g : Graph}

/-- The tokens and edges can stand in rows. -/
theorem presentable (hg : Writable g) : Presentable g :=
  ⟨hg.sound, fun t ht s hs => (hg.fields t ht s hs).2, hg.rootRelations, hg.enhancedRootRelations,
    fun a ha hplain => (hg.plainRelations a ha hplain).2, hg.extraRelations⟩

/-- At most one plain edge enters a token. -/
theorem governed (hg : Writable g) {t : Token} (ht : t ∈ g.tokensInOrder) :
    ((g.incomingBySlot t.index).filter (!·.extra)).length ≤ 1 :=
  hg.governors t.index (Graph.hasToken_iff.1 (hg.sound.hasToken_of_mem ht))

/-- No two tokens are given one id. -/
theorem nodup_known (hg : Writable g) : (knownIds g).Nodup := map_snd_assignIds hg.sound ▸ hg.ids

/-- Tokens that are given one id are the same. -/
theorem eq_of_idOf_eq (hg : Writable g) {i j : Int} (hi : g.hasToken i) (hj : g.hasToken j)
    (e : idOf (idsOf g) i = idOf (idsOf g) j) : i = j := by
  obtain ⟨t, ht, rfl⟩ := hg.sound.exists_token hi
  obtain ⟨u, hu, rfl⟩ := hg.sound.exists_token hj
  rw [List.inj_on_of_nodup_map hg.nodup_known ht hu e]

end Writable

end Treebank.Conllu

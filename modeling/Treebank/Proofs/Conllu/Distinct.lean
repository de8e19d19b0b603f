import Treebank.Proofs.Checked.Edit
import Treebank.Proofs.Conllu.Blocks
import Treebank.Proofs.Conllu.Lines
import Treebank.Proofs.Conllu.Rows

/-!
# Ids that are given twice

The host of an elided token may be gone, or never have been there: then the token is written behind the ordinary token that it follows
now, where another one with its number may already stand. So the lines of a graph have ids of their own, and heads and links name one
token each, exactly if no two elided tokens clash (`nodup_ids_iff_of_edits`).
-/

namespace Treebank.Conllu

variable {g : Graph} {t u : Token}

/-! ## What rows name -/

/-- Whether a token, and no other one, has an id. -/
def Names (g : Graph) (id : String) (u : Token) : Prop := ∀ v ∈ g.tokensInOrder, idOf (idsOf g) v.index = id ↔ v = u

/-- The id of a token names it exactly if it clashes with no other one. -/
theorem names_iff (hg : g.Sound) (hu : u ∈ g.tokensInOrder) :
    Names g (idOf (idsOf g) u.index) u ↔ ∀ v ∈ g.tokensInOrder, ¬ Clash g v u := by
  refine forall₂_congr fun v hv => ?_
  rw [idOf_eq_iff hg hv hu]
  exact ⟨fun h hclash => hclash.1 (h.1 (.inr hclash)), fun h => or_iff_left h⟩

/-- What the row of a token says of the edges into it. -/
structure RowSays (g : Graph) (t : Token) : Prop where
  /-- The head is the id of the governor. -/
  head : ∀ e, g.governorEdge? t.index = some e → (rowOf g (idsOf g) t).head = idOf (idsOf g) e.governor
  headless : g.governorEdge? t.index = none → (rowOf g (idsOf g) t).head = "0" ∨ (rowOf g (idsOf g) t).head = blank
  /-- There is a link for each extra edge, with the id of its governor. -/
  deps : (rowOf g (idsOf g) t).deps = linksText (linksOf g t)
  /-- Each of these ids is one of the governor. It names it exactly if the governor clashes with no other token. -/
  governors : ∀ e ∈ rowEdges g t, ∃ u ∈ g.tokensInOrder, u.index = e.governor ∧
    (Names g (idOf (idsOf g) e.governor) u ↔ ∀ v ∈ g.tokensInOrder, ¬ Clash g v u)

/-- The row of a token gives the ids of its governors. -/
theorem rowSays (hg : g.Sound) (t : Token) : RowSays g t := by
  have hhead : (rowOf g (idsOf g) t).head = (headColumns g (idsOf g) t).1 := rfl
  refine ⟨fun e he => ?_, fun hnone => ?_, depsColumn_eq_linksText g t, fun e he => ?_⟩
  · rw [hhead, headColumns, he]
  · rw [hhead, headColumns, hnone]
    dsimp only
    split
    · exact .inl rfl
    · exact .inr rfl
  · obtain ⟨u, hu, hgovernor⟩ := hg.exists_token (hasToken_of_mem_rowEdges hg he)
    exact ⟨u, hu, hgovernor, hgovernor ▸ names_iff hg hu⟩

/-! ## Graphs that are read and edited -/

section Edited

variable {validate : Bool} {text : String} {sink sink' : Sink} {graphs : List Graph} {bindings : Pattern.Bindings} {es : List Edit}
  {w : Edit.Workspace}

/-- A graph that is read and edited is sound, and its surface words span positions. -/
theorem sound_of_edits (hread : (read validate text).run.run sink = (.ok graphs, sink')) (hg : g ∈ graphs)
    (h : Edit.applyAll { graph := g, bindings := bindings } es = .ok w) : w.graph.Sound ∧ ∀ m ∈ w.graph.multiwords, m.Counts := by
  obtain ⟨block, -, comments, rows, -, hbuild⟩ := exists_block_of_read hread hg
  have hheader := Edit.header_applyAll h
  have hmultiwords : w.graph.multiwords = g.multiwords := congrArg Prod.snd hheader
  refine ⟨(Edit.checkedApplyAll_agrees (sound_of_buildGraph hbuild) es).sound w h, fun m hm => ?_⟩
  exact (exists_row_of_mem_multiwords hbuild (hmultiwords ▸ hm)).1

/-- Whatever edits are applied to a graph that is read, it can be written, and two tokens are given one id exactly if they clash. So no
two of its lines have one id exactly if no tokens clash and no surface words are written with the same ends; and then heads and links
name the governors alone. -/
theorem nodup_ids_iff_of_edits (hread : (read validate text).run.run sink = (.ok graphs, sink')) (hg : g ∈ graphs)
    (h : Edit.applyAll { graph := g, bindings := bindings } es = .ok w) :
    writeGraph? w.graph = .ok (writeGraph w.graph) ∧
      (∀ t ∈ w.graph.tokensInOrder, ∀ u ∈ w.graph.tokensInOrder,
        idOf (idsOf w.graph) t.index = idOf (idsOf w.graph) u.index ↔ t = u ∨ Clash w.graph t u) ∧
      (((writtenLines w.graph).map idColumn).Nodup ↔
        (∀ t ∈ w.graph.tokensInOrder, ∀ u ∈ w.graph.tokensInOrder, ¬ Clash w.graph t u) ∧ w.graph.multiwords.Pairwise fun m m' =>
          ¬ (endOf w.graph m.start = endOf w.graph m'.start ∧ endOf w.graph m.stop = endOf w.graph m'.stop)) ∧
      ∀ t ∈ w.graph.tokensInOrder, RowSays w.graph t := by
  obtain ⟨hsound, hcounts⟩ := sound_of_edits hread hg h
  exact ⟨writeGraph?_eq_ok hsound, fun t ht u hu => idOf_eq_iff hsound ht hu, nodup_idColumns_iff hsound hcounts,
    fun t _ => rowSays hsound t⟩

/-- A sentence in which an elided token stands behind each of two ordinary ones. -/
def twoHosts : String :=
  "1 a _ _ _ _ 0 root 1.1:v|2.1:w _\n1.1 b _ _ _ _ _ _ _ _\n2 c _ _ _ _ 1 y _ _\n2.1 d _ _ _ _ _ _ _ _\n"

/-- The only graph that is read of a text, with some edits, and what holds of it. -/
theorem exists_edited_of_read {P : Graph → Edit.Workspace → Prop} [∀ g, DecidablePred (P g)] {text : String} {bindings : Pattern.Bindings}
    {es : List Edit} (h : ((read false text).run.run {}).1.toOption.map (fun graphs => graphs.map fun g =>
      (Edit.applyAll { graph := g, bindings := bindings } es).toOption.map fun w => decide (P g w)) = some [some true]) :
    ∃ g sink' w, (read false text).run.run {} = (.ok [g], sink') ∧
      Edit.applyAll { graph := g, bindings := bindings } es = .ok w ∧ P g w := by
  obtain ⟨graphs, hread, hgraphs⟩ := exists_ok_of_map_toOption h
  obtain ⟨g, rfl, hg⟩ := List.map_eq_singleton_iff.1 hgraphs
  obtain ⟨w, hw, hP⟩ := exists_ok_of_map_toOption hg
  exact ⟨g, _, w, Prod.ext hread rfl, hw, of_decide_eq_true hP⟩

/-- So it is where a token is added behind a host: its elided token is written behind the new one. -/
theorem nodup_ids_iff_of_addDependent :
    ∃ g sink' w, (read false twoHosts).run.run {} = (.ok [g], sink') ∧
      Edit.applyAll { graph := g, bindings := { nodes := [("x", 2)] } } [.addDependent "x" "z" [("word", "e")] none .one] = .ok w ∧
      (writtenLines w.graph).map idColumn = ["1", "1.1", "2", "3", "3.1"] ∧
      (∀ t ∈ w.graph.tokensInOrder, ∀ u ∈ w.graph.tokensInOrder, ¬ Clash w.graph t u) ∧ ∀ t ∈ w.graph.tokensInOrder, RowSays w.graph t := by
  obtain ⟨g, sink', w, hread, hw, hids⟩ : ∃ g sink' w, (read false twoHosts).run.run {} = (.ok [g], sink') ∧
      Edit.applyAll { graph := g, bindings := { nodes := [("x", 2)] } } [.addDependent "x" "z" [("word", "e")] none .one] = .ok w ∧
      (writtenLines w.graph).map idColumn = ["1", "1.1", "2", "3", "3.1"] := exists_edited_of_read (by decide +kernel)
  obtain ⟨-, -, hnodup, hsays⟩ := nodup_ids_iff_of_edits hread (List.mem_singleton_self g) hw
  exact ⟨g, sink', w, hread, hw, hids, (hnodup.1 (hids ▸ by decide)).1, hsays⟩

/-- Where a host is deleted, its elided token is given the id of the one behind the token before: both links of the first row then name
two tokens, and the sentence is not read back. -/
theorem ids_collide_after_delete :
    ∃ g sink' w, (read false twoHosts).run.run {} = (.ok [g], sink') ∧
      Edit.applyAll { graph := g, bindings := { nodes := [("x", 2)] } } [.delete "x"] = .ok w ∧
      (∃ t ∈ w.graph.tokensInOrder, ∃ u ∈ w.graph.tokensInOrder, t ≠ u ∧ idOf (idsOf w.graph) t.index = idOf (idsOf w.graph) u.index) ∧
      (writtenLines w.graph).map idColumn = ["1", "1.1", "1.1"] ∧
      w.graph.tokensInOrder.map (fun t => (rowOf w.graph (idsOf w.graph) t).deps) = ["1.1:v|1.1:w", "_", "_"] ∧
      ((read false (writeGraph w.graph)).run.run {}).1.toOption = none :=
  exists_edited_of_read (by decide +kernel)

end Edited

end Treebank.Conllu

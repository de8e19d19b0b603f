import Treebank.Proofs.Graph.Writing
import Treebank.Proofs.Match.Likeness

/-!
# Matching and storage

However tokens and edges were added and removed: two graphs that say the same, without edges that differ in weight alone, have the same
matches in the same order, and the same writing and signature (`Graph.storage_unseen`).
-/

namespace Treebank

namespace Matcher

/-- A search from the beginning: why it is refused, or else all matches. -/
def search (p : Pattern) (g : Graph) (initial : List (String × Int)) (o : Overrides) : Except Refusal (List Match) :=
  (ofPattern p g initial o).map all

/-- Searches end alike: they are refused for one reason, or they have the same number of matches, which stand for each other in their
order; `R` says which edges stand for each other. -/
inductive EndsAlike (R : Edge → Edge → Prop) : Except Refusal (List Match) → Except Refusal (List Match) → Prop where
  | refused (r : Refusal) : EndsAlike R (.error r) (.error r)
  | found {ms ns : List Match} (alike : List.Forall₂ (Match.Alike R) ms ns) : EndsAlike R (.ok ms) (.ok ns)

/-- Searches of alike graphs end alike. -/
theorem alike_search {R : Edge → Edge → Prop} {g h : Graph} (hA : Graph.Alike R g h) (p : Pattern) (initial : List (String × Int))
    (o : Overrides) : EndsAlike R (search p g initial o) (search p h initial o) := by
  rcases alike_ofPattern hA p initial o with ⟨r, hg, hh⟩ | ⟨s, s', hs, hg, hh⟩
  · rw [search, search, hg, hh]
    exact .refused r
  · rw [search, search, hg, hh]
    exact .found (alike_all hs p initial)

/-- Where edges stand for themselves alone, alike matches are one match. -/
theorem eq_of_alike {m n : Match} (h : Match.Alike Eq m n) : m = n := by
  obtain ⟨root, nodes, edges⟩ := m
  obtain ⟨root', nodes', edges'⟩ := n
  obtain ⟨hroot, hnodes, hedges⟩ := h
  have hpairs : List.Forall₂ Eq edges edges' := hedges.imp fun x y hxy => Prod.ext hxy.1 hxy.2
  rw [List.forall₂_eq_eq_eq] at hpairs
  simp only at hroot hnodes
  rw [hroot, hnodes, hpairs]

/-- Where edges stand for themselves alone, searches that end alike have one end. -/
theorem EndsAlike.eq {x y : Except Refusal (List Match)} (h : EndsAlike Eq x y) : x = y := by
  cases h with
  | refused r => rfl
  | @found ms ns hms =>
    have heq : List.Forall₂ Eq ms ns := hms.imp fun m n hmn => eq_of_alike hmn
    rw [List.forall₂_eq_eq_eq] at heq
    rw [heq]

end Matcher

namespace Graph

variable {g h : Graph}

/-- Graphs that say the same are alike, equal edges standing for each other, unless edges differ in weight alone. -/
theorem alike_of_content_eq (hg : g.Orderly) (hh : h.Orderly) (hc : g.content = h.content) (hw : g.WeightBlind) :
    Alike (fun a b => a.same b) g h :=
  (alike_of_same hg hh (same_of_content_eq hg hh hc hw) (agrees_of_content_eq hc)).strengthen Edge.outline_of_same
    fun _ ha _ hb e => hw.same_of_outline hc ha hb e

/-- If the stored edges are the same to the sign of a zero, each of them stands for itself. -/
theorem alike_eq_of_edges (hg : g.Orderly) (hA : Alike (fun a b => a.same b) g h) (he : ∀ e, e ∈ g.edges ↔ e ∈ h.edges) :
    Alike Eq g h := by
  refine hA.strengthen (fun hab => congrArg Edge.outline hab) fun a ha b hb hab => ?_
  obtain ⟨c, hcg, hcb⟩ := mem_edges.1 ((he b.edge).2 (mem_edges.2 ⟨b, hb, rfl⟩))
  have hac : a = c := by
    by_contra hne
    have hsymm : Std.Symm fun a b : Arc => ¬ a.edge.same b.edge := ⟨fun a b hn hs => hn ((Edge.same_comm _ _).1 hs)⟩
    exact hg.distinct.forall ha hcg hne (hcb ▸ hab)
  rw [hac, hcb]

/-- However two graphs are stored that have the same tokens, roots and edges, of which none differ in weight alone: every search from
the same bindings ends alike, with the same matches in the same order, which bind equal edges (the very same if the graphs hold the
same ones to the sign of a zero weight); and the graphs have the same compact forms, list form and signature. -/
theorem storage_unseen (hg : g.Orderly) (hh : h.Orderly) (hc : g.content = h.content) (hw : g.WeightBlind) :
    (∀ p initial o, Matcher.EndsAlike (fun a b => a.same b) (Matcher.search p g initial o) (Matcher.search p h initial o)) ∧
      ((∀ e, e ∈ g.edges ↔ e ∈ h.edges) → ∀ p initial o, Matcher.search p g initial o = Matcher.search p h initial o) ∧
      (∀ showTags, g.compact showTags = h.compact showTags) ∧ g.listing = h.listing ∧ g.signature = h.signature := by
  have hA := alike_of_content_eq hg hh hc hw
  have hs := same_of_content_eq hg hh hc hw
  have ht := tokens_eq_of_content_eq hg hh hc
  refine ⟨fun p initial o => Matcher.alike_search hA p initial o, fun he p initial o => ?_, fun showTags => ?_,
    listing_of_same hs ht, eq_of_beq hs⟩
  · exact (Matcher.alike_search (alike_eq_of_edges hg hA he) p initial o).eq
  · exact (alike_of_same hg hh hs (agrees_of_content_eq hc)).compact ht showTags

/-- So it is for a word with two dependents whose edges were added in opposite orders, and so lie in each other's slots. -/
theorem storage_unseen_two_dependents :
    let subject : Edge := { governor := 1, dependent := 0, relation := "nsubj" }
    let object : Edge := { governor := 1, dependent := 2, relation := "obj" }
    let tokens : List (Int × Token) :=
      [(0, { index := 0, word := "Bill" }), (1, { index := 1, word := "ate" }), (2, { index := 2, word := "it" })]
    let g : Graph := { tokens := tokens, arcs := [⟨1, object⟩, ⟨0, subject⟩], fresh := 2, roots := [1] }
    let h : Graph := { tokens := tokens, arcs := [⟨1, subject⟩, ⟨0, object⟩], fresh := 2, roots := [1] }
    g ≠ h ∧ g.Orderly ∧ h.Orderly ∧ g.content = h.content ∧ g.WeightBlind ∧
      (∀ p initial o, Matcher.EndsAlike (fun a b => a.same b) (Matcher.search p g initial o) (Matcher.search p h initial o)) ∧
      ((∀ e, e ∈ g.edges ↔ e ∈ h.edges) → ∀ p initial o, Matcher.search p g initial o = Matcher.search p h initial o) ∧
      (∀ showTags, g.compact showTags = h.compact showTags) ∧ g.listing = h.listing ∧ g.signature = h.signature := by
  intro subject object tokens g h
  have hg : g.Orderly := ⟨by decide, by decide, by decide⟩
  have hh : h.Orderly := ⟨by decide, by decide, by decide⟩
  have hc : g.content = h.content := by
    have hedges : g.content.edges = h.content.edges := by
      ext e
      rw [mem_edges_content, mem_edges_content]
      simp only [g, h, List.mem_cons, List.not_mem_nil, or_false, exists_eq_or_imp, exists_eq_left]
      exact or_comm
    exact congrArg (Content.mk g.content.token · g.content.roots) hedges
  have hw : g.WeightBlind := by
    unfold WeightBlind
    decide
  exact ⟨by decide, hg, hh, hc, hw, storage_unseen hg hh hc hw⟩

end Graph

end Treebank

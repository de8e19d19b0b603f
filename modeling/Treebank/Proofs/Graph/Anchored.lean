import Treebank.Graph.CompactReader
import Treebank.Proofs.Checked.Change
import Treebank.Proofs.Graph.Shape

/-!
# Anchored graphs

While a text in compact form is read, every token that is made is attached at once: it becomes a root, or hangs from a token that was
made before. So in each graph on the way, plain edges of weight one lead from the roots to every token, and there are no other edges
(`Anchored.attach_vertex`). A report names no such graph for its roots, or for tokens that are not reached.
-/

open Relation

namespace Treebank.Graph

/-- A graph in which plain edges of weight one lead from the roots to every token. -/
structure Anchored (g : Graph) : Prop where
  sound : g.Sound
  /-- There are no other edges. -/
  plain : ∀ a ∈ g.arcs, a.edge.extra = false ∧ a.edge.weight = .one
  reached : ∀ i ∈ g.indices, ∃ r ∈ g.roots, ReflTransGen g.Governs r i

variable {g g' : Graph} {index : Int}

/-- A way over plain edges stays one when edges are added. -/
theorem governs_mono (harcs : g.arcs ⊆ g'.arcs) : g.Governs ≤ g'.Governs := by
  rintro i j ⟨a, ha, hedge⟩
  exact ⟨a, harcs ha, hedge⟩

/-- What is reached stays so when roots and edges are added. -/
theorem Anchored.reached_of_subset (h : g.Anchored) (harcs : g.arcs ⊆ g'.arcs) (hroots : g.roots ⊆ g'.roots) (hi : index ∈ g.indices) :
    ∃ r ∈ g'.roots, ReflTransGen g'.Governs r index := by
  obtain ⟨r, hr, hway⟩ := h.reached index hi
  exact ⟨r, hroots hr, ReflTransGen.mono (governs_mono harcs) _ _ hway⟩

/-- The token that a label means is there afterwards, with the tokens from before; nothing else changes. -/
theorem Sound.vertex (h : g.Sound) (label : List Char) :
    (g.vertex label).1.Sound ∧ (g.vertex label).1.arcs = g.arcs ∧ (g.vertex label).1.roots = g.roots ∧
      ∀ i, i ∈ (g.vertex label).1.indices ↔ i = (g.vertex label).2 ∨ i ∈ g.indices := by
  obtain ⟨t, hvertex, hindex⟩ : ∃ t : Token, (g.vertex label).1 = g.withToken t ∧ (g.vertex label).2 = t.index := ⟨_, rfl, rfl⟩
  rw [hvertex, hindex]
  cases hadd : g.addToken t with
  | error e =>
    -- The index has its token already, which is the one that is meant.
    have hwith : g.withToken t = g := by rw [Graph.withToken, hadd]; rfl
    have hhas : g.hasToken t.index := by
      by_contra hno
      rw [Graph.addToken, if_neg hno] at hadd
      cases hadd
    rw [hwith]
    refine ⟨h, rfl, rfl, fun i => ⟨.inr, ?_⟩⟩
    rintro (rfl | hi)
    · exact hasToken_iff.1 hhas
    · exact hi
  | ok g' =>
    obtain ⟨hnew, rfl⟩ := addToken_eq_ok hadd
    obtain ⟨hok, hsound, hhas⟩ := addToken_succeeds h hnew
    have hwith : g.withToken t = { g with tokens := putEntry t.index t g.tokens } := Except.ok.inj (hok.symm.trans hadd)
    refine ⟨hsound, by rw [hwith], by rw [hwith], fun i => ?_⟩
    rw [← hasToken_iff, hhas, hasToken_iff]

/-- An edge that is added between tokens is there afterwards, with the edges from before; nothing else changes. -/
theorem Sound.arcs_withEdge (h : g.Sound) {e : Edge} (hgovernor : g.hasToken e.governor) (hdependent : g.hasToken e.dependent) :
    (g.withEdge e).roots = g.roots ∧ g.arcs ⊆ (g.withEdge e).arcs ∧ (∀ a ∈ (g.withEdge e).arcs, a ∈ g.arcs ∨ a.edge = e) ∧
      ∃ a ∈ (g.withEdge e).arcs, a.edge.same e := by
  have hnew : ∀ {slot : Nat}, ∀ a ∈ (⟨slot, e⟩ : Arc) :: g.arcs, a ∈ g.arcs ∨ a.edge = e := by
    intro slot a ha
    rcases List.mem_cons.1 ha with rfl | ha
    · exact .inr rfl
    · exact .inl ha
  obtain ⟨-, -, ⟨hthere, hwith⟩ | ⟨-, ⟨slot, free, -, hwith⟩ | ⟨-, hwith⟩⟩⟩ := addEdge_eq_ok (addEdge_succeeds h hgovernor hdependent).1
  · obtain ⟨a, ha, hs⟩ := List.any_eq_true.1 hthere
    rw [hwith]
    exact ⟨rfl, List.Subset.refl _, fun a ha => .inl ha, a, ha, hs⟩
  · rw [hwith]
    exact ⟨rfl, List.subset_cons_self _ _, hnew, _, List.mem_cons_self .., Edge.same_refl e⟩
  · rw [hwith]
    exact ⟨rfl, List.subset_cons_self _ _, hnew, _, List.mem_cons_self .., Edge.same_refl e⟩

/-- Attaches a token; what it is attached to has to be there. -/
def checkedAttach (g : Graph) (index : Int) : Attachment → Except GraphError Graph
  | none => g.addRoot index
  | some (governor, relation) => g.addEdge { governor := governor, dependent := index, relation := relation }

/-- What attaching a token makes of a graph. -/
structure Attached (g : Graph) (index : Int) (place : Attachment) (g' : Graph) : Prop where
  sound : g'.Sound
  tokens : g'.tokens = g.tokens
  arcs : g.arcs ⊆ g'.arcs
  roots : g.roots ⊆ g'.roots
  plain : ∀ a ∈ g'.arcs, a ∈ g.arcs ∨ a.edge.extra = false ∧ a.edge.weight = .one
  /-- The token is a root, or hangs from its governor. -/
  held : index ∈ g'.roots ∨ ∃ p ∈ place, g'.Governs p.1 index

/-- A token of a graph is attached to another one, or becomes a root. -/
theorem Sound.attach (h : g.Sound) (hi : index ∈ g.indices) {place : Attachment} (hplace : ∀ p ∈ place, p.1 ∈ g.indices) :
    g.checkedAttach index place = .ok (g.attach index place) ∧ Attached g index place (g.attach index place) := by
  cases place with
  | none =>
    have hok : g.addRoot index = .ok { g with roots := Order.add index g.roots } := if_pos (hasToken_iff.2 hi)
    have hwith : g.attach index none = { g with roots := Order.add index g.roots } := by
      rw [Graph.attach, Graph.withRoot, hok]
      rfl
    rw [hwith]
    exact ⟨hok, h.addRoot hok, rfl, List.Subset.refl _, fun i hi => Order.mem_add.2 (.inr hi), fun a ha => .inl ha,
      .inl (Order.mem_add.2 (.inl rfl))⟩
  | some p =>
    obtain ⟨governor, relation⟩ := p
    let e : Edge := { governor := governor, dependent := index, relation := relation }
    have hgovernor : g.hasToken e.governor := hasToken_iff.2 (hplace _ rfl)
    have hdependent : g.hasToken e.dependent := hasToken_iff.2 hi
    obtain ⟨hok, hsound⟩ := addEdge_succeeds h hgovernor hdependent
    obtain ⟨hroots, harcs, hnew, a, ha, hs⟩ := h.arcs_withEdge hgovernor hdependent
    have hplain : ∀ b ∈ (g.withEdge e).arcs, b ∈ g.arcs ∨ b.edge.extra = false ∧ b.edge.weight = .one := by
      intro b hb
      rcases hnew b hb with hb | hb
      · exact .inl hb
      · rw [hb]
        exact .inr ⟨rfl, rfl⟩
    have hgoverns : (g.withEdge e).Governs governor index :=
      ⟨a, ha, (Edge.labels_of_same hs).2, (Edge.ends_of_same hs).1, (Edge.ends_of_same hs).2⟩
    exact ⟨hok, hsound, tokens_withEdge g e, harcs, hroots.symm ▸ List.Subset.refl _, hplain, .inr ⟨_, rfl, hgoverns⟩⟩

/-- Making the token that a label means and attaching it to a token of the graph keeps the graph anchored; the token is there
afterwards, with those from before. -/
theorem Anchored.attach_vertex (h : g.Anchored) (label : List Char) {place : Attachment} (hplace : ∀ p ∈ place, p.1 ∈ g.indices) :
    (g.vertex label).1.checkedAttach (g.vertex label).2 place = .ok ((g.vertex label).1.attach (g.vertex label).2 place) ∧
      ((g.vertex label).1.attach (g.vertex label).2 place).Anchored ∧
      ∀ i, i ∈ ((g.vertex label).1.attach (g.vertex label).2 place).indices ↔ i = (g.vertex label).2 ∨ i ∈ g.indices := by
  obtain ⟨hsound, hsameArcs, hsameRoots, hindices⟩ := h.sound.vertex label
  have hplace' : ∀ p ∈ place, p.1 ∈ (g.vertex label).1.indices := fun p hp => (hindices p.1).2 (.inr (hplace p hp))
  obtain ⟨hok, hattached⟩ := hsound.attach ((hindices _).2 (.inl rfl)) hplace'
  generalize (g.vertex label).1.attach (g.vertex label).2 place = g' at hok hattached ⊢
  have harcs : g.arcs ⊆ g'.arcs := hsameArcs ▸ hattached.arcs
  have hroots : g.roots ⊆ g'.roots := hsameRoots ▸ hattached.roots
  have hindices' : ∀ i, i ∈ g'.indices ↔ i = (g.vertex label).2 ∨ i ∈ g.indices := by
    intro i
    rw [← hindices, indices, hattached.tokens, indices]
  have hplain : ∀ a ∈ g'.arcs, a.edge.extra = false ∧ a.edge.weight = .one := by
    intro a ha
    rcases hattached.plain a ha with ha | ha
    · exact h.plain a (hsameArcs ▸ ha)
    · exact ha
  refine ⟨hok, ⟨hattached.sound, hplain, fun i hi => ?_⟩, hindices'⟩
  rcases (hindices' i).1 hi with rfl | hi
  · rcases hattached.held with hroot | ⟨p, hp, hgoverns⟩
    · exact ⟨_, hroot, .refl⟩
    · obtain ⟨r, hr, hway⟩ := h.reached_of_subset harcs hroots (hplace p hp)
      exact ⟨r, hr, hway.tail hgoverns⟩
  · exact h.reached_of_subset harcs hroots hi

end Treebank.Graph

import Treebank.Proofs.Graph.Removal
import Treebank.Proofs.Match.Walk

/-!
# Killing what no root reaches

To kill the tokens that are neither roots nor reached from one, over any edges, leaves what the roots reach, as it was
(`killNonRootedNodes_keeps`). Where an edge leads from a token that is left, it leads to one that is left, so it stays, and so does every
way from a root: the tokens are reached without those that went, too (`Kept.reaches`), and a second time there is nothing to kill.
-/

open Relation

namespace Treebank.Graph

open Scope (Direction)

variable {g g' : Graph} {i j r : Int}

/-! ## What roots reach -/

/-- Whether an index is a root or is reached from one over any edges. -/
def Rooted (g : Graph) (i : Int) : Prop := ∃ r ∈ g.roots, g.Reaches .down r i

/-- A root is rooted. -/
theorem rooted_of_mem_roots (h : r ∈ g.roots) : g.Rooted r := ⟨r, h, .refl⟩

/-- Where an edge leads from something rooted is rooted. -/
theorem Rooted.follow (h : g.Rooted i) (hstep : g.Follows .down i j) : g.Rooted j := by
  obtain ⟨r, hr, hway⟩ := h
  exact ⟨r, hr, hway.tail hstep⟩

/-- In a sound graph only tokens are rooted. -/
theorem Sound.hasToken_of_rooted (hg : g.Sound) (h : g.Rooted i) : g.hasToken i := by
  obtain ⟨r, hr, hway⟩ := h
  rcases hway.cases_tail with rfl | ⟨j, -, hstep⟩
  · exact hg.roots _ hr
  · exact hasToken_iff.2 (hg.mem_indices_of_follows hstep)

theorem mem_successors : j ∈ g.successors i ↔ g.Follows .down i j := mem_map_far (d := .down)

/-- The sweep from the roots finds what is rooted. -/
theorem Sound.mem_rooted (hg : g.Sound) : i ∈ g.rooted ↔ g.Rooted i := by
  unfold rooted Rooted Reaches
  rw [mem_reachedFrom_iff fun i j hj => hg.mem_indices_of_follows (mem_successors.1 hj)]
  simp only [mem_successors]

/-! ## What is left -/

/-- What is left of a graph of which only what is rooted is kept. -/
structure Kept (g g' : Graph) : Prop where
  /-- The tokens are the rooted ones, as they were. -/
  tokens : ∀ i t, (i, t) ∈ g'.tokens ↔ (i, t) ∈ g.tokens ∧ g.Rooted i
  /-- The edges, in their slots and in their order, are those whose governor is left. -/
  arcs : g'.arcs = g.arcs.filter fun a => g'.hasToken a.edge.governor
  /-- The roots are as they were. -/
  roots : g'.roots = g.roots
  /-- Comments and surface words are as they were. -/
  header : g'.header = g.header

/-- Where the rooted tokens are left, an index has a token exactly if it is rooted. -/
theorem Sound.hasToken_iff_rooted (hg : g.Sound) (htokens : ∀ i t, (i, t) ∈ g'.tokens ↔ (i, t) ∈ g.tokens ∧ g.Rooted i) :
    g'.hasToken i ↔ g.Rooted i := by
  rw [hasToken_iff]
  constructor
  · intro hi
    obtain ⟨⟨k, t⟩, ht, rfl⟩ := List.mem_map.1 hi
    exact ((htokens k t).1 ht).2
  · intro hi
    obtain ⟨⟨k, t⟩, ht, rfl⟩ := List.mem_map.1 (hasToken_iff.1 (hg.hasToken_of_rooted hi))
    exact List.mem_map_of_mem ((htokens k t).2 ⟨ht, hi⟩)

/-- An edge from a rooted token stays. -/
theorem Kept.follows (h : g.Kept g') (hg : g.Sound) (hi : g.Rooted i) (hstep : g.Follows .down i j) : g'.Follows .down i j := by
  obtain ⟨e, he, rfl, rfl⟩ := hstep
  obtain ⟨a, ha, rfl⟩ := mem_edges.1 he
  refine ⟨a.edge, mem_edges.2 ⟨a, ?_, rfl⟩, rfl, rfl⟩
  rw [h.arcs]
  exact List.mem_filter.2 ⟨ha, (hg.hasToken_iff_rooted h.tokens).2 hi⟩

/-- Every way from a root stays. -/
theorem Kept.reaches (h : g.Kept g') (hg : g.Sound) (hr : r ∈ g.roots) (hway : g.Reaches .down r i) : g'.Reaches .down r i := by
  induction hway with
  | refl => exact .refl
  | tail hway hstep ih => exact ih.tail (h.follows hg ⟨r, hr, hway⟩ hstep)

/-- What is left is rooted in what is left. -/
theorem Kept.rooted (h : g.Kept g') (hg : g.Sound) (hi : g'.hasToken i) : g'.Rooted i := by
  obtain ⟨r, hr, hway⟩ := (hg.hasToken_iff_rooted h.tokens).1 hi
  exact ⟨r, h.roots ▸ hr, h.reaches hg hr hway⟩

/-- The tokens that are not rooted, ascending. -/
def unrooted (g : Graph) : List Int := g.indices.filter (! g.rooted.contains ·)

/-- A token is not among those that are not rooted exactly if it is rooted. -/
theorem Sound.contains_unrooted (hg : g.Sound) (hi : g.hasToken i) : (!g.unrooted.contains i) = true ↔ g.Rooted i := by
  rw [← hg.mem_rooted]
  simp [unrooted, hasToken_iff.1 hi]

/-- What is left when the tokens that are not rooted are removed one after the other. -/
theorem Sound.kept (hg : g.Sound) : (g.withoutTokens g.unrooted).Sound ∧ g.Kept (g.withoutTokens g.unrooted) := by
  obtain ⟨hsound, free, heq⟩ := hg.withoutTokens_eq g.unrooted
  have htokens : ∀ i t, (i, t) ∈ (g.withoutTokens g.unrooted).tokens ↔ (i, t) ∈ g.tokens ∧ g.Rooted i := by
    intro i t
    rw [heq, List.mem_filter]
    exact and_congr_right fun ht => hg.contains_unrooted (hasToken_iff.2 (List.mem_map_of_mem ht))
  refine ⟨hsound, htokens, ?_, ?_, header_withoutTokens g _⟩
  · have hleft : (g.withoutTokens g.unrooted).arcs = g.arcs.filter fun a =>
        !g.unrooted.contains a.edge.governor && !g.unrooted.contains a.edge.dependent := by rw [heq]
    rw [hleft]
    refine List.filter_congr fun a ha => Bool.eq_iff_iff.2 ?_
    rw [Bool.and_eq_true, hg.contains_unrooted (hg.ends a ha).1, hg.contains_unrooted (hg.ends a ha).2, hg.hasToken_iff_rooted htokens]
    exact and_iff_left_of_imp fun h => h.follow ⟨a.edge, mem_edges.2 ⟨a, ha, rfl⟩, rfl, rfl⟩
  · rw [heq]
    exact List.filter_eq_self.2 fun r hr => (hg.contains_unrooted (hg.roots r hr)).2 (rooted_of_mem_roots hr)

/-- If every token is rooted, then none is removed. -/
theorem Sound.unrooted_eq_nil (hg : g.Sound) (hrooted : ∀ i, g.hasToken i → g.Rooted i) : g.unrooted = [] := by
  refine List.filter_eq_nil_iff.2 fun i hi h => ?_
  have hi := hg.mem_rooted.2 (hrooted i (hasToken_iff.2 hi))
  simp [hi] at h

end Treebank.Graph

namespace Treebank.Edit

open Treebank.Graph

variable {w : Workspace}

/-- The tokens that are not rooted are removed one after the other. -/
theorem apply_killNonRootedNodes (w : Workspace) :
    killNonRootedNodes.apply w = .ok (w.over (w.graph.withoutTokens w.graph.unrooted)) := rfl

/-- Killing what no root reaches succeeds. It leaves the tokens that are roots or are reached from one over any edges, with the edges that
lead from them, and the roots. Every token that is left is reached from a root in what is left, so a second time nothing changes. -/
theorem killNonRootedNodes_keeps (hw : w.graph.Sound) :
    ∃ g', killNonRootedNodes.apply w = .ok (w.over g') ∧ g'.Sound ∧ w.graph.Kept g' ∧ (∀ i, g'.hasToken i → g'.Rooted i) ∧
      killNonRootedNodes.apply (w.over g') = .ok (w.over g') := by
  obtain ⟨hsound, hkept⟩ := hw.kept
  have happly := apply_killNonRootedNodes w
  generalize w.graph.withoutTokens w.graph.unrooted = g' at hsound hkept happly
  have hrooted : ∀ i, g'.hasToken i → g'.Rooted i := fun i => hkept.rooted hw
  refine ⟨g', happly, hsound, hkept, hrooted, ?_⟩
  have hnone : (w.over g').graph.unrooted = [] := hsound.unrooted_eq_nil hrooted
  rw [apply_killNonRootedNodes, hnone]
  rfl

/-- So it is where a cycle is reached over an enhanced edge alone, and where what is not reached leads to what is. -/
theorem killNonRootedNodes_keeps_cycle :
    let w : Workspace :=
      { graph :=
          { tokens := [(0, { index := 0 }), (1, { index := 1 }), (2, { index := 2 }), (3, { index := 3 }), (4, { index := 4 })]
            arcs := [⟨4, ⟨4, 3, "d", .one, false⟩⟩, ⟨3, ⟨3, 2, "c", .one, false⟩⟩, ⟨2, ⟨2, 1, "b", .one, false⟩⟩,
              ⟨1, ⟨1, 2, "b", .one, false⟩⟩, ⟨0, ⟨0, 1, "a", .one, true⟩⟩]
            fresh := 5
            roots := [0] }
        bindings := { nodes := [("x", 3)] } }
    ∃ g', killNonRootedNodes.apply w = .ok (w.over g') ∧ g'.Sound ∧ w.graph.Kept g' ∧ (∀ i, g'.hasToken i → g'.Rooted i) ∧
      killNonRootedNodes.apply (w.over g') = .ok (w.over g') ∧ g'.indices = [0, 1, 2] ∧
      g'.arcs = [⟨2, ⟨2, 1, "b", .one, false⟩⟩, ⟨1, ⟨1, 2, "b", .one, false⟩⟩, ⟨0, ⟨0, 1, "a", .one, true⟩⟩] := by
  intro w
  have hw : w.graph.Sound :=
    (sound_empty.run [.addToken { index := 0 }, .addToken { index := 1 }, .addToken { index := 2 }, .addToken { index := 3 },
      .addToken { index := 4 }, .addEdge ⟨0, 1, "a", .one, true⟩, .addEdge ⟨1, 2, "b", .one, false⟩,
      .addEdge ⟨2, 1, "b", .one, false⟩, .addEdge ⟨3, 2, "c", .one, false⟩, .addEdge ⟨4, 3, "d", .one, false⟩, .setRoots [0]]).1
  obtain ⟨g', happly, hsound, hkept, hrooted, hagain⟩ := killNonRootedNodes_keeps hw
  have hresult : (killNonRootedNodes.apply w).toOption.map (fun w' => (w'.graph.indices, w'.graph.arcs)) =
      some ([0, 1, 2], [⟨2, ⟨2, 1, "b", .one, false⟩⟩, ⟨1, ⟨1, 2, "b", .one, false⟩⟩, ⟨0, ⟨0, 1, "a", .one, true⟩⟩]) := by
    decide +kernel
  rw [happly] at hresult
  obtain ⟨hindices, harcs⟩ := Prod.mk.inj (Option.some.inj hresult)
  exact ⟨g', happly, hsound, hkept, hrooted, hagain, hindices, harcs⟩

end Treebank.Edit

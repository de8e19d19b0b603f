import Treebank.Proofs.Graph.Content
import Treebank.Proofs.Graph.Removal

/-!
# Deleting a subtree

To delete a token is to take its subtree away, whatever the plain edges are like, and nothing else (`delete_prunes`). In a well-shaped
graph some root is left, unless nothing is left that was a root or that may become one (`rootless_after_delete_iff`). Elided tokens may not,
so what hangs from a subtree by an enhanced edge can be left without a root (`rootless_beside_subtree`).
-/

open Treebank.Graph

namespace Treebank.Edit

variable {w : Workspace} {node : String} {top : Int}

/-- To delete a token that is bound to a name is to prune the graph. -/
theorem apply_delete (hbound : w.bindings.nodes.lookup node = some top) (htop : w.graph.hasToken top) :
    (delete node).apply w = .ok (w.over (w.graph.withoutTokens (w.graph.subtree top)).resetRoots) := by
  have hnode : w.node node = .ok top := by
    unfold Workspace.node
    simp only [hbound, htop, if_true]
  rw [apply, hnode]
  rfl

/-- Deleting a bound token succeeds. The tokens that are left, as they were, are those to which no plain edges lead from it, the edges
that are left are those between such tokens, and the roots are the ordinary tokens without a plain edge to them or, if there is none, the
old roots that are left. -/
theorem delete_prunes (hw : w.graph.Sound) (hbound : w.bindings.nodes.lookup node = some top) (htop : w.graph.hasToken top) :
    ∃ g', (delete node).apply w = .ok (w.over g') ∧ g'.Sound ∧ Pruned w.graph top g' :=
  ⟨_, apply_delete hbound htop, hw.pruned top⟩

/-- So it is where the subtree holds a cycle, and a token of it has another governor and leads to a token that is left. -/
theorem delete_prunes_cycle :
    let w : Workspace :=
      { graph :=
          { tokens := [(0, { index := 0 }), (1, { index := 1 }), (2, { index := 2 }), (3, { index := 3 }), (4, { index := 4 })]
            arcs := [⟨5, ⟨2, 4, "e", .one, true⟩⟩, ⟨4, ⟨3, 4, "d", .one, false⟩⟩, ⟨3, ⟨3, 2, "c", .one, false⟩⟩,
              ⟨2, ⟨2, 1, "b", .one, false⟩⟩, ⟨1, ⟨1, 2, "b", .one, false⟩⟩, ⟨0, ⟨0, 1, "a", .one, false⟩⟩]
            fresh := 6
            roots := [0] }
        bindings := { nodes := [("x", 1)] } }
    ∃ g', (delete "x").apply w = .ok (w.over g') ∧ g'.Sound ∧ Pruned w.graph 1 g' ∧
      g'.indices = [0, 3, 4] ∧ g'.arcs = [⟨4, ⟨3, 4, "d", .one, false⟩⟩] ∧ g'.roots = [0, 3] := by
  intro w
  have hw : w.graph.Sound :=
    (sound_empty.run [.addToken { index := 0 }, .addToken { index := 1 }, .addToken { index := 2 }, .addToken { index := 3 },
      .addToken { index := 4 }, .addEdge ⟨0, 1, "a", .one, false⟩, .addEdge ⟨1, 2, "b", .one, false⟩,
      .addEdge ⟨2, 1, "b", .one, false⟩, .addEdge ⟨3, 2, "c", .one, false⟩, .addEdge ⟨3, 4, "d", .one, false⟩,
      .addEdge ⟨2, 4, "e", .one, true⟩, .setRoots [0]]).1
  have hbound : w.bindings.nodes.lookup "x" = some 1 := rfl
  obtain ⟨g', happly, hsound, hpruned⟩ := delete_prunes hw hbound rfl
  have hresult : ((delete "x").apply w).toOption.map (fun w' => (w'.graph.indices, w'.graph.arcs, w'.graph.roots)) =
      some ([0, 3, 4], [⟨4, ⟨3, 4, "d", .one, false⟩⟩], [0, 3]) := by decide +kernel
  rw [happly] at hresult
  obtain ⟨hindices, hrest⟩ := Prod.mk.inj (Option.some.inj hresult)
  obtain ⟨harcs, hroots⟩ := Prod.mk.inj hrest
  exact ⟨g', happly, hsound, hpruned, hindices, harcs, hroots⟩

/-! ## Roots -/

/-- Deleting a bound token of a well-shaped graph leaves no root exactly if it leaves neither an ordinary token nor an old root. -/
theorem rootless_after_delete_iff (hw : w.graph.Sound) (hvalid : w.graph.report.valid)
    (hbound : w.bindings.nodes.lookup node = some top) (htop : w.graph.hasToken top) :
    ∃ g', (delete node).apply w = .ok (w.over g') ∧
      (g'.roots = [] ↔ (∀ p ∈ g'.tokens, p.2.isEmptyNode) ∧ ∀ r ∈ w.graph.roots, ¬ g'.hasToken r) := by
  obtain ⟨hsound, hpruned⟩ := hw.pruned top
  refine ⟨_, apply_delete hbound htop, ?_⟩
  generalize (w.graph.withoutTokens (w.graph.subtree top)).resetRoots = g' at hsound hpruned ⊢
  have hshape : w.graph.WellShaped := (report_valid_iff hw).1 hvalid
  constructor
  · intro hnone
    have hno : ∀ r, r ∉ g'.roots := List.eq_nil_iff_forall_not_mem.1 hnone
    have helided : ∀ p ∈ g'.tokens, p.2.isEmptyNode := by
      rintro ⟨i, t⟩ ht
      by_contra hordinary
      obtain ⟨r, hr⟩ :=
        hpruned.exists_root ht (hshape.reached i t ((hpruned.tokens i t).1 ht).1 (Bool.eq_false_iff.2 hordinary))
      exact hno r hr
    refine ⟨helided, fun r hr hleft => ?_⟩
    obtain ⟨⟨i, t⟩, ht, rfl⟩ := List.mem_map.1 (hasToken_iff.1 hleft)
    obtain ⟨r, hr⟩ := hpruned.exists_root ht ⟨_, hr, .refl⟩
    exact hno r hr
  · rintro ⟨helided, hgone⟩
    refine List.eq_nil_iff_forall_not_mem.2 fun r hr => ?_
    rcases (hpruned.roots r).1 hr with ⟨t, ht, hordinary, -⟩ | ⟨-, hold, -⟩
    · rw [helided (r, t) ht] at hordinary
      cases hordinary
    · exact hgone r hold (hsound.roots r hr)

/-- An elided token that was a root stays one. -/
theorem rootless_after_delete_iff_elided_root :
    let w : Workspace :=
      { graph := { tokens := [(0, { index := 0 }), (1, { index := 1, emptyIndex := 1 })], roots := [0, 1] }
        bindings := { nodes := [("x", 0)] } }
    ∃ g', (delete "x").apply w = .ok (w.over g') ∧
      (g'.roots = [] ↔ (∀ p ∈ g'.tokens, p.2.isEmptyNode) ∧ ∀ r ∈ w.graph.roots, ¬ g'.hasToken r) ∧ g'.roots = [1] := by
  intro w
  have hw : w.graph.Sound :=
    (sound_empty.run [.addToken { index := 0 }, .addToken { index := 1, emptyIndex := 1 }, .setRoots [0, 1]]).1
  have hbound : w.bindings.nodes.lookup "x" = some 0 := rfl
  obtain ⟨g', happly, hiff⟩ := rootless_after_delete_iff hw (by decide +kernel) hbound rfl
  have hroots : ((delete "x").apply w).toOption.map (·.graph.roots) = some [1] := by decide +kernel
  rw [happly] at hroots
  exact ⟨g', happly, hiff, Option.some.inj hroots⟩

/-- An elided token that hangs from the only root is left alone, and without a root, though the report was valid. -/
theorem rootless_beside_subtree :
    let t : Token := { index := 2, position := 1, emptyIndex := 1 }
    let w : Workspace :=
      { graph :=
          { tokens := [(1, { index := 1, position := 1 }), (2, t)]
            arcs := [⟨0, ⟨1, 2, "v", .one, true⟩⟩]
            fresh := 1
            roots := [1] }
        bindings := { nodes := [("x", 1)] } }
    w.graph.Sound ∧ w.graph.report.valid ∧ w.bindings.nodes.lookup "x" = some 1 ∧ w.graph.hasToken 1 ∧
      (delete "x").apply w = .ok (w.over { tokens := [(2, t)], free := [0], fresh := 1 }) ∧
      ∀ g', (delete "x").apply w = .ok (w.over g') → ¬ (g'.tokens = [] ∨ g'.roots ≠ []) := by
  intro t w
  have hw : w.graph.Sound :=
    (sound_empty.run [.addToken { index := 1, position := 1 }, .addToken t, .addEdge ⟨1, 2, "v", .one, true⟩, .setRoots [1]]).1
  have happly : (delete "x").apply w = .ok (w.over { tokens := [(2, t)], free := [0], fresh := 1 }) := by decide +kernel
  refine ⟨hw, by decide +kernel, rfl, rfl, happly, fun g' h => ?_⟩
  rw [happly] at h
  cases h
  rintro (htokens | hroots)
  · cases htokens
  · exact hroots rfl

end Treebank.Edit

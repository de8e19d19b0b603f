import Treebank.Proofs.Checked.Change
import Treebank.Proofs.Edit.Apply
import Treebank.Proofs.Graph.Shape

/-!
# Graphs without a subtree

What is left of a graph from which tokens are taken away one after the other: the other tokens, the edges between them, and the roots
among them (`Sound.withoutTokens_eq`). A subtree is what plain edges lead to from its top (`Sound.mem_subtree`), however they run: in
cycles, or together again. What is left without it is described by `Pruned`, with the roots that are found anew (`Sound.pruned`). A token
that is left and was reached from a root does not stay without a root beside it (`Pruned.exists_root`).
-/

open Relation

namespace Treebank.Graph

variable {g g' : Graph} {i top : Int}

/-! ## Graphs without tokens -/

/-- What is left of a sound graph without a token. -/
theorem Sound.withoutToken_eq (hg : g.Sound) (index : Int) :
    (g.withoutToken index).Sound ∧ ∃ free, g.withoutToken index = { g with
      tokens := g.tokens.filter (·.1 != index)
      arcs := g.arcs.filter fun a => a.edge.governor != index && a.edge.dependent != index
      free := free
      roots := g.roots.filter (· != index) } := by
  by_cases hi : g.hasToken index
  · obtain ⟨hok, hsound, -⟩ := removeToken_succeeds hg hi
    exact ⟨hsound, _, (hg.removeToken_eq_ok hok).2⟩
  · -- Nothing has to do with a token that is not there.
    have hfails : g.withoutToken index = g := by
      rw [withoutToken, removeToken_eq, if_neg hi]
      rfl
    have hne : ∀ {j}, g.hasToken j → (j != index) = true := fun hj => bne_iff_ne.2 fun e => hi (e ▸ hj)
    have htokens : g.tokens.filter (·.1 != index) = g.tokens :=
      List.filter_eq_self.2 fun p hp => hne (hasToken_iff.2 (List.mem_map_of_mem hp))
    have harcs : (g.arcs.filter fun a => a.edge.governor != index && a.edge.dependent != index) = g.arcs :=
      List.filter_eq_self.2 fun a ha => by rw [hne (hg.ends a ha).1, hne (hg.ends a ha).2]; rfl
    have hroots : g.roots.filter (· != index) = g.roots := List.filter_eq_self.2 fun r hr => hne (hg.roots r hr)
    rw [hfails, htokens, harcs, hroots]
    exact ⟨hg, g.free, rfl⟩

/-- What is left of a sound graph without some tokens. -/
theorem Sound.withoutTokens_eq (hg : g.Sound) (indices : List Int) :
    (g.withoutTokens indices).Sound ∧ ∃ free, g.withoutTokens indices = { g with
      tokens := g.tokens.filter fun p => !indices.contains p.1
      arcs := g.arcs.filter fun a => !indices.contains a.edge.governor && !indices.contains a.edge.dependent
      free := free
      roots := g.roots.filter fun r => !indices.contains r } := by
  induction indices generalizing g with
  | nil => exact ⟨hg, g.free, by simp [withoutTokens]⟩
  | cons index indices ih =>
    obtain ⟨hsound, free, heq⟩ := hg.withoutToken_eq index
    obtain ⟨hsound', free', heq'⟩ := ih hsound
    refine ⟨hsound', free', ?_⟩
    rw [show g.withoutTokens (index :: indices) = (g.withoutToken index).withoutTokens indices from rfl, heq', heq]
    simp only [List.filter_filter, List.contains_cons, Bool.not_or, bne, Bool.and_assoc, Bool.and_comm, Bool.and_left_comm]

/-! ## Roots found anew -/

/-- Whether an index has an ordinary token to which no plain edge leads. -/
def Ungoverned (g : Graph) (i : Int) : Prop := ∃ t, (i, t) ∈ g.tokens ∧ t.isEmptyNode = false ∧ ∀ j, ¬ g.Governs j i

/-- When the roots are found anew, they are the ungoverned tokens, or the old roots if there is none. -/
theorem mem_roots_resetRoots :
    i ∈ g.resetRoots.roots ↔ g.resetRoots.Ungoverned i ∨ (∀ j, ¬ g.resetRoots.Ungoverned j) ∧ i ∈ g.roots := by
  have hungoverned : ∀ {j}, g.resetRoots.Ungoverned j ↔ j ∈ g.headless := by
    intro j
    unfold Ungoverned Governs
    rw [tokens_resetRoots, arcs_resetRoots]
    exact mem_headless.symm
  simp only [hungoverned]
  unfold resetRoots
  split
  · rename_i hnone
    simp [List.isEmpty_iff.1 hnone]
  · rename_i hsome
    obtain ⟨j, hj⟩ := List.exists_mem_of_ne_nil _ fun h => hsome (List.isEmpty_iff.2 h)
    exact ⟨.inl, fun h => h.resolve_right fun ⟨hno, _⟩ => hno j hj⟩

/-! ## Subtrees -/

/-- A subtree is what plain edges lead to from its top. -/
theorem Sound.mem_subtree (hg : g.Sound) : i ∈ g.subtree top ↔ ReflTransGen g.Governs top i := by
  rw [subtree, hg.mem_reachedFrom_plainSuccessors]
  simp

/-- What is left of a graph without the subtree of a token, where the roots are found anew. -/
structure Pruned (g : Graph) (top : Int) (g' : Graph) : Prop where
  /-- The tokens are those to which no plain edges lead from the top. -/
  tokens : ∀ i t, (i, t) ∈ g'.tokens ↔ (i, t) ∈ g.tokens ∧ ¬ ReflTransGen g.Governs top i
  /-- The edges are those between tokens that are left. -/
  arcs : ∀ a, a ∈ g'.arcs ↔
    a ∈ g.arcs ∧ ¬ ReflTransGen g.Governs top a.edge.governor ∧ ¬ ReflTransGen g.Governs top a.edge.dependent
  /-- The roots are the ordinary tokens without a plain edge to them; if there is none, the old roots that are left. -/
  roots : ∀ i, i ∈ g'.roots ↔
    g'.Ungoverned i ∨ (∀ j, ¬ g'.Ungoverned j) ∧ i ∈ g.roots ∧ ¬ ReflTransGen g.Governs top i
  /-- Comments and surface words are as they were. -/
  header : g'.header = g.header

/-- A subtree is taken away by removing its tokens one after the other. -/
theorem Sound.pruned (hg : g.Sound) (top : Int) :
    (g.withoutTokens (g.subtree top)).resetRoots.Sound ∧ Pruned g top (g.withoutTokens (g.subtree top)).resetRoots := by
  obtain ⟨hsound, free, heq⟩ := hg.withoutTokens_eq (g.subtree top)
  refine ⟨hsound.resetRoots, fun i t => ?_, fun a => ?_, fun i => ?_, ?_⟩
  · rw [tokens_resetRoots, heq, List.mem_filter, ← hg.mem_subtree]
    simp
  · rw [arcs_resetRoots, heq, List.mem_filter, ← hg.mem_subtree, ← hg.mem_subtree]
    simp
  · rw [mem_roots_resetRoots]
    refine or_congr Iff.rfl (and_congr Iff.rfl ?_)
    rw [heq, List.mem_filter, ← hg.mem_subtree]
    simp
  · rw [header_resetRoots, header_withoutTokens]

/-- If plain edges led from a root to a token that is left, then there is a root. -/
theorem Pruned.exists_root (h : Pruned g top g') {t : Token} (ht : (i, t) ∈ g'.tokens)
    (hreached : ∃ r ∈ g.roots, ReflTransGen g.Governs r i) : ∃ r, r ∈ g'.roots := by
  by_cases hfree : ∃ j, g'.Ungoverned j
  · obtain ⟨j, hj⟩ := hfree
    exact ⟨j, (h.roots j).2 (.inl hj)⟩
  · obtain ⟨r, hr, hway⟩ := hreached
    -- If the root went, the token would have gone with it.
    have hstays : ¬ ReflTransGen g.Governs top r := fun hgone => ((h.tokens i t).1 ht).2 (hgone.trans hway)
    exact ⟨r, (h.roots r).2 (.inr ⟨not_exists.1 hfree, hr, hstays⟩)⟩

end Treebank.Graph

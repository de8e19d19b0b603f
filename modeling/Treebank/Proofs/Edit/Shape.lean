import Treebank.Proofs.Checked.Edit
import Treebank.Proofs.Graph.Shape

/-!
# Edits that keep the shape of a graph

Deleting a subtree takes tokens and edges away, which brings no cycle and no further governor, and then resets the roots; adding a
dependent adds a token that governs none. So both keep the shape of a graph without elided tokens (`report_valid_of_treeEdits`).
-/

open Relation

namespace Treebank

namespace Graph

/-- What these edits keep: a sound and well-shaped graph without elided tokens. -/
structure Forest (g : Graph) : Prop where
  sound : g.Sound
  unelided : g.isUnelided
  shape : g.WellShaped

variable {g g' : Graph}

/-! ## Taking tokens away -/

theorem governs_le (h : g'.arcs.Sublist g.arcs) : g'.Governs ≤ g.Governs := by
  rintro i j ⟨a, ha, hrest⟩
  exact ⟨a, h.subset ha, hrest⟩

/-- Taking tokens away and resetting the roots. -/
theorem Forest.withoutTokens (h : g.Forest) {indices : List Int} (hi : ∀ i ∈ indices, g.hasToken i) (hn : indices.Nodup) :
    (g.withoutTokens indices).resetRoots.Forest := by
  obtain ⟨-, hsound⟩ := checkedWithoutTokens_eq h.sound hi hn
  obtain ⟨htokens, harcs⟩ := sublist_withoutTokens g indices
  have hunelided : (g.withoutTokens indices).isUnelided := isUnelided_iff.2 fun p hp => isUnelided_iff.1 h.unelided p (htokens.subset hp)
  refine ⟨hsound.resetRoots, ?_, wellShaped_resetRoots hsound hunelided (fun i => ?_) (h.shape.acyclic.mono (governs_le harcs))⟩
  · unfold isUnelided
    rw [tokens_resetRoots]
    exact hunelided
  · exact (harcs.filter _).length_le.trans (h.shape.governed i)

/-! ## Adding a token that governs none -/

/-- Steps to something from which no steps lead bring no way back. -/
theorem Acyclic.add_leaf {α : Type} {r r' : α → α → Prop} {leaf : α} (h : Acyclic r) (hr : ∀ a b, r' a b → r a b ∨ b = leaf)
    (hleaf : ∀ b, ¬ r' leaf b) : Acyclic r' := by
  have hstep : ∀ {a b c}, r' a b → r' b c → r a b := fun hab hbc =>
    (hr _ _ hab).resolve_right fun hb => hleaf _ (hb ▸ hbc)
  have hway : ∀ {a b c}, TransGen r' a b → r' b c → TransGen r a b := by
    intro a b c hab
    induction hab generalizing c with
    | single hab => exact fun hbc => .single (hstep hab hbc)
    | tail _ hbb ih => exact fun hbc => (ih hbb).tail (hstep hbb hbc)
  intro a ha
  obtain ⟨b, hab, -⟩ := TransGen.head'_iff.1 ha
  exact h a (hway ha hab)

/-- No edge leads to where there is no token. -/
theorem Sound.contains_eq_false (hg : g.Sound) {e : Edge} (he : g.hasToken e.dependent = false) : g.contains e = false := by
  unfold contains
  rw [List.any_eq_false]
  intro a ha hsame
  have hend := (hg.ends a ha).2
  rw [(Edge.ends_of_same hsame).2, he] at hend
  cases hend

/-- A new edge comes before the others, in a slot of its own. -/
theorem Sound.withEdge_eq_cons (hg : g.Sound) {e : Edge} (hgovernor : g.hasToken e.governor) (hdependent : g.hasToken e.dependent)
    (hnew : g.contains e = false) :
    ∃ slot free fresh, g.withEdge e = { g with arcs := ⟨slot, e⟩ :: g.arcs, free := free, fresh := fresh } := by
  obtain ⟨hok, -⟩ := addEdge_succeeds hg hgovernor hdependent
  obtain ⟨-, -, ⟨hold, -⟩ | ⟨-, ⟨slot, free, -, heq⟩ | ⟨-, heq⟩⟩⟩ := addEdge_eq_ok hok
  · rw [hnew] at hold
    cases hold
  · exact ⟨slot, free, g.fresh, heq⟩
  · exact ⟨g.fresh, g.free, g.fresh + 1, heq⟩

/-- Adding a token, and an edge to it from one that was there. -/
theorem withLeaf_eq (hg : g.Sound) {t : Token} (ht : g.hasToken t.index = false) {e : Edge} (hgovernor : g.hasToken e.governor)
    (hdependent : e.dependent = t.index) :
    ((g.withToken t).withEdge e).Sound ∧ ∃ slot free fresh, (g.withToken t).withEdge e =
      { g with tokens := putEntry t.index t g.tokens, arcs := ⟨slot, e⟩ :: g.arcs, free := free, fresh := fresh } := by
  obtain ⟨hok, hsound, htokens⟩ := addToken_succeeds hg ht
  obtain ⟨-, hwith⟩ := addToken_eq_ok hok
  have hgovernor' : (g.withToken t).hasToken e.governor := (htokens _).2 (.inr hgovernor)
  have hdependent' : (g.withToken t).hasToken e.dependent := (htokens _).2 (.inl hdependent)
  -- No edge has an end at the new token, so the new one is equal to none of them.
  have hnew : (g.withToken t).contains e = false := by
    unfold contains
    rw [arcs_withToken]
    exact hg.contains_eq_false (by rw [hdependent, ht])
  obtain ⟨slot, free, fresh, heq⟩ := hsound.withEdge_eq_cons hgovernor' hdependent' hnew
  refine ⟨(addEdge_succeeds hsound hgovernor' hdependent').2, slot, free, fresh, ?_⟩
  rw [heq, hwith]

/-- A graph with a token more, to which a plain edge leads from one that was there. -/
structure HasLeaf (g g' : Graph) (governor : Int) (t : Token) : Prop where
  tokens : ∀ p, p ∈ g'.tokens ↔ p = (t.index, t) ∨ p ∈ g.tokens
  governs : ∀ i j, g'.Governs i j ↔ (i = governor ∧ j = t.index) ∨ g.Governs i j
  plainInto : ∀ i, (g'.plainInto i).length = (g.plainInto i).length + if i = t.index then 1 else 0
  roots : g'.roots = g.roots

theorem hasLeaf_withLeaf (hg : g.Sound) {t : Token} (ht : g.hasToken t.index = false) {e : Edge} (hgovernor : g.hasToken e.governor)
    (hdependent : e.dependent = t.index) (hplain : e.extra = false) : HasLeaf g ((g.withToken t).withEdge e) e.governor t := by
  obtain ⟨-, slot, free, fresh, heq⟩ := withLeaf_eq hg ht hgovernor hdependent
  rw [heq]
  refine ⟨fun p => ?_, fun i j => ?_, fun i => ?_, rfl⟩
  · rw [(perm_putEntry t.index t g.tokens).mem_iff, List.mem_cons]
  · unfold Governs
    rw [List.exists_mem_cons_iff, ← hdependent]
    exact or_congr ⟨fun ⟨_, hi, hj⟩ => ⟨hi.symm, hj.symm⟩, fun ⟨hi, hj⟩ => ⟨hplain, hi.symm, hj.symm⟩⟩ Iff.rfl
  · unfold Graph.plainInto
    rw [List.filter_cons, hdependent, hplain]
    by_cases hi : i = t.index
    · simp [hi]
    · simp [hi, Ne.symm hi]

/-- A leaf keeps the shape of a graph without elided tokens. -/
theorem HasLeaf.wellShaped {governor : Int} {t : Token} (h : HasLeaf g g' governor t) (hg : g.Sound) (hu : g.isUnelided)
    (hshape : g.WellShaped) (ht : g.hasToken t.index = false) (hgovernor : g.hasToken governor) : g'.WellShaped := by
  have hnone : t.index ∉ g.indices := by
    rw [← hasToken_iff, ht]
    exact Bool.false_ne_true
  have hleaf : ∀ j, ¬ g'.Governs t.index j := by
    intro j hj
    rcases (h.governs _ _).1 hj with ⟨hi, -⟩ | hj
    · rw [← hi, ht] at hgovernor
      cases hgovernor
    · exact hnone (hg.mem_indices_of_governs hj).1
  have hway : ∀ {i}, i ∈ g.indices → ∃ r ∈ g'.roots, ReflTransGen g'.Governs r i := by
    intro i hi
    obtain ⟨p, hp, rfl⟩ := List.mem_map.1 hi
    obtain ⟨r, hr, hway⟩ := hshape.reached p.1 p.2 hp (isUnelided_iff.1 hu p hp)
    exact ⟨r, h.roots ▸ hr, ReflTransGen.mono (fun i j hij => (h.governs i j).2 (.inr hij)) _ _ hway⟩
  refine ⟨fun _ => ?_, fun i => ?_, ?_, fun i u hu _ => ?_⟩
  · rw [h.roots]
    refine hshape.rooted fun hempty => ?_
    rw [hasToken_iff, indices, hempty] at hgovernor
    cases hgovernor
  · rw [h.plainInto]
    split
    · rename_i hi
      rw [hg.plainInto_eq_nil (hi ▸ hnone)]
      rfl
    · exact hshape.governed i
  · exact hshape.acyclic.add_leaf (fun i j hij => ((h.governs i j).1 hij).symm.imp_right (·.2)) hleaf
  · rcases (h.tokens _).1 hu with hu | hu
    · cases hu
      obtain ⟨r, hr, hway⟩ := hway (hasToken_iff.1 hgovernor)
      exact ⟨r, hr, hway.tail ((h.governs _ _).2 (.inl ⟨rfl, rfl⟩))⟩
    · exact hway (List.mem_map_of_mem hu)

/-- Adding an ordinary token and a plain edge to it. -/
theorem Forest.withLeaf (h : g.Forest) {t : Token} (ht : g.hasToken t.index = false) (hordinary : t.isEmptyNode = false) {e : Edge}
    (hgovernor : g.hasToken e.governor) (hdependent : e.dependent = t.index) (hplain : e.extra = false) :
    ((g.withToken t).withEdge e).Forest := by
  have hleaf := hasLeaf_withLeaf h.sound ht hgovernor hdependent hplain
  refine ⟨(withLeaf_eq h.sound ht hgovernor hdependent).1, isUnelided_iff.2 fun p hp => ?_,
    hleaf.wellShaped h.sound h.unelided h.shape ht hgovernor⟩
  rcases (hleaf.tokens p).1 hp with rfl | hp
  · exact hordinary
  · exact isUnelided_iff.1 h.unelided p hp

end Graph

namespace Edit

open Treebank.Graph Pattern

variable {w w' : Workspace} {e : Edit} {es : List Edit}

/-- Whether an edit deletes a subtree or adds a dependent. -/
def isTreeEdit : Edit → Bool
  | addDependent .. | delete .. => true
  | _ => false

/-- A token of some attributes is not elided. -/
theorem isEmptyNode_ofAttributes (index position : Int) (attributes : List (String × String)) :
    (Token.ofAttributes index position attributes).isEmptyNode = false := by
  refine (Token.keeps_ofAttributes (f := Token.isEmptyNode) (fun t entry => ?_) index position attributes).trans rfl
  unfold Token.withAttribute
  split <;> rfl

/-- One such edit. -/
theorem forest_apply (hw : w.graph.Forest) (he : e.isTreeEdit) (h : e.apply w = .ok w') : w'.graph.Forest := by
  cases e with
  | addDependent governor relation attributes name weight =>
    obtain ⟨top, htop, h⟩ := bind_eq_ok_iff.1 h
    cases h
    rw [graph_bind]
    have hindex := Token.index_ofAttributes w.graph.nextIndex ((w.graph.leftmostPosition top).toOption.getD w.graph.nextIndex) attributes
    refine hw.withLeaf ?_ (isEmptyNode_ofAttributes ..) (hasToken_of_node htop) hindex.symm rfl
    rw [hindex]
    exact hw.sound.hasToken_nextIndex
  | delete node =>
    obtain ⟨top, htop, h⟩ := bind_eq_ok_iff.1 h
    cases h
    obtain ⟨-, hall⟩ := checkedSubtree_eq hw.sound (hasToken_of_node htop)
    exact hw.withoutTokens hall ((Order.ascending_distinct _).imp Int.ne_of_lt)
  | _ => cases he

/-- A list of such edits. -/
theorem forest_applyAll (hw : w.graph.Forest) (hes : ∀ e ∈ es, e.isTreeEdit) (h : applyAll w es = .ok w') : w'.graph.Forest := by
  induction es generalizing w with
  | nil =>
    cases h
    exact hw
  | cons e es ih =>
    rw [List.forall_mem_cons] at hes
    obtain ⟨w₁, he, h⟩ := applyAll_cons_eq_ok_iff.1 h
    exact ih (forest_apply hw hes.1 he) hes.2 h

/-- Whatever its names are bound to, deleting a subtree or adding a dependent keeps a graph without elided tokens one with a valid report,
and so does a list of such edits. -/
theorem report_valid_of_treeEdits {g : Graph} (hg : g.Sound) (hunelided : g.isUnelided) (hvalid : g.report.valid) :
    (∀ (bindings : Bindings) (e : Edit) (w' : Workspace), e.isTreeEdit →
        e.apply { graph := g, bindings := bindings } = .ok w' → w'.graph.Sound ∧ w'.graph.isUnelided ∧ w'.graph.report.valid) ∧
      ∀ (bindings : Bindings) (es : List Edit) (w' : Workspace), (∀ e ∈ es, e.isTreeEdit) →
        applyAll { graph := g, bindings := bindings } es = .ok w' → w'.graph.Sound ∧ w'.graph.isUnelided ∧ w'.graph.report.valid := by
  have hforest : g.Forest := ⟨hg, hunelided, (report_valid_iff hg).1 hvalid⟩
  have hall : ∀ {g' : Graph}, g'.Forest → g'.Sound ∧ g'.isUnelided ∧ g'.report.valid := fun h =>
    ⟨h.sound, h.unelided, (report_valid_iff h.sound).2 h.shape⟩
  exact ⟨fun bindings e w' he h => hall (forest_apply hforest he h),
    fun bindings es w' hes h => hall (forest_applyAll hforest hes h)⟩

/-- So it is where a root has a governor, and an extra edge leads out of what is deleted. -/
theorem report_valid_of_delete_and_addDependent :
    let graph : Graph :=
      { tokens := [(1, { index := 1 }), (2, { index := 2 }), (3, { index := 3 })]
        arcs := [⟨2, { governor := 3, dependent := 1, relation := "ref", extra := true }⟩,
          ⟨1, { governor := 2, dependent := 3, relation := "obj" }⟩, ⟨0, { governor := 1, dependent := 2, relation := "xcomp" }⟩]
        fresh := 3
        roots := [1, 2] }
    let bindings : Bindings := { nodes := [("a", 1), ("b", 2)] }
    let edits := [delete "b", addDependent "a" "nsubj" [("word", "it")] (some "c") .one]
    graph.Sound ∧ graph.isUnelided ∧ graph.report.valid ∧ (∀ e ∈ edits, e.isTreeEdit) ∧
      ∃ w', applyAll { graph := graph, bindings := bindings } edits = .ok w' ∧ w'.graph.indices = [1, 2] ∧ w'.graph.roots = [1] ∧
        w'.graph.Sound ∧ w'.graph.isUnelided ∧ w'.graph.report.valid := by
  intro graph bindings edits
  have hsound : graph.Sound := by
    have htokens := ((sound_empty.addToken (t := { index := 1 }) rfl).addToken (t := { index := 2 }) rfl).addToken (t := { index := 3 }) rfl
    have hplain := (htokens.addEdge (e := { governor := 1, dependent := 2, relation := "xcomp" }) rfl).addEdge
      (e := { governor := 2, dependent := 3, relation := "obj" }) rfl
    have hextra := hplain.addEdge (e := { governor := 3, dependent := 1, relation := "ref", extra := true }) rfl
    have hroots : ({ graph with roots := [] } : Graph).setRoots [1, 2] = .ok graph := rfl
    exact hextra.setRoots hroots
  have hunelided : graph.isUnelided := by decide
  have hvalid : graph.report.valid := by decide +kernel
  have hedits : ∀ e ∈ edits, e.isTreeEdit := by decide
  obtain ⟨w', hw', hfacts⟩ := exists_ok_of_map_toOption (x := applyAll { graph := graph, bindings := bindings } edits)
    (g := fun w => (w.graph.indices, w.graph.roots)) (b := ([1, 2], [1])) (by decide +kernel)
  simp only [Prod.mk.injEq] at hfacts
  exact ⟨hsound, hunelided, hvalid, hedits, w', hw', hfacts.1, hfacts.2,
    (report_valid_of_treeEdits hsound hunelided hvalid).2 bindings edits w' hedits hw'⟩

end Edit

end Treebank

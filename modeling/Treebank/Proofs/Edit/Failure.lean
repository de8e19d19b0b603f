import Treebank.Proofs.Checked.Edit
import Treebank.Proofs.Match.Captures
import Treebank.Surgery.Basic

/-!
# Why edits fail

An edit fails for a name that it reads and that is not bound, or whose token is gone. In a list that was checked, applied to a match that
binds all names of its pattern, no name is unbound: where an edit fails, an earlier one has removed a token of the name
(`captures_and_failures`).
-/

namespace Treebank

namespace Edit

open Treebank.Graph

variable {w w' : Workspace} {e : Edit} {es es' : List Edit} {x : String} {i : Int} {err : ReferenceError}

/-! ## One edit -/

/-- A name that is given is found as one. -/
theorem given?_getD {name : Option String} (h : (given? name).isSome) : given? name = some (name.getD "") := by
  obtain ⟨x, hx⟩ := Option.isSome_iff_exists.1 h
  rw [hx, eq_some_of_given? hx]
  rfl

/-- An edit fails for a name that it reads. -/
theorem apply_error_cases (h : e.apply w = .error err) :
    (∃ x ∈ e.nodeReferences, w.node x = .error err) ∨ ∃ x ∈ e.edgeReferences, w.edge x = .error err := by
  cases e with
  | removeEdge r =>
    simp only [apply, Removal.apply] at h
    split at h
    · rename_i name hname
      rcases bind_eq_error_iff.1 h with h | ⟨f, -, h⟩
      · exact .inr ⟨name, by rw [edgeReferences, hname]; exact List.mem_singleton_self name, h⟩
      rcases bind_eq_error_iff.1 h with h | ⟨is, -, h⟩
      · exact .inl (exists_error_of_mapM h)
      · cases h
    · rename_i hnone
      -- Without a name for the edge, names for both ends are given.
      obtain ⟨hgovernor, hdependent⟩ : (given? r.governor).isSome ∧ (given? r.dependent).isSome := by
        simpa [hnone] using r.targeted
      rcases bind_eq_error_iff.1 h with h | ⟨governor, -, h⟩
      · exact .inl ⟨_, List.mem_filterMap.2 ⟨_, List.mem_cons_self .., given?_getD hgovernor⟩, h⟩
      rcases bind_eq_error_iff.1 h with h | ⟨dependent, -, h⟩
      · exact .inl ⟨_, List.mem_filterMap.2 ⟨_, List.mem_cons_of_mem _ (List.mem_singleton_self _), given?_getD hdependent⟩, h⟩
      · cases h
  | addEdge governor dependent relation weight extra =>
    rcases bind_eq_error_iff.1 h with h | ⟨_, -, h⟩
    · exact .inl ⟨governor, List.mem_cons_self .., h⟩
    rcases bind_eq_error_iff.1 h with h | ⟨_, -, h⟩
    · exact .inl ⟨dependent, List.mem_cons_of_mem _ (List.mem_singleton_self _), h⟩
    · cases h
  | addDependent governor relation attributes name weight =>
    rcases bind_eq_error_iff.1 h with h | ⟨_, -, h⟩
    · exact .inl ⟨governor, List.mem_singleton_self _, h⟩
    · cases h
  | delete node =>
    rcases bind_eq_error_iff.1 h with h | ⟨_, -, h⟩
    · exact .inl ⟨node, List.mem_singleton_self _, h⟩
    · cases h
  | addNode attributes name => cases h
  | setRoots names =>
    rcases bind_eq_error_iff.1 h with h | ⟨_, -, h⟩
    · exact .inl (exists_error_of_mapM h)
    · cases h
  | killNonRootedNodes => cases h
  | killAllIncomingEdges node =>
    rcases bind_eq_error_iff.1 h with h | ⟨_, -, h⟩
    · exact .inl ⟨node, List.mem_singleton_self _, h⟩
    · cases h

/-- A bound name of a token fails if its token is gone. -/
theorem node_error (h : w.node x = .error err) (hx : x ∈ Pairs.keys w.bindings.nodes) :
    ∃ i, w.bindings.nodes.lookup x = some i ∧ w.graph.hasToken i = false ∧ err = .nodeGone x i := by
  obtain ⟨i, hi⟩ := Option.isSome_iff_exists.1 (Pairs.isSome_lookup_iff.2 hx)
  unfold Workspace.node at h
  simp only [hi] at h
  split at h
  · cases h
  · rename_i hgone
    cases h
    exact ⟨i, hi, by simpa using hgone, rfl⟩

/-- A bound name of an edge fails if an end of it is gone. -/
theorem edge_error (h : w.edge x = .error err) (hx : x ∈ Pairs.keys w.bindings.edges) :
    ∃ f i, w.bindings.edges.lookup x = some f ∧ (i = f.governor ∨ i = f.dependent) ∧ w.graph.hasToken i = false ∧
      err = .endGone x := by
  obtain ⟨f, hf⟩ := Option.isSome_iff_exists.1 (Pairs.isSome_lookup_iff.2 hx)
  unfold Workspace.edge at h
  simp only [hf] at h
  split at h
  · cases h
  · rename_i hgone
    cases h
    cases hgovernor : w.graph.hasToken f.governor with
    | false => exact ⟨f, f.governor, hf, .inl rfl, hgovernor, rfl⟩
    | true => exact ⟨f, f.dependent, hf, .inr rfl, by simpa [hgovernor] using hgone, rfl⟩

/-! ## What edits do to the names -/

/-- Edits bind no names to edges. -/
theorem edges_apply (h : e.apply w = .ok w') : w'.bindings.edges = w.bindings.edges := by
  rcases apply_cases h with ⟨-, hb, -⟩ | ⟨-, name, g, position, -, rfl, -⟩
  · rw [hb]
  · unfold Workspace.bind
    split <;> rfl

/-- A name that an edit binds is bound to the token that it makes. -/
theorem lookup_introduced (h : e.apply w = .ok w') (hx : x ∈ e.introducedNames) :
    e.makesToken ∧ w'.bindings.nodes.lookup x = some w.graph.nextIndex := by
  rcases apply_cases h with ⟨hm, -, -⟩ | ⟨hm, name, g, position, hn, rfl, -⟩
  · have hnone : e.introducedNames = [] := by
      cases e <;> first | rfl | cases hm
    rw [hnone] at hx
    cases hx
  · rw [hn] at hx
    have hgiven : given? name = some x := by simpa using hx
    rw [Workspace.bind]
    simp only [hgiven, Pairs.lookup_put, beq_self_eq_true, if_true]
    exact ⟨hm, trivial⟩

/-- A name that was bound, or that an edit binds, is bound after it. -/
theorem mem_keys_apply (h : e.apply w = .ok w') (hx : x ∈ Pairs.keys w.bindings.nodes ∨ x ∈ e.introducedNames) :
    x ∈ Pairs.keys w'.bindings.nodes := by
  rw [Pairs.keys, ← Pairs.isSome_lookup_iff]
  by_cases hnew : x ∈ e.introducedNames
  · rw [(lookup_introduced h hnew).2]
    rfl
  · rw [lookup_apply h hnew, Pairs.isSome_lookup_iff]
    exact hx.resolve_right hnew

/-- A token that an edit makes is there after it. -/
theorem hasToken_made (hw : w.graph.Sound) (h : e.apply w = .ok w') (he : e.makesToken) : w'.graph.hasToken w.graph.nextIndex := by
  have hmade : ∀ position attributes,
      (w.graph.withToken (Token.ofAttributes w.graph.nextIndex position attributes)).hasToken w.graph.nextIndex := by
    intro position attributes
    have hindex := Token.index_ofAttributes w.graph.nextIndex position attributes
    obtain ⟨-, -, htokens⟩ := addToken_succeeds hw (t := Token.ofAttributes w.graph.nextIndex position attributes)
      (by rw [hindex]; exact hw.hasToken_nextIndex)
    exact (htokens _).2 (.inl hindex.symm)
  cases e with
  | addDependent governor relation attributes name weight =>
    obtain ⟨governor, -, h⟩ := bind_eq_ok_iff.1 h
    cases h
    rw [graph_bind]
    exact (hasToken_congr (tokens_withEdge _ _) _).trans (hmade _ _)
  | addNode attributes name =>
    cases h
    rw [graph_bind]
    exact hmade _ _
  | _ => cases he

/-! ## What a name stands for -/

/-- Whether a name is bound to the token of an index, or to an edge with an end there. -/
def Workspace.Refers (w : Workspace) (x : String) (i : Int) : Prop :=
  w.bindings.nodes.lookup x = some i ∨ ∃ f, w.bindings.edges.lookup x = some f ∧ (i = f.governor ∨ i = f.dependent)

/-- Some edit of a list removes the token of an index for which a name stands. -/
def RemovedBy (w : Workspace) (es : List Edit) (x : String) (i : Int) : Prop :=
  ∃ before e after w₁ w₂, es = before ++ e :: after ∧ applyAll w before = .ok w₁ ∧ w₁.Refers x i ∧ Removes e w₁ w₂ i

/-- After an edit a name stands for what it stood for before, or for the token that the edit made. -/
theorem refers_of_apply (hw : w.graph.Sound) (h : e.apply w = .ok w') (hx : w'.Refers x i) : w.Refers x i ∨ w'.graph.hasToken i := by
  rcases hx with hx | ⟨f, hf, hi⟩
  · by_cases hnew : x ∈ e.introducedNames
    · obtain ⟨hm, hnext⟩ := lookup_introduced h hnew
      rw [hx] at hnext
      cases hnext
      exact .inr (hasToken_made hw h hm)
    · rw [lookup_apply h hnew] at hx
      exact .inl (.inl hx)
  · rw [edges_apply h] at hf
    exact .inl (.inr ⟨f, hf, hi⟩)

/-! ## Runs -/

/-- Applying a list is applying its first part and then the rest. -/
theorem applyAll_append_eq_ok_iff : applyAll w (es ++ es') = .ok w' ↔ ∃ w₁, applyAll w es = .ok w₁ ∧ applyAll w₁ es' = .ok w' := by
  unfold applyAll
  rw [List.foldlM_append, bind_eq_ok_iff]

theorem applyAll_singleton : applyAll w [e] = e.apply w := by
  unfold applyAll
  rw [List.foldlM_cons]
  exact bind_pure _

/-- A list that fails does so at one of its edits, after those before it. -/
theorem exists_edit_of_error (h : applyAll w es = .error err) :
    ∃ before e after w', es = before ++ e :: after ∧ applyAll w before = .ok w' ∧ e.apply w' = .error err := by
  induction es generalizing w with
  | nil => cases h
  | cons e es ih =>
    unfold applyAll at h
    rw [List.foldlM_cons] at h
    rcases bind_eq_error_iff.1 h with h | ⟨w₁, he, h⟩
    · exact ⟨[], e, es, w, rfl, rfl, h⟩
    · obtain ⟨before, f, after, w', rfl, hbefore, hf⟩ := ih h
      exact ⟨e :: before, f, after, w', rfl, applyAll_cons_eq_ok_iff.2 ⟨w₁, he, hbefore⟩, hf⟩

theorem edges_applyAll (h : applyAll w es = .ok w') : w'.bindings.edges = w.bindings.edges := by
  induction es generalizing w with
  | nil =>
    cases h
    rfl
  | cons e es ih =>
    obtain ⟨w₁, he, hes⟩ := applyAll_cons_eq_ok_iff.1 h
    exact (ih hes).trans (edges_apply he)

/-- A name that was bound, or that a run binds, is bound after it. -/
theorem mem_keys_applyAll (h : applyAll w es = .ok w') (hx : x ∈ Pairs.keys w.bindings.nodes ∨ x ∈ introducedBy es) :
    x ∈ Pairs.keys w'.bindings.nodes := by
  induction es generalizing w with
  | nil =>
    cases h
    exact hx.resolve_right (by simp [introducedBy])
  | cons e es ih =>
    obtain ⟨w₁, he, hes⟩ := applyAll_cons_eq_ok_iff.1 h
    rw [introducedBy, List.flatMap_cons, List.mem_append] at hx
    refine ih hes ?_
    rcases hx with hx | hx | hx
    · exact .inl (mem_keys_apply he (.inl hx))
    · exact .inl (mem_keys_apply he (.inr hx))
    · exact .inr hx

/-- What was removed by the first part of a list was removed by the list. -/
theorem RemovedBy.append (h : RemovedBy w es x i) (es' : List Edit) : RemovedBy w (es ++ es') x i := by
  obtain ⟨before, e, after, w₁, w₂, rfl, hrest⟩ := h
  exact ⟨before, e, after ++ es', w₁, w₂, by simp, hrest⟩

/-- If all tokens for which names stand are there at the beginning of a run, then those that are not there at its end were removed by
one of its edits. -/
theorem present_or_removedBy (hw : w.graph.Sound) (hall : ∀ x i, w.Refers x i → w.graph.hasToken i) (h : applyAll w es = .ok w')
    (hx : w'.Refers x i) : w'.graph.hasToken i ∨ RemovedBy w es x i := by
  induction es using List.reverseRecOn generalizing w' with
  | nil =>
    cases h
    exact .inl (hall x i hx)
  | append_singleton es e ih =>
    obtain ⟨w₁, hes, he⟩ := applyAll_append_eq_ok_iff.1 h
    rw [applyAll_singleton] at he
    cases hthere : w'.graph.hasToken i with
    | true => exact .inl rfl
    | false =>
      have hbefore : w₁.Refers x i := by
        refine (refers_of_apply ((checkedApplyAll_agrees hw es).sound w₁ hes) he hx).resolve_right ?_
        rw [hthere]
        exact Bool.false_ne_true
      rcases ih hes hbefore with hpresent | hremoved
      · exact .inr ⟨es, e, [], w₁, w', rfl, hes, hbefore, hpresent, he, hthere⟩
      · exact .inr (hremoved.append [e])

end Edit

open Edit Pattern

/-! ## Matches and their edits -/

/-- Why an edit fails, after some edits before it: a name that is bound to a token, or to an edge, has lost it to one of them. -/
inductive Surgery.Lost (start : Workspace) (before : List Edit) (w : Workspace) : ReferenceError → Prop where
  | node {x : String} {i : Int} (bound : w.bindings.nodes.lookup x = some i) (removed : RemovedBy start before x i) :
      Lost start before w (.nodeGone x i)
  | edge {x : String} {f : Edge} {i : Int} (bound : w.bindings.edges.lookup x = some f) (isEnd : i = f.governor ∨ i = f.dependent)
      (removed : RemovedBy start before x i) : Lost start before w (.endGone x)

/-- Where all names of a pattern are bound to what is there, edits that were checked against these names fail only for what an earlier
edit has removed. -/
theorem Surgery.lost_of_operate {s : Surgery} {g : Graph} {mt : Match} {err : ReferenceError} (hg : g.Sound)
    (hcheck : checkNames s.pattern.nodeNames s.pattern.edgeNames s.edits = .ok ()) (hgrounded : mt.bindings.Grounded g)
    (hnodes : ∀ x ∈ s.pattern.nodeNames, x ∈ Pairs.keys mt.bindings.nodes)
    (hedges : ∀ x ∈ s.pattern.edgeNames, x ∈ Pairs.keys mt.bindings.edges) (h : s.operate g mt = .error err) :
    ∃ before e after w, s.edits = before ++ e :: after ∧
      applyAll { graph := g.copy, bindings := mt.bindings } before = .ok w ∧ e.apply w = .error err ∧
        Surgery.Lost { graph := g.copy, bindings := mt.bindings } before w err := by
  have hrun : applyAll { graph := g.copy, bindings := mt.bindings } s.edits = .error err := by
    rcases bind_eq_error_iff.1 h with h | ⟨w, -, h⟩
    · exact h
    · cases h
  have hall : ∀ x i, Workspace.Refers { graph := g.copy, bindings := mt.bindings } x i → g.copy.hasToken i := by
    have hcopy : ∀ i, g.hasToken i → g.copy.hasToken i := by
      intro i hi
      unfold Graph.hasToken
      rwa [Graph.token?_copy, Option.isSome_map]
    rintro x i (hx | ⟨f, hf, rfl | rfl⟩)
    · exact hcopy _ (hgrounded.nodes _ (Pairs.mem_of_lookup_eq hx))
    · exact hcopy _ (hgrounded.edges _ (Pairs.mem_of_lookup_eq hf)).1
    · exact hcopy _ (hgrounded.edges _ (Pairs.mem_of_lookup_eq hf)).2
  obtain ⟨before, e, after, w, hedits, hbefore, he⟩ := exists_edit_of_error hrun
  refine ⟨before, e, after, w, hedits, hbefore, he, ?_⟩
  rw [hedits] at hcheck
  obtain ⟨hread, hreadEdges⟩ := mem_of_checkNames hcheck
  have hlost : ∀ {x i}, w.Refers x i → w.graph.hasToken i = false →
      RemovedBy { graph := g.copy, bindings := mt.bindings } before x i := by
    intro x i hx hgone
    refine (present_or_removedBy hg.copy hall hbefore hx).resolve_left ?_
    rw [hgone]
    exact Bool.false_ne_true
  rcases apply_error_cases he with ⟨x, hx, hfails⟩ | ⟨x, hx, hfails⟩
  · have hbound := mem_keys_applyAll hbefore ((hread x hx).imp_left (hnodes x))
    obtain ⟨i, hi, hgone, rfl⟩ := node_error hfails hbound
    exact .node hi (hlost (.inl hi) hgone)
  · have hbound : x ∈ Pairs.keys w.bindings.edges := by
      rw [edges_applyAll hbefore]
      exact hedges x (hreadEdges x hx)
    obtain ⟨f, i, hf, hi, hgone, rfl⟩ := edge_error hfails hbound
    exact .edge hf hi (hlost (.inr ⟨f, hf, hi⟩) hgone)

/-- A match of a pattern that was read, from whatever is bound from the start, binds names of the pattern alone, and all names that
occur outside of negations, of optional constraints and of alternatives. If there are none of the latter two in the pattern, then in a
surgery with it an edit fails only if an earlier one, applied to the same match, has removed the token of the name in question, or an
end of its edge. -/
theorem Pattern.captures_and_failures {options : PatternOptions} {text : String} {p : Pattern} (hp : ofText options text = .ok p) :
    (∀ (g : Graph) (initial : List (String × Int)) (o : Matcher.Overrides) (m : Matcher) (sink : Sink),
        Matcher.ofPattern p g initial o = .ok m → ∀ mt ∈ (m.findAll.run sink).1,
          (∀ x ∈ Pairs.keys mt.bindings.nodes, x ∈ p.nodeNames) ∧ (∀ x ∈ Pairs.keys mt.bindings.edges, x ∈ p.edgeNames) ∧
            Pairs.keys mt.relations = Pairs.keys mt.bindings.edges ∧
              (∀ x ∈ nodesOf p.certain, (mt.node? x).isSome) ∧ ∀ x ∈ edgesOf p.certain, (mt.edge? x).isSome) ∧
      (p.isConjunctive → ∀ (g : Graph) (uid notes : String) (edits : List Edit) (s : Surgery) (sink : Sink), g.Sound →
        Surgery.ofParts uid notes p edits = .ok s → ∀ mt ∈ ((Matcher.plain p g).findAll.run sink).1, ∀ err,
          s.operate g mt = .error err → ∃ before e after w, s.edits = before ++ e :: after ∧
            applyAll { graph := g.copy, bindings := mt.bindings } before = .ok w ∧ e.apply w = .error err ∧
              Surgery.Lost { graph := g.copy, bindings := mt.bindings } before w err) := by
  have hfollowed := namesFollowed_ofText hp
  obtain ⟨names, htracks, hnodeNames, hedgeNames⟩ := tracks_ofText hp
  constructor
  · intro g initial o m sink hm mt hmt
    obtain ⟨rfl, rfl, hinitial⟩ := mem_nodeNames_of_ofPattern hm
    have hcaptures := captures_all hfollowed hmt
    refine ⟨fun x hx => ?_, fun x hx => ?_, ?_, fun x hx => ?_, fun x hx => ?_⟩
    · rcases hcaptures.only _ (binds_node.2 hx) with hstart | hmention
      · exact hinitial x (binds_node.1 hstart)
      · rw [hnodeNames, htracks.mem_nodes_iff]
        exact mem_namesOf_node.1 hmention
    · rcases hcaptures.only _ (binds_edge.2 hx) with hstart | hmention
      · cases binds_edge.1 hstart
      · rw [hedgeNames, htracks.mem_edges_iff]
        exact mem_namesOf_edge.1 hmention
    · exact Pairs.keys_map mt.bindings.edges fun _ e => e.relation
    · exact Pairs.isSome_lookup_iff.2 (binds_node.1 (hcaptures.sure _ (mem_namesOf_node.2 hx)))
    · exact Pairs.isSome_lookup_iff.2 (binds_edge.1 (hcaptures.sure _ (mem_namesOf_edge.2 hx)))
  · intro hconjunctive g uid notes edits s sink hg hs mt hmt err hfails
    obtain ⟨⟨⟩, hcheck, h⟩ := bind_eq_ok_iff.1 hs
    cases h
    obtain ⟨hnodes, hedges⟩ := certain_of_conjunctive hp hconjunctive
    have hcaptures := captures_all (m := Matcher.plain p g) hfollowed hmt
    refine Surgery.lost_of_operate hg hcheck (grounded_all (m := Matcher.plain p g) hg (by simp [Matcher.plain]) hmt) ?_ ?_ hfails
    · exact fun x hx => binds_node.1 (hcaptures.sure _ (mem_namesOf_node.2 (hnodes x hx)))
    · exact fun x hx => binds_edge.1 (hcaptures.sure _ (mem_namesOf_edge.2 (hedges x hx)))

/-- So it is where a token is deleted before the edge that leads to it. -/
theorem Pattern.captures_and_failures_deleted_end :
    let edge : Edge := { governor := 1, dependent := 2, relation := "obj" }
    let graph : Graph := { tokens := [(1, { index := 1 }), (2, { index := 2 })], arcs := [⟨0, edge⟩], fresh := 1 }
    let edits : List Edit := [.delete "b", .removeEdge { edge := some "e", targeted := rfl }]
    let mt : Match := { root := 1, bindings := { nodes := [("a", 1), ("b", 2)], edges := [("e", edge)] } }
    ∃ p s, ofText {} "\x7b\x7d=a >=e \x7b\x7d=b" = .ok p ∧ p.isConjunctive ∧ graph.Sound ∧
      Surgery.ofParts "" "" p edits = .ok s ∧ ((Matcher.plain p graph).findAll.run {}).1 = [mt] ∧
        (∀ x ∈ nodesOf p.certain, (mt.node? x).isSome) ∧ s.operate graph mt = .error (.endGone "e") ∧
          ∃ before e after w, s.edits = before ++ e :: after ∧
            applyAll { graph := graph.copy, bindings := mt.bindings } before = .ok w ∧ e.apply w = .error (.endGone "e") ∧
              Surgery.Lost { graph := graph.copy, bindings := mt.bindings } before w (.endGone "e") := by
  intro edge graph edits mt
  obtain ⟨p, hp, hfacts⟩ := exists_ok_of_map_toOption (x := ofText {} "\x7b\x7d=a >=e \x7b\x7d=b")
    (g := fun p => (p.isConjunctive, p.nodeNames, p.edgeNames, (Matcher.plain p graph).all)) (b := (true, ["a", "b"], ["e"], [mt]))
    (by decide +kernel)
  simp only [Prod.mk.injEq] at hfacts
  obtain ⟨hconjunctive, hnodes, hedges, hall⟩ := hfacts
  have hsound : graph.Sound := by
    exact ((Graph.sound_empty.addToken (t := { index := 1 }) rfl).addToken (t := { index := 2 }) rfl).addEdge (e := edge) rfl
  have hs : Surgery.ofParts "" "" p edits = .ok { pattern := p, edits := edits } := by
    unfold Surgery.ofParts
    rw [hnodes, hedges]
    rfl
  have hrun : applyAll { graph := graph.copy, bindings := mt.bindings } edits = .error (.endGone "e") := by decide +kernel
  have hfails : Surgery.operate { pattern := p, edits := edits } graph mt = .error (.endGone "e") := by
    unfold Surgery.operate
    rw [hrun]
    rfl
  have hmem : mt ∈ (Matcher.plain p graph).all := by
    rw [hall]
    exact List.mem_singleton_self mt
  obtain ⟨hbinds, hlost⟩ := Pattern.captures_and_failures hp
  obtain ⟨-, -, -, hcertain, -⟩ := hbinds graph [] {} (Matcher.plain p graph) {} rfl mt hmem
  exact ⟨p, _, hp, hconjunctive, hsound, hs, hall, hcertain, hfails,
    hlost hconjunctive graph "" "" edits _ {} hsound hs mt hmem _ hfails⟩

end Treebank

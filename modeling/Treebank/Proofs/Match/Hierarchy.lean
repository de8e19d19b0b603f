import Treebank.Proofs.Match.Bounded
import Treebank.Proofs.Match.Captures
import Treebank.Proofs.Match.Reorder

/-!
# Searches with the hierarchy of labels

A label also stands for the labels that it subsumes if a search heeds the hierarchy, so every relation has at least the candidates that it
has without (`subperm_candidates`). They may be found over other edges, though, and so a name that two edges share can be bound to edges
that do not agree. Names of edges that stand once each bind without a condition and can be left out (`map_withoutEdges_solve`); then the
search without the hierarchy is contained in the one with it (`findAll_hierarchical`).
-/

namespace Treebank

/-! ## More elements -/

/-- More elements, with more for each of them, make more. -/
theorem subperm_flatMap {α β : Type} {l l' : List α} {f g : α → List β} (h : l.Subperm l') (hfg : ∀ a, (f a).Subperm (g a)) :
    (l.flatMap f).Subperm (l'.flatMap g) := by
  obtain ⟨m, hperm, hsub⟩ := h
  have hsame : ∀ m : List α, (m.flatMap f).Subperm (m.flatMap g) := by
    intro m
    induction m with
    | nil => exact .refl _
    | cons a m ih =>
      simp only [List.flatMap_cons]
      exact (hfg a).append ih
  exact ((hperm.symm.flatMap_right f).subperm.trans (hsame m)).trans (hsub.flatMap g).subperm

/-- More elements are more under a function. -/
theorem subperm_map {α β : Type} {l l' : List α} (h : l.Subperm l') (f : α → β) : (l.map f).Subperm (l'.map f) := by
  obtain ⟨m, hperm, hsub⟩ := h
  exact ⟨m.map f, hperm.map f, hsub.map f⟩

/-! ## More labels, more candidates -/

/-- A label that is accepted is accepted where the hierarchy is heeded, too. -/
theorem Pattern.Label.accepts_hierarchical {l : Pattern.Label} {h : Bool} {relation : String} (hl : l.accepts h relation) :
    l.accepts true relation := by
  cases l with
  | any => rfl
  | regex source r => exact hl
  | exact name =>
    cases h with
    | true => exact hl
    | false => simpa [Pattern.Label.accepts, Relation.subsumes] using Or.inl hl

namespace Scope

open Pattern

/-- The same search, but with the hierarchy of labels. -/
def broad (s : Scope) : Scope := { s with hierarchical := true }

variable {s : Scope} {o : Operator} {index : Int}

theorem acceptsEdge_broad {e : Edge} (h : s.acceptsEdge o e) : s.broad.acceptsEdge o e := Label.accepts_hierarchical h

theorem subperm_neighbours (s : Scope) (o : Operator) (d : Direction) (index : Int) :
    ((s.neighbours o d index).map (·.1)).Subperm ((s.broad.neighbours o d index).map (·.1)) :=
  (((List.monotone_filter_right _ fun _ => acceptsEdge_broad).map _).map _).subperm

/-- A search finds with more labels each token that it finds, since the order in which it passes the tokens has to do with their edges
alone. -/
theorem subperm_reached (s : Scope) (o : Operator) (d : Direction) (index : Int) :
    ((s.reached o d index).map (·.1)).Subperm ((s.broad.reached o d index).map (·.1)) := by
  unfold reached
  simp only [map_fst_candidates_of_edges]
  split
  · refine (reaches_descendWithin ..).1.subperm fun v hv => ?_
    obtain ⟨hnew, k, hk, hle, e, he, haccepts, hv⟩ := mem_map_descendWithin.1 hv
    exact mem_map_descendWithin.2 ⟨hnew, k, hk, hle, e, he, acceptsEdge_broad haccepts, hv⟩
  · refine (reaches_descend ..).1.subperm fun v hv => ?_
    obtain ⟨hnew, i, hi, e, he, haccepts, hv⟩ := mem_map_descend.1 hv
    exact mem_map_descend.2 ⟨hnew, i, hi, e, he, acceptsEdge_broad haccepts, hv⟩

/-- Every operator has at least as many candidates if the hierarchy is heeded. -/
theorem subperm_candidates (s : Scope) (o : Operator) (index : Int) :
    ((s.candidates o index).map (·.1)).Subperm ((s.broad.candidates o index).map (·.1)) := by
  unfold candidates
  cases o.kind with
  | child => exact subperm_neighbours s o .down index
  | parent => exact subperm_neighbours s o .up index
  | descendant => exact subperm_reached s o .down index
  | ancestor => exact subperm_reached s o .up index
  | same | nextWord | rightNeighbour | leftNeighbour | rightSibling | leftSibling => exact .refl _

end Scope

namespace Pattern

open Scope

/-! ## Patterns without names of edges -/

mutual
/-- A constraint without the names of its edges. -/
def Constraint.withoutEdgeNames : Constraint → Constraint
  | .relation mode operator target none => .relation mode { operator with edgeName := none } target none
  | .relation mode operator target (some inner) =>
    .relation mode { operator with edgeName := none } target (some inner.withoutEdgeNames)
  | .all mode children => .all mode (allWithoutEdgeNames children)
  | .any mode children => .any mode (allWithoutEdgeNames children)

/-- Constraints without the names of their edges. -/
def allWithoutEdgeNames : List Constraint → List Constraint
  | [] => []
  | c :: cs => c.withoutEdgeNames :: allWithoutEdgeNames cs
end

/-- A part without the names of its edges. -/
def Part.withoutEdgeNames (p : Part) : Part := { p with constraint := p.constraint.map Constraint.withoutEdgeNames }

/-- What is bound to tokens. -/
def Bindings.withoutEdges (b : Bindings) : Bindings := { nodes := b.nodes }

/-- Whether the names of edges that are mentioned stand once each and are not bound. -/
structure Bindings.Fresh (b : Bindings) (ms : Mentions) : Prop where
  nodup : (edgesOf ms).Nodup
  unbound : ∀ x ∈ edgesOf ms, x ∉ Pairs.keys b.edges

variable {s : Scope} {index : Int} {b b' : Bindings} {ms ms' must : Mentions}

theorem edgesOf_under (u : Bool) (ms : Mentions) : edgesOf (under u ms) = edgesOf ms := by
  rw [edgesOf, under, List.filterMap_map]
  rfl

theorem Bindings.Fresh.of_under {u : Bool} (h : b.Fresh (under u ms)) : b.Fresh ms := by
  obtain ⟨hnodup, hunbound⟩ := h
  rw [edgesOf_under] at hnodup hunbound
  exact ⟨hnodup, hunbound⟩

theorem Bindings.Fresh.left (h : b.Fresh (ms ++ ms')) : b.Fresh ms := by
  obtain ⟨hnodup, hunbound⟩ := h
  rw [edgesOf_append] at hnodup hunbound
  exact ⟨hnodup.of_append_left, fun x hx => hunbound x (List.mem_append_left _ hx)⟩

theorem Bindings.Fresh.right (h : b.Fresh (ms ++ ms')) : b.Fresh ms' := by
  obtain ⟨hnodup, hunbound⟩ := h
  rw [edgesOf_append] at hnodup hunbound
  exact ⟨hnodup.of_append_right, fun x hx => hunbound x (List.mem_append_right _ hx)⟩

/-- Names that come to be bound are no others than those that were mentioned before. -/
theorem Bindings.Fresh.after (h : b.Fresh (ms ++ ms')) (hcaptures : Captures b b' ms must) : b'.Fresh ms' := by
  refine ⟨h.right.nodup, fun x hx hbound => ?_⟩
  rcases hcaptures.only _ (binds_edge.2 hbound) with hbound | hmentioned
  · exact h.right.unbound x hx (binds_edge.1 hbound)
  · have hnodup := h.nodup
    rw [edgesOf_append] at hnodup
    exact (List.disjoint_of_nodup_append hnodup) (mem_namesOf_edge.1 hmentioned) hx

/-! ## Names of edges that stand once bind without a condition -/

theorem map_withoutEdges_bindNode (b : Bindings) (name : Option String) (index : Int) :
    (b.bindNode name index).map Bindings.withoutEdges = b.withoutEdges.bindNode name index := by
  cases name with
  | none => rfl
  | some name =>
    cases h : b.nodes.lookup name with
    | none => simp [Bindings.bindNode, Bindings.withoutEdges, h]
    | some bound => by_cases hbound : bound = index <;> simp [Bindings.bindNode, Bindings.withoutEdges, h, hbound]

theorem map_withoutEdges_fill (p : Place) (s : Scope) (index : Int) (b : Bindings) :
    (p.fill s index b).map Bindings.withoutEdges = p.fill s index b.withoutEdges := by
  unfold Place.fill
  cases s.graph.token? index with
  | none => rfl
  | some t =>
    simp only
    split
    · exact map_withoutEdges_bindNode b p.name index
    · rfl

/-- A name that is not bound can be bound to any edge. -/
theorem map_withoutEdges_reach {o : Operator} (hb : b.Fresh o.mentions) (p : Place) (s : Scope) (c : Candidate) :
    ((b.bindEdge o.edgeName c.2).bind (p.fill s c.1)).map Bindings.withoutEdges = p.fill s c.1 b.withoutEdges := by
  have hedge : ∃ b₁, b.bindEdge o.edgeName c.2 = some b₁ ∧ b₁.withoutEdges = b.withoutEdges := by
    have hunbound := hb.unbound
    unfold Operator.mentions at hunbound
    unfold Bindings.bindEdge
    cases hname : o.edgeName with
    | none => exact ⟨b, rfl, rfl⟩
    | some name =>
      cases c.2 with
      | none => exact ⟨b, rfl, rfl⟩
      | some e =>
        have hnone : b.edges.lookup name = none :=
          Pairs.lookup_eq_none_iff_notMem.2 (hunbound name (by simp [hname, edgesOf, Mention.edge?]))
        simp only [hnone]
        exact ⟨_, rfl, rfl⟩
  obtain ⟨b₁, hb₁, hsame⟩ := hedge
  rw [hb₁, Option.bind_some, map_withoutEdges_fill, hsame]

/-- What goes on from what is bound to tokens. -/
theorem flatMap_withoutEdges {β : Type} (bs : List Bindings) (f : Bindings → List β) :
    (bs.flatMap fun b => f b.withoutEdges) = (bs.map Bindings.withoutEdges).flatMap f := (List.flatMap_map ..).symm

theorem map_select (f : Bindings → Bindings) (mode : Mode) (b : Bindings) (solutions : List Bindings) :
    (mode.select b solutions).map f = mode.select (f b) (solutions.map f) := by
  cases mode with
  | plain => rfl
  | negated | optional => cases solutions <;> rfl

mutual
/-- What a search binds to tokens is found without the names of the edges, if these stand once each. -/
theorem map_withoutEdges_solve (s : Scope) {c : Constraint} (hc : c.namesFollowed) (index : Int) {b : Bindings} (hb : b.Fresh c.mentions) :
    (c.solve s index b).map Bindings.withoutEdges = c.withoutEdgeNames.solve s index b.withoutEdges := by
  match c with
  | .relation mode operator target none =>
    rw [Constraint.mentions] at hb
    rw [Constraint.withoutEdgeNames, Constraint.solve, Constraint.solve, map_select, List.map_flatMap]
    refine congrArg _ (List.flatMap_congr fun c _ => ?_)
    rw [← Option.toList_map, map_withoutEdges_reach hb.of_under.left]
    rfl
  | .relation mode operator target (some inner) =>
    obtain ⟨ho, hinner⟩ : operator.namesFollowed ∧ inner.namesFollowed := by simpa [Constraint.namesFollowed] using hc
    rw [Constraint.mentions] at hb
    have hb := hb.of_under
    rw [Constraint.withoutEdgeNames, Constraint.solve, Constraint.solve, map_select, List.map_flatMap]
    refine congrArg _ (List.flatMap_congr fun c hcandidate => ?_)
    rw [List.map_flatMap]
    have hsolve : ∀ b₁ ∈ ((b.bindEdge operator.edgeName c.2).bind (target.fill s c.1)).toList,
        (inner.solve s c.1 b₁).map Bindings.withoutEdges = inner.withoutEdgeNames.solve s c.1 b₁.withoutEdges := fun b₁ h₁ =>
      map_withoutEdges_solve s hinner c.1 (hb.after (captures_of_iff (binds_reach ho hcandidate h₁)))
    rw [List.flatMap_congr hsolve, flatMap_withoutEdges _ fun b => inner.withoutEdgeNames.solve s c.1 b, ← Option.toList_map,
      map_withoutEdges_reach hb.left.left]
    rfl
  | .all mode children =>
    rw [Constraint.mentions] at hb
    rw [Constraint.withoutEdgeNames, Constraint.solve, Constraint.solve, map_select, map_withoutEdges_solveAll s hc index hb.of_under]
  | .any mode children =>
    rw [Constraint.mentions] at hb
    rw [Constraint.withoutEdgeNames, Constraint.solve, Constraint.solve, map_select, map_withoutEdges_solveAny s hc index hb.of_under]

theorem map_withoutEdges_solveAll (s : Scope) {cs : List Constraint} (hcs : nameFollowed cs) (index : Int) {b : Bindings}
    (hb : b.Fresh (mentioned cs)) :
    (solveAll s index b cs).map Bindings.withoutEdges = solveAll s index b.withoutEdges (allWithoutEdgeNames cs) := by
  match cs with
  | [] => rfl
  | c :: cs =>
    obtain ⟨hc, hcs⟩ : c.namesFollowed ∧ nameFollowed cs := by simpa [nameFollowed] using hcs
    rw [mentioned] at hb
    rw [solveAll, allWithoutEdgeNames, solveAll, List.map_flatMap]
    have hrest : ∀ b₁ ∈ c.solve s index b,
        (solveAll s index b₁ cs).map Bindings.withoutEdges = solveAll s index b₁.withoutEdges (allWithoutEdgeNames cs) := fun b₁ h₁ =>
      map_withoutEdges_solveAll s hcs index (hb.after (captures_solve hc h₁))
    rw [List.flatMap_congr hrest, flatMap_withoutEdges _ fun b => solveAll s index b (allWithoutEdgeNames cs),
      map_withoutEdges_solve s hc index hb.left]

theorem map_withoutEdges_solveAny (s : Scope) {cs : List Constraint} (hcs : nameFollowed cs) (index : Int) {b : Bindings}
    (hb : b.Fresh (mentioned cs)) :
    (solveAny s index b cs).map Bindings.withoutEdges = solveAny s index b.withoutEdges (allWithoutEdgeNames cs) := by
  match cs with
  | [] => rfl
  | c :: cs =>
    obtain ⟨hc, hcs⟩ : c.namesFollowed ∧ nameFollowed cs := by simpa [nameFollowed] using hcs
    rw [mentioned] at hb
    rw [solveAny, allWithoutEdgeNames, solveAny, List.map_append, map_withoutEdges_solve s hc index hb.left,
      map_withoutEdges_solveAny s hcs index hb.right]
end

theorem toList_withoutEdgeNames (c : Option Constraint) :
    (c.map Constraint.withoutEdgeNames).toList = allWithoutEdgeNames c.toList := by
  cases c <;> rfl

/-- What filling a part binds to tokens is found without the names of the edges, if these stand once each. -/
theorem map_withoutEdges_part (s : Scope) {p : Part} (hp : p.namesFollowed) {b : Bindings} (hb : b.Fresh p.mentions) :
    (p.solve s b).map (fun q => (q.1, q.2.withoutEdges)) = p.withoutEdgeNames.solve s b.withoutEdges := by
  have hsolve : ∀ index, (p.solveAt s b index).map Bindings.withoutEdges = p.withoutEdgeNames.solveAt s b.withoutEdges index := by
    intro index
    have hrest : ∀ b₁ ∈ (p.place.fill s index b).toList, (solveOption s index b₁ p.constraint).map Bindings.withoutEdges =
        solveOption s index b₁.withoutEdges (p.constraint.map Constraint.withoutEdgeNames) := by
      intro b₁ h₁
      rw [solveOption_eq_solveAll, solveOption_eq_solveAll, toList_withoutEdgeNames]
      exact map_withoutEdges_solveAll s (nameFollowed_toList hp) index
        (hb.after (captures_of_iff (binds_fill (Option.mem_toList.1 h₁))))
    unfold Part.solveAt
    rw [List.map_flatMap, List.flatMap_congr hrest, flatMap_withoutEdges _ fun b => solveOption s index b _, ← Option.toList_map,
      map_withoutEdges_fill]
    rfl
  unfold Part.solve
  rw [List.map_flatMap]
  refine List.flatMap_congr fun index _ => ?_
  rw [← hsolve index, List.map_map, List.map_map]
  rfl

/-- So it is for parts that are filled one after the other. -/
theorem map_withoutEdges_solveParts (s : Scope) {ps : List Part} (hps : ps.all Part.namesFollowed) {b : Bindings}
    (hb : b.Fresh (ps.flatMap Part.mentions)) :
    (solveParts s b ps).map Bindings.withoutEdges = solveParts s b.withoutEdges (ps.map Part.withoutEdgeNames) := by
  induction ps generalizing b with
  | nil => rfl
  | cons p ps ih =>
    obtain ⟨hp, hps⟩ : p.namesFollowed ∧ ps.all Part.namesFollowed := by simpa using hps
    rw [List.flatMap_cons] at hb
    have hrest : ∀ q ∈ p.solve s b, (solveParts s q.2 ps).map Bindings.withoutEdges =
        solveParts s q.2.withoutEdges (ps.map Part.withoutEdgeNames) := fun q hq => ih hps (hb.after (captures_part hp hq))
    rw [solveParts, List.map_cons, solveParts, List.map_flatMap, List.flatMap_congr hrest, ← map_withoutEdges_part s hp hb.left,
      List.flatMap_map]

/-! ## More candidates, more solutions -/

/-- Without a name of its edge a relation leads on from the tokens of its candidates, whatever their edges are. -/
theorem solve_relation_withoutEdgeNames (s : Scope) (operator : Operator) (target : Place) (inner : Option Constraint) (index : Int)
    (b : Bindings) :
    (Constraint.relation .plain operator target inner).withoutEdgeNames.solve s index b =
      ((s.candidates operator index).map (·.1)).flatMap fun other =>
        (target.fill s other b).toList.flatMap fun b => solveAll s other b (allWithoutEdgeNames inner.toList) := by
  rw [List.flatMap_map]
  cases inner with
  | none =>
    rw [Constraint.withoutEdgeNames, Constraint.solve]
    refine List.flatMap_congr fun c _ => ?_
    simp only [Option.toList_none, allWithoutEdgeNames, solveAll, List.flatMap_singleton']
    rfl
  | some inner =>
    rw [Constraint.withoutEdgeNames, Constraint.solve]
    refine List.flatMap_congr fun c _ => ?_
    simp only [Option.toList_some, allWithoutEdgeNames, solveAll, List.flatMap_singleton']
    rfl

mutual
/-- With the hierarchy of labels an affirmative constraint without names of edges is solved in more ways. -/
theorem subperm_solve (s : Scope) {c : Constraint} (hc : c.isAffirmative) (index : Int) (b : Bindings) :
    (c.withoutEdgeNames.solve s index b).Subperm (c.withoutEdgeNames.solve s.broad index b) := by
  match c with
  | .relation mode operator target none =>
    obtain rfl : mode = .plain := by simpa [Constraint.isAffirmative] using hc
    rw [solve_relation_withoutEdgeNames, solve_relation_withoutEdgeNames]
    exact subperm_flatMap (subperm_candidates s operator index) fun other => .refl _
  | .relation mode operator target (some inner) =>
    obtain ⟨rfl, hinner⟩ : mode = .plain ∧ inner.isAffirmative := by simpa [Constraint.isAffirmative] using hc
    rw [solve_relation_withoutEdgeNames, solve_relation_withoutEdgeNames]
    refine subperm_flatMap (subperm_candidates s operator index) fun other => subperm_flatMap (.refl _) fun b => ?_
    simp only [Option.toList_some, allWithoutEdgeNames, solveAll, List.flatMap_singleton']
    exact subperm_solve s hinner other b
  | .all mode children =>
    obtain ⟨rfl, hchildren⟩ : mode = .plain ∧ areAffirmative children := by simpa [Constraint.isAffirmative] using hc
    rw [Constraint.withoutEdgeNames, Constraint.solve, Constraint.solve]
    exact subperm_solveAll s hchildren index b
  | .any mode children =>
    obtain ⟨rfl, hchildren⟩ : mode = .plain ∧ areAffirmative children := by simpa [Constraint.isAffirmative] using hc
    rw [Constraint.withoutEdgeNames, Constraint.solve, Constraint.solve]
    exact subperm_solveAny s hchildren index b

theorem subperm_solveAll (s : Scope) {cs : List Constraint} (hcs : areAffirmative cs) (index : Int) (b : Bindings) :
    (solveAll s index b (allWithoutEdgeNames cs)).Subperm (solveAll s.broad index b (allWithoutEdgeNames cs)) := by
  match cs with
  | [] => exact .refl _
  | c :: cs =>
    obtain ⟨hc, hcs⟩ : c.isAffirmative ∧ areAffirmative cs := by simpa [areAffirmative] using hcs
    rw [allWithoutEdgeNames, solveAll, solveAll]
    exact subperm_flatMap (subperm_solve s hc index b) fun b => subperm_solveAll s hcs index b

theorem subperm_solveAny (s : Scope) {cs : List Constraint} (hcs : areAffirmative cs) (index : Int) (b : Bindings) :
    (solveAny s index b (allWithoutEdgeNames cs)).Subperm (solveAny s.broad index b (allWithoutEdgeNames cs)) := by
  match cs with
  | [] => exact .refl _
  | c :: cs =>
    obtain ⟨hc, hcs⟩ : c.isAffirmative ∧ areAffirmative cs := by simpa [areAffirmative] using hcs
    rw [allWithoutEdgeNames, solveAny, solveAny]
    exact (subperm_solve s hc index b).append (subperm_solveAny s hcs index b)
end

/-- With the hierarchy of labels an affirmative part without names of edges is filled in more ways. -/
theorem subperm_part (s : Scope) {p : Part} (hp : p.isAffirmative) (b : Bindings) :
    (p.withoutEdgeNames.solve s b).Subperm (p.withoutEdgeNames.solve s.broad b) := by
  have hconstraint : areAffirmative p.constraint.toList := by
    unfold Part.isAffirmative at hp
    cases hc : p.constraint with
    | none => rfl
    | some c => simpa [hc, areAffirmative] using hp
  refine subperm_flatMap (.refl s.graph.indices) fun index => subperm_map ?_ _
  refine subperm_flatMap (.refl (p.place.fill s index b).toList) fun b => ?_
  rw [solveOption_eq_solveAll, solveOption_eq_solveAll, Part.withoutEdgeNames, toList_withoutEdgeNames]
  exact subperm_solveAll s hconstraint index b

theorem subperm_solveParts (s : Scope) {ps : List Part} (hps : ps.all (·.isAffirmative)) (b : Bindings) :
    (solveParts s b (ps.map Part.withoutEdgeNames)).Subperm (solveParts s.broad b (ps.map Part.withoutEdgeNames)) := by
  induction ps generalizing b with
  | nil => exact .refl _
  | cons p ps ih =>
    obtain ⟨hp, hps⟩ : p.isAffirmative ∧ ps.all (·.isAffirmative) := by simpa using hps
    rw [List.map_cons, solveParts, solveParts]
    exact subperm_flatMap (subperm_part s hp b) fun q => ih hps q.2

end Pattern

open Pattern

/-! ## Matches -/

/-- A pattern without the names of its edges. -/
def Pattern.withoutEdgeNames (p : Pattern) : Pattern := { p with parts := p.parts.map Part.withoutEdgeNames, edgeNames := [] }

/-- A match as it binds tokens: the token at its top, and the names of places, in the order in which they were bound. -/
def Match.tokens (m : Match) : Int × List (String × Int) := (m.root, m.bindings.nodes)

namespace Matcher

/-- What the matches of a pattern bind to tokens is found without the names of its edges, if these stand once each. -/
theorem map_tokens_all {m : Matcher} (hm : m.pattern.namesFollowed) (hedges : (edgesOf m.pattern.mentions).Nodup) :
    m.all.map Match.tokens = (Matcher.mk m.pattern.withoutEdgeNames m.scope m.initial).all.map Match.tokens := by
  have hfresh : Bindings.Fresh { nodes := m.initial } m.pattern.mentions := ⟨hedges, by simp [Pairs.keys]⟩
  unfold Pattern.mentions at hfresh
  unfold Pattern.namesFollowed at hm
  unfold all Pattern.withoutEdgeNames
  cases hparts : m.pattern.parts with
  | nil => rfl
  | cons p ps =>
    rw [hparts] at hfresh hm
    obtain ⟨hp, hps⟩ : p.namesFollowed ∧ ps.all Part.namesFollowed := by simpa using hm
    rw [List.flatMap_cons] at hfresh
    have hrest : ∀ q ∈ p.solve m.scope { nodes := m.initial },
        ((solveParts m.scope q.2 ps).map fun b => ({ root := q.1, bindings := b } : Match)).map Match.tokens =
          ((solveParts m.scope q.2.withoutEdges (ps.map Part.withoutEdgeNames)).map fun b =>
            ({ root := q.1, bindings := b } : Match)).map Match.tokens := by
      intro q hq
      rw [← map_withoutEdges_solveParts m.scope hps (hfresh.after (captures_part hp hq))]
      simp only [List.map_map]
      rfl
    have hpart := map_withoutEdges_part m.scope hp hfresh.left
    change _ = p.withoutEdgeNames.solve m.scope { nodes := m.initial } at hpart
    simp only [List.map_cons, List.map_flatMap]
    rw [List.flatMap_congr hrest, ← hpart, List.flatMap_map]

/-- With the hierarchy of labels an affirmative pattern without names of edges has more matches. -/
theorem subperm_all {m : Matcher} (hm : m.pattern.isAffirmative) :
    (Matcher.mk m.pattern.withoutEdgeNames m.scope m.initial).all.Subperm
      (Matcher.mk m.pattern.withoutEdgeNames m.scope.broad m.initial).all := by
  unfold Pattern.isAffirmative at hm
  unfold all Pattern.withoutEdgeNames
  cases hparts : m.pattern.parts with
  | nil => exact .refl _
  | cons p ps =>
    rw [hparts] at hm
    obtain ⟨hp, hps⟩ : p.isAffirmative ∧ ps.all (·.isAffirmative) := by simpa using hm
    exact subperm_flatMap (subperm_part m.scope hp _) fun q => subperm_map (subperm_solveParts m.scope hps q.2) _

/-- In a pattern in which no constraint is negated or optional and no name of an edge stands twice, every way to bind tokens that a search
finds without the hierarchy of labels it finds with it, at least as often. -/
theorem findAll_hierarchical {options : PatternOptions} {text : String} {p : Pattern} (hp : ofText options text = .ok p)
    (haffirmative : p.isAffirmative) (hedges : (edgesOf p.mentions).Nodup) {g : Graph} {initial : List (String × Int)}
    {ignoreCase : Option Bool} {m : Matcher}
    (hm : ofPattern p g initial { ignoreCase := ignoreCase, hierarchical := some false } = .ok m) (sink : Sink) :
    ∃ m', ofPattern p g initial { ignoreCase := ignoreCase, hierarchical := some true } = .ok m' ∧
      ((m.findAll.run sink).1.map Match.tokens).Subperm ((m'.findAll.run sink).1.map Match.tokens) := by
  have hm' : ofPattern p g initial { ignoreCase := ignoreCase, hierarchical := some true } =
      .ok { m with scope := m.scope.broad } := by
    unfold ofPattern at hm ⊢
    split at hm
    · cases hm
    · cases hm
      rfl
  obtain ⟨rfl, -, -⟩ := mem_nodeNames_of_ofPattern hm
  have hfollowed := namesFollowed_ofText hp
  refine ⟨_, hm', ?_⟩
  change (m.all.map Match.tokens).Subperm ((Matcher.mk m.pattern m.scope.broad m.initial).all.map Match.tokens)
  rw [map_tokens_all hfollowed hedges, map_tokens_all (m := ⟨m.pattern, m.scope.broad, m.initial⟩) hfollowed hedges]
  exact subperm_map (subperm_all haffirmative) _

/-- So it is where the hierarchy leads to one token over another edge, and to a second token besides. -/
theorem findAll_hierarchical_other_edge :
    let first : Edge := { governor := 1, dependent := 2, relation := "nsubj" }
    let second : Edge := { governor := 1, dependent := 2, relation := "subj" }
    let third : Edge := { governor := 1, dependent := 3, relation := "csubj" }
    let graph : Graph :=
      { tokens := [(1, { index := 1 }), (2, { index := 2 }), (3, { index := 3 })]
        arcs := [⟨2, third⟩, ⟨1, second⟩, ⟨0, first⟩], fresh := 3 }
    let found (b : Int) (e : Edge) : Match := { root := 1, bindings := { nodes := [("a", 1), ("b", b)], edges := [("e", e)] } }
    ∃ p m m', ofText {} "\x7b\x7d=a >>subj=e \x7b\x7d=b" = .ok p ∧ p.isAffirmative ∧ (edgesOf p.mentions).Nodup ∧
      ofPattern p graph [] { hierarchical := some false } = .ok m ∧ (m.findAll.run {}).1 = [found 2 second] ∧
        ofPattern p graph [] { hierarchical := some true } = .ok m' ∧ (m'.findAll.run {}).1 = [found 2 first, found 3 third] ∧
          ((m.findAll.run {}).1.map Match.tokens).Subperm ((m'.findAll.run {}).1.map Match.tokens) := by
  intro first second third graph found
  obtain ⟨p, hp, hfacts⟩ := exists_ok_of_map_toOption (x := ofText {} "\x7b\x7d=a >>subj=e \x7b\x7d=b")
    (g := fun p => (p.isAffirmative, edgesOf p.mentions, (ofPattern p graph [] { hierarchical := some false }).toOption.map (·.all),
      (ofPattern p graph [] { hierarchical := some true }).toOption.map (·.all)))
    (b := (true, ["e"], some [found 2 second], some [found 2 first, found 3 third])) (by decide +kernel)
  simp only [Prod.mk.injEq] at hfacts
  obtain ⟨haffirmative, hedges, hexact, hbroad⟩ := hfacts
  have hnodup : (edgesOf p.mentions).Nodup := hedges ▸ List.nodup_singleton "e"
  obtain ⟨m, hm, hall⟩ := exists_ok_of_map_toOption hexact
  obtain ⟨m₁, hm₁, hall₁⟩ := exists_ok_of_map_toOption hbroad
  obtain ⟨m', hm', hsubperm⟩ := findAll_hierarchical hp haffirmative hnodup hm {}
  rw [hm₁] at hm'
  cases hm'
  exact ⟨p, m, m₁, hp, haffirmative, hnodup, hm, hall, hm₁, hall₁, hsubperm⟩

end Matcher

end Treebank

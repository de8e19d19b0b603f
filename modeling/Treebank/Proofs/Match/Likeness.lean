import Treebank.Match.Search
import Treebank.Proofs.Graph.Likeness

/-!
# Matching in graphs that are alike

A search looks at a graph through the order of the edges of each token, the places and attributes of tokens, and the roots. Whatever
an operator lists, and whatever a constraint, a part or a pattern finds, is found in an alike graph at the same place of the list, the
edges standing for each other (`Scope.Alike.candidates`, `alike_solve`, `Matcher.alike_all`).
-/

namespace Treebank

namespace Scope

open Pattern

/-- Scopes over alike graphs with the same options. -/
structure Alike (R : Edge → Edge → Prop) (s s' : Scope) : Prop where
  graph : Graph.Alike R s.graph s'.graph
  ignoreCase : s.ignoreCase = s'.ignoreCase
  hierarchical : s.hierarchical = s'.hierarchical

/-- Candidates with one token, found by edges that stand for each other. -/
def CandidateAlike (R : Edge → Edge → Prop) (c c' : Candidate) : Prop := c.1 = c'.1 ∧ Option.Rel R c.2 c'.2

variable {R : Edge → Edge → Prop} {es fs : List Edge}

/-! ## Lists of edges -/

/-- Edges that stand for each other lead to one token, in either direction. -/
theorem far_congr {a b : Edge} (h : a.outline = b.outline) (d : Direction) : d.far a = d.far b := by
  obtain ⟨hg, hd, -, -⟩ := Edge.outline_eq_iff.1 h
  cases d with
  | down => exact hd
  | up => exact hg

/-- Edges that stand for each other lead to the same tokens. -/
theorem map_far (hR : ∀ {a b}, R a b → a.outline = b.outline) (d : Direction) (he : List.Forall₂ R es fs) :
    es.map d.far = fs.map d.far := by
  refine Order.map_eq_of_forall₂ (fun a b hab => ?_) he
  exact far_congr (hR hab) d

/-- Leaving out edges that lead to the token of an earlier one. -/
theorem forall₂_firstToEach (hR : ∀ {a b}, R a b → a.outline = b.outline) (d : Direction) (he : List.Forall₂ R es fs) :
    List.Forall₂ R (firstToEach d.far es) (firstToEach d.far fs) := by
  induction he with
  | nil => exact .nil
  | @cons e f es fs hef _ ih =>
    refine .cons hef (Order.filter_of_forall₂ (fun a b hab => ?_) ih)
    rw [far_congr (hR hab), far_congr (hR hef)]

section

variable {accepts accepts' : Edge → Bool}

/-- Keeping the accepted edges that lead to new tokens. -/
theorem forall₂_firstReaching (hR : ∀ {a b}, R a b → a.outline = b.outline) (hacc : ∀ {a b}, R a b → accepts a = accepts' b)
    (d : Direction) (matched : List Int) (he : List.Forall₂ R es fs) :
    List.Forall₂ R (firstReaching d.far accepts matched es) (firstReaching d.far accepts' matched fs) := by
  induction he generalizing matched with
  | nil => exact .nil
  | @cons e f es fs hef _ ih =>
    simp only [firstReaching, hacc hef, far_congr (hR hef)]
    split
    · exact .cons hef (ih _)
    · exact ih _

variable {next next' : Int → List Edge}

/-- A search of any depth finds what it finds in an alike graph: both pass the same tokens and match the same ones. -/
theorem forall₂_descend (hR : ∀ {a b}, R a b → a.outline = b.outline) (hacc : ∀ {a b}, R a b → accepts a = accepts' b)
    (d : Direction) (hnext : ∀ index, List.Forall₂ R (next index) (next' index)) (unsearched matched stack : List Int) :
    List.Forall₂ R (descend d next accepts unsearched matched stack) (descend d next' accepts' unsearched matched stack) := by
  induction unsearched, matched, stack using descend.induct d next accepts with
  | case1 unsearched matched =>
    rw [descend, descend]
    exact .nil
  | case2 unsearched matched index stack edges found hits ih =>
    have hhits : List.Forall₂ R hits (firstReaching d.far accepts' matched (next' index)) :=
      forall₂_firstReaching hR hacc d matched (hnext index)
    rw [descend, descend, ← map_far hR d (hnext index), ← map_far hR d hhits]
    exact List.rel_append hhits ih

/-- A search between bounds finds what it finds in an alike graph. -/
theorem forall₂_descendWithin (hR : ∀ {a b}, R a b → a.outline = b.outline) (hacc : ∀ {a b}, R a b → accepts a = accepts' b)
    (d : Direction) (hnext : ∀ index, List.Forall₂ R (next index) (next' index)) (least left depth : Nat) (returned : List Int)
    (he : List.Forall₂ R es fs) :
    List.Forall₂ R (descendWithin d next accepts least left depth returned es)
      (descendWithin d next' accepts' least left depth returned fs) := by
  have hlevel : ∀ (depth : Nat) (returned : List Int) {es fs : List Edge}, List.Forall₂ R es fs →
      List.Forall₂ R (if least ≤ depth then firstReaching d.far accepts returned es else [])
        (if least ≤ depth then firstReaching d.far accepts' returned fs else []) := by
    intro depth returned es fs he
    split
    · exact forall₂_firstReaching hR hacc d returned he
    · exact .nil
  induction left generalizing depth returned es fs with
  | zero =>
    simp only [descendWithin]
    exact hlevel depth returned (forall₂_firstToEach hR d he)
  | succ left ih =>
    have hkept := forall₂_firstToEach hR d he
    have hhits := hlevel depth returned hkept
    simp only [descendWithin, Order.isEmpty_eq_of_forall₂ he]
    split
    · exact .nil
    · rw [map_far hR d hhits]
      refine List.rel_append hhits (ih _ _ (List.rel_flatMap (List.rel_reverse hkept) fun a b hab => ?_))
      rw [far_congr (hR hab)]
      exact hnext _

end

/-! ## Candidates -/

namespace Alike

variable {s s' : Scope}

/-- Edges that stand for each other have labels that are accepted together. -/
theorem acceptsEdge (hs : Alike R s s') (o : Operator) {a b : Edge} (hab : R a b) : s.acceptsEdge o a = s'.acceptsEdge o b := by
  have hr := (Edge.outline_eq_iff.1 (hs.graph.outline hab)).2.2.1
  rw [Scope.acceptsEdge, Scope.acceptsEdge, hs.hierarchical, hr]

/-- The edges that are followed stand for each other. -/
theorem edges (hs : Alike R s s') (d : Direction) (index : Int) :
    List.Forall₂ R (d.edges s.graph index) (d.edges s'.graph index) := by
  cases d with
  | down => exact hs.graph.outgoing index
  | up => exact hs.graph.incoming index

/-- Edges that stand for each other make alike candidates. -/
theorem candidatesOfEdges (hs : Alike R s s') (d : Direction) (he : List.Forall₂ R es fs) :
    List.Forall₂ (CandidateAlike R) (es.map fun e => (d.far e, some e)) (fs.map fun e => (d.far e, some e)) := by
  refine List.rel_map (fun a b hab => ?_) he
  exact ⟨far_congr (hs.graph.outline hab) d, .some hab⟩

/-- Neighbours over one edge. -/
theorem neighbours (hs : Alike R s s') (o : Operator) (d : Direction) (index : Int) :
    List.Forall₂ (CandidateAlike R) (s.neighbours o d index) (s'.neighbours o d index) := by
  refine hs.candidatesOfEdges d (Order.filter_of_forall₂ (fun a b hab => ?_) ?_)
  · rw [hs.acceptsEdge o hab]
  · refine Edge.forall₂_firstOfEach hs.graph.outline (fun hab => ?_) (hs.edges d index)
    exact far_congr (hs.graph.outline hab) d

/-- Tokens at the end of paths. -/
theorem reached (hs : Alike R s s') (o : Operator) (d : Direction) (index : Int) :
    List.Forall₂ (CandidateAlike R) (s.reached o d index) (s'.reached o d index) := by
  refine hs.candidatesOfEdges d ?_
  split
  · exact forall₂_descendWithin hs.graph.outline (hs.acceptsEdge o) d (hs.edges d) _ _ _ _ (hs.edges d index)
  · rw [hs.graph.indices]
    exact forall₂_descend hs.graph.outline (hs.acceptsEdge o) d (hs.edges d) _ _ _

/-- Positions. -/
theorem position (hs : Alike R s s') (index : Int) : s.position index = s'.position index := by
  unfold Scope.position
  rcases Pairs.rel_cases (hs.graph.token? index) with ⟨hg, hh⟩ | ⟨t, u, hg, hh, htu⟩ <;> rw [hg, hh]
  exact htu.position

/-- Tokens make candidates without edges. -/
theorem candidatesOfTokens (R : Edge → Edge → Prop) {l l' : List (Int × Token)} (hl : List.Forall₂ Graph.EntryAlike l l')
    (test : Token → Bool) (htest : ∀ {t u : Token}, t.Alike u → test t = test u) :
    List.Forall₂ (CandidateAlike R) ((l.filter fun x => test x.2).map fun x => (x.1, none))
      ((l'.filter fun x => test x.2).map fun x => (x.1, none)) := by
  refine List.rel_map (fun x y hxy => ?_) (Order.filter_of_forall₂ (fun x y hxy => ?_) hl)
  · exact ⟨hxy.1, .none⟩
  · rw [htest hxy.2]

/-- Ordinary tokens at the next position. -/
theorem nextWords (hs : Alike R s s') (index : Int) :
    List.Forall₂ (CandidateAlike R) (s.nextWords index) (s'.nextWords index) := by
  unfold Scope.nextWords
  rw [hs.position index]
  refine candidatesOfTokens R hs.graph.tokens (fun t => !t.isEmptyNode && t.position == s'.position index + 1) ?_
  intro t u htu
  rw [Token.isEmptyNode_congr htu, htu.position]

/-- Dependents of the governors of a token. -/
theorem siblings (hs : Alike R s s') (test : Int → Bool) (index : Int) :
    List.Forall₂ (CandidateAlike R) (s.siblings test index) (s'.siblings test index) := by
  unfold Scope.siblings
  have hchildren : s.graph.children = s'.graph.children := funext hs.graph.children
  rw [hs.graph.parents index, hchildren]
  refine candidatesOfTokens R (hs.graph.sortedEntries _) (fun t => test t.position) ?_
  intro t u htu
  rw [htu.position]

/-- An operator lists the same tokens in the same order. -/
theorem candidates (hs : Alike R s s') (o : Operator) (index : Int) :
    List.Forall₂ (CandidateAlike R) (s.candidates o index) (s'.candidates o index) := by
  unfold Scope.candidates
  rw [hs.position index]
  cases o.kind with
  | child => exact hs.neighbours o .down index
  | parent => exact hs.neighbours o .up index
  | descendant => exact hs.reached o .down index
  | ancestor => exact hs.reached o .up index
  | same => exact .cons ⟨rfl, .none⟩ .nil
  | nextWord => exact hs.nextWords index
  | rightNeighbour => exact hs.siblings _ index
  | leftNeighbour => exact hs.siblings _ index
  | rightSibling => exact hs.siblings _ index
  | leftSibling => exact hs.siblings _ index

end Alike

end Scope

/-! ## Bindings -/

namespace Pattern

open Scope

/-- Bindings of the same names to the same tokens and to edges that stand for each other. -/
structure Bindings.Alike (R : Edge → Edge → Prop) (b c : Bindings) : Prop where
  nodes : b.nodes = c.nodes
  edges : List.Forall₂ (fun x y => x.1 = y.1 ∧ R x.2 y.2) b.edges c.edges

variable {R : Edge → Edge → Prop} {s s' : Scope} {b c : Bindings}

/-- Binding a place. -/
theorem Bindings.Alike.bindNode (hbc : Bindings.Alike R b c) (name : Option String) (index : Int) :
    Option.Rel (Bindings.Alike R) (b.bindNode name index) (c.bindNode name index) := by
  cases name with
  | none => exact .some hbc
  | some name =>
    simp only [Bindings.bindNode, hbc.nodes]
    split
    · exact .some ⟨rfl, hbc.edges⟩
    · split
      · exact .some hbc
      · exact .none

/-- Binding an edge; that labels are compared is why only edges of one outline may stand for each other. -/
theorem Bindings.Alike.bindEdge (hbc : Bindings.Alike R b c) (hR : ∀ {a b}, R a b → a.outline = b.outline) (name : Option String)
    {edge edge' : Option Edge} (he : Option.Rel R edge edge') :
    Option.Rel (Bindings.Alike R) (b.bindEdge name edge) (c.bindEdge name edge') := by
  cases he with
  | none => cases name <;> exact .some hbc
  | @some e f hef =>
    cases name with
    | none => exact .some hbc
    | some name =>
      have hr := (Edge.outline_eq_iff.1 (hR hef)).2.2.1
      rcases Pairs.rel_cases (Pairs.rel_lookup hbc.edges name) with ⟨hb, hc⟩ | ⟨bound, bound', hb, hc, hbound⟩
      · simp only [Bindings.bindEdge, hb, hc]
        exact .some ⟨hbc.nodes, List.rel_append hbc.edges (.cons ⟨rfl, hef⟩ .nil)⟩
      · have hr' := (Edge.outline_eq_iff.1 (hR hbound)).2.2.1
        simp only [Bindings.bindEdge, hb, hc, hr, hr']
        split
        · exact .some hbc
        · exact .none

/-! ## Solutions -/

/-- Tokens that are alike are accepted together. -/
theorem Description.accepts_congr (d : Description) (ignoreCase isRoot : Bool) {t u : Token} (h : t.Alike u) :
    d.accepts ignoreCase isRoot t = d.accepts ignoreCase isRoot u := by
  have hattr : t.attribute? = u.attribute? := funext h.attributes
  simp only [Description.accepts, Description.holds, hattr]

/-- Filling a place. -/
theorem alike_fill (hs : Scope.Alike R s s') (p : Place) (index : Int) (hbc : Bindings.Alike R b c) :
    Option.Rel (Bindings.Alike R) (p.fill s index b) (p.fill s' index c) := by
  unfold Place.fill
  rcases Pairs.rel_cases (hs.graph.token? index) with ⟨hg, hh⟩ | ⟨t, u, hg, hh, htu⟩
  · rw [hg, hh]
    exact .none
  · simp only [hg, hh, hs.ignoreCase, hs.graph.isRoot index, Description.accepts_congr _ _ _ htu]
    split
    · exact hbc.bindNode p.name index
    · exact .none

/-- What there is, as a list. -/
theorem forall₂_toList {b? c? : Option Bindings} (h : Option.Rel (Bindings.Alike R) b? c?) :
    List.Forall₂ (Bindings.Alike R) b?.toList c?.toList := by
  cases h with
  | none => exact .nil
  | some hbc => exact .cons hbc .nil

/-- Binding an edge and filling the place that it leads to. -/
theorem alike_bind (hs : Scope.Alike R s s') (name : Option String) (p : Place) {x y : Candidate} (hxy : CandidateAlike R x y)
    (hbc : Bindings.Alike R b c) :
    List.Forall₂ (Bindings.Alike R) ((b.bindEdge name x.2).bind (p.fill s x.1)).toList
      ((c.bindEdge name y.2).bind (p.fill s' y.1)).toList := by
  rw [hxy.1]
  rcases Pairs.rel_cases (hbc.bindEdge hs.graph.outline name hxy.2) with ⟨hb, hc⟩ | ⟨b', c', hb, hc, hbc'⟩ <;> rw [hb, hc]
  · exact .nil
  · rw [Option.bind_some, Option.bind_some]
    exact forall₂_toList (alike_fill hs p y.1 hbc')

/-- What a mode makes of solutions. -/
theorem alike_select (mode : Mode) (hbc : Bindings.Alike R b c) {bs cs : List Bindings}
    (h : List.Forall₂ (Bindings.Alike R) bs cs) : List.Forall₂ (Bindings.Alike R) (mode.select b bs) (mode.select c cs) := by
  have hempty := Order.isEmpty_eq_of_forall₂ h
  cases mode with
  | plain => exact h
  | negated =>
    simp only [Mode.select, hempty]
    split
    · exact .cons hbc .nil
    · exact .nil
  | optional =>
    simp only [Mode.select, hempty]
    split
    · exact .cons hbc .nil
    · exact h

mutual
/-- A constraint has alike solutions in alike scopes. -/
theorem alike_solve (hs : Scope.Alike R s s') (k : Constraint) (index : Int) {b c : Bindings} (hbc : Bindings.Alike R b c) :
    List.Forall₂ (Bindings.Alike R) (k.solve s index b) (k.solve s' index c) := by
  match k with
  | .relation mode operator target none =>
    simp only [Constraint.solve]
    refine alike_select mode hbc (List.rel_flatMap (hs.candidates operator index) fun x y hxy => ?_)
    exact alike_bind hs operator.edgeName target hxy hbc
  | .relation mode operator target (some inner) =>
    simp only [Constraint.solve]
    refine alike_select mode hbc (List.rel_flatMap (hs.candidates operator index) fun x y hxy => ?_)
    refine List.rel_flatMap (alike_bind hs operator.edgeName target hxy hbc) fun b' c' hbc' => ?_
    rw [hxy.1]
    exact alike_solve hs inner y.1 hbc'
  | .all mode children =>
    simp only [Constraint.solve]
    exact alike_select mode hbc (alike_solveAll hs children index hbc)
  | .any mode children =>
    simp only [Constraint.solve]
    exact alike_select mode hbc (alike_solveAny hs children index hbc)

/-- Constraints one after the other. -/
theorem alike_solveAll (hs : Scope.Alike R s s') (ks : List Constraint) (index : Int) {b c : Bindings}
    (hbc : Bindings.Alike R b c) : List.Forall₂ (Bindings.Alike R) (solveAll s index b ks) (solveAll s' index c ks) := by
  match ks with
  | [] => exact .cons hbc .nil
  | k :: ks =>
    simp only [solveAll]
    exact List.rel_flatMap (alike_solve hs k index hbc) fun b' c' hbc' => alike_solveAll hs ks index hbc'

/-- Constraints of which any has to hold. -/
theorem alike_solveAny (hs : Scope.Alike R s s') (ks : List Constraint) (index : Int) {b c : Bindings}
    (hbc : Bindings.Alike R b c) : List.Forall₂ (Bindings.Alike R) (solveAny s index b ks) (solveAny s' index c ks) := by
  match ks with
  | [] => exact .nil
  | k :: ks =>
    simp only [solveAny]
    exact List.rel_append (alike_solve hs k index hbc) (alike_solveAny hs ks index hbc)
end

/-- What may be on a token. -/
theorem alike_solveOption (hs : Scope.Alike R s s') (k? : Option Constraint) (index : Int) (hbc : Bindings.Alike R b c) :
    List.Forall₂ (Bindings.Alike R) (solveOption s index b k?) (solveOption s' index c k?) := by
  cases k? with
  | none => exact .cons hbc .nil
  | some k => exact alike_solve hs k index hbc

/-- A part with its top token. -/
theorem alike_solveAt (hs : Scope.Alike R s s') (p : Part) (index : Int) (hbc : Bindings.Alike R b c) :
    List.Forall₂ (Bindings.Alike R) (p.solveAt s b index) (p.solveAt s' c index) := by
  unfold Part.solveAt
  refine List.rel_flatMap (forall₂_toList (alike_fill hs p.place index hbc)) fun b' c' hbc' => ?_
  exact alike_solveOption hs p.constraint index hbc'

/-- A part, its top tokens by ascending index. -/
theorem alike_part (hs : Scope.Alike R s s') (p : Part) (hbc : Bindings.Alike R b c) :
    List.Forall₂ (fun x y => x.1 = y.1 ∧ Bindings.Alike R x.2 y.2) (p.solve s b) (p.solve s' c) := by
  unfold Part.solve
  rw [hs.graph.indices]
  refine List.rel_flatMap (R := Eq) (List.forall₂_refl _) fun i j hij => ?_
  subst hij
  exact List.rel_map (fun b' c' hbc' => ⟨rfl, hbc'⟩) (alike_solveAt hs p i hbc)

/-- Parts one after the other. -/
theorem alike_solveParts (hs : Scope.Alike R s s') (ps : List Part) (hbc : Bindings.Alike R b c) :
    List.Forall₂ (Bindings.Alike R) (solveParts s b ps) (solveParts s' c ps) := by
  induction ps generalizing b c with
  | nil => exact .cons hbc .nil
  | cons p ps ih => exact List.rel_flatMap (alike_part hs p hbc) fun x y hxy => ih hxy.2

end Pattern

/-! ## Matches -/

/-- Matches at one token with alike bindings. -/
def Match.Alike (R : Edge → Edge → Prop) (m m' : Match) : Prop := m.root = m'.root ∧ Pattern.Bindings.Alike R m.bindings m'.bindings

variable {R : Edge → Edge → Prop}

/-- A pattern has alike matches, in one order, in alike scopes. -/
theorem Matcher.alike_all {s s' : Scope} (hs : Scope.Alike R s s') (p : Pattern) (initial : List (String × Int)) :
    List.Forall₂ (Match.Alike R) (Matcher.all ⟨p, s, initial⟩) (Matcher.all ⟨p, s', initial⟩) := by
  unfold Matcher.all
  cases p.parts with
  | nil => exact .nil
  | cons part parts =>
    refine List.rel_flatMap (Pattern.alike_part hs part ⟨rfl, .nil⟩) fun x y hxy => ?_
    refine List.rel_map (fun b c hbc => ?_) (Pattern.alike_solveParts hs parts hxy.2)
    exact ⟨hxy.1, hbc⟩

/-- Matchers are refused for the same reasons in alike graphs, and else search in alike scopes. -/
theorem Matcher.alike_ofPattern {g h : Graph} (hA : Graph.Alike R g h) (p : Pattern) (initial : List (String × Int)) (o : Overrides) :
    (∃ refusal, ofPattern p g initial o = .error refusal ∧ ofPattern p h initial o = .error refusal) ∨
      ∃ s s', Scope.Alike R s s' ∧ ofPattern p g initial o = .ok ⟨p, s, initial⟩ ∧ ofPattern p h initial o = .ok ⟨p, s', initial⟩ := by
  have hrefusal : refusal? p g = refusal? p h := by
    funext binding
    simp only [refusal?, hA.hasToken]
  unfold ofPattern
  rw [hrefusal]
  cases initial.findSome? (refusal? p h) with
  | some refusal => exact .inl ⟨refusal, rfl, rfl⟩
  | none =>
    refine .inr ⟨⟨g, o.ignoreCase.getD p.options.ignoreCase, o.hierarchical.getD p.options.hierarchical⟩,
      ⟨h, o.ignoreCase.getD p.options.ignoreCase, o.hierarchical.getD p.options.hierarchical⟩, ?_, rfl, rfl⟩
    exact ⟨hA, rfl, rfl⟩

end Treebank

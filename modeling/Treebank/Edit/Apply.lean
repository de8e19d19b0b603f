import Treebank.Edit.Reference
import Treebank.Graph.Reach

/-!
# Applying edits

An edit first looks up the names that it reads; if one of them fails, nothing has changed. Edits of a list are applied one after the
other, each to what the one before it left.
-/

namespace Treebank

/-- A token with an attribute more. The names of fields set those. -/
def Token.withAttribute (t : Token) (entry : String × String) : Token :=
  match entry with
  | ("word", value) | ("text", value) | ("value", value) => { t with word := value }
  | ("lemma", value) => { t with baseForm := value }
  | ("tag", value) | ("pos", value) | ("xpos", value) => { t with tag := value }
  | ("upos", value) | ("cpos", value) => { t with upos := value }
  | (name, value) => { t with attrs := Pairs.put t.attrs name value }

/-- The token of some attributes. -/
def Token.ofAttributes (index position : Int) (attributes : List (String × String)) : Token :=
  attributes.foldl Token.withAttribute { index := index, position := position }

namespace Graph

/-- The graph without some tokens. -/
def withoutTokens (g : Graph) (indices : List Int) : Graph := indices.foldl withoutToken g

/-- The graph without some edges. -/
def withoutEdges (g : Graph) (es : List Edge) : Graph := es.foldl withoutEdge g

/-- The graph without the first edge that is asked for, if there is one. -/
def withoutFirst (g : Graph) (q : EdgeQuery) : Graph := g.withoutEdges (g.edge? q).toList

/-- The graph with an edge more, unless there is one with its ends and its relation. -/
def withRelation (g : Graph) (e : Edge) : Graph :=
  if (g.edge? { governor := e.governor, dependent := e.dependent, relation := some e.relation }).isSome then g else g.withEdge e

/-- The tokens that are roots or are reached from one over any edges, ascending. -/
def rooted (g : Graph) : List Int := g.reachedFrom g.successors g.roots

end Graph

namespace Edit

/-- The same names over another graph. -/
def Workspace.over (w : Workspace) (g : Graph) : Workspace := { w with graph := g }

/-- A name more that is bound to a token, if the name is given. -/
def Workspace.bind (w : Workspace) (name : Option String) (index : Int) : Workspace :=
  match given? name with
  | some name => { w with bindings := { w.bindings with nodes := Pairs.put w.bindings.nodes name index } }
  | none => w

/-- Removes an edge. -/
def Removal.apply (r : Removal) (w : Workspace) : Except ReferenceError Workspace :=
  match given? r.edge with
  | some name => do
    let e ← w.edge name
    let _ ← ([r.governor, r.dependent].filterMap given?).mapM w.node
    return w.over (w.graph.withoutEdge e)
  | none => do
    let governor ← w.node (r.governor.getD "")
    let dependent ← w.node (r.dependent.getD "")
    return w.over (w.graph.withoutFirst { governor := governor, dependent := dependent, relation := r.relation })

/-- Applies an edit. -/
def apply (w : Workspace) : Edit → Except ReferenceError Workspace
  | removeEdge r => r.apply w
  | addEdge governor dependent relation weight extra => do
    let governor ← w.node governor
    let dependent ← w.node dependent
    return w.over (w.graph.withRelation ⟨governor, dependent, relation, weight, extra⟩)
  | addDependent governor relation attributes name weight => do
    let governor ← w.node governor
    let index := w.graph.nextIndex
    let position := (w.graph.leftmostPosition governor).toOption.getD index
    let g := w.graph.withToken (Token.ofAttributes index position attributes)
    return (w.over (g.withEdge ⟨governor, index, relation, weight, false⟩)).bind name index
  | delete node => do
    let top ← w.node node
    return w.over (w.graph.withoutTokens (w.graph.subtree top)).resetRoots
  | addNode attributes name =>
    let index := w.graph.nextIndex
    .ok ((w.over (w.graph.withToken (Token.ofAttributes index index attributes))).bind name index)
  | setRoots names => do
    let indices ← names.mapM w.node
    return w.over ((w.graph.setRoots indices).toOption.getD w.graph)
  | killNonRootedNodes => .ok (w.over (w.graph.withoutTokens (w.graph.indices.filter (! w.graph.rooted.contains ·))))
  | killAllIncomingEdges node => do
    let target ← w.node node
    return w.over (w.graph.withoutEdges (w.graph.incoming target))

/-- Applies edits one after the other. -/
def applyAll (w : Workspace) (edits : List Edit) : Except ReferenceError Workspace := edits.foldlM apply w

end Edit

end Treebank

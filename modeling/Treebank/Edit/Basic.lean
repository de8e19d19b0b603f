import Treebank.Decimal.Shortest

/-!
# Edits

An edit is one change of a graph. It speaks of tokens and edges by the names that a match has bound to them; an edit that makes a
token may bind a new name to it. An empty name counts as no name.
-/

namespace Treebank

namespace Edit

/-- A name that is given, and not empty. -/
def given? (name : Option String) : Option String := name.filter (· != "")

/-- Attributes by name, as a new token gets them. -/
abbrev Attributes := List (String × String)

/-- Which edge to remove: the one that a name is bound to, or else the first one between two tokens, of a relation if one is
named. -/
structure Removal where
  edge : Option String := none
  governor : Option String := none
  dependent : Option String := none
  relation : Option String := none
  targeted : ((given? edge).isSome || ((given? governor).isSome && (given? dependent).isSome)) = true
  deriving DecidableEq, Repr

end Edit

open Edit in
/-- An edit. -/
inductive Edit where
  /-- Removes an edge, if it is there. -/
  | removeEdge (removal : Removal)
  /-- Adds an edge, unless there is one with its ends and its relation. -/
  | addEdge (governor dependent relation : String) (weight : Binary64) (extra : Bool)
  /-- Makes a token under another one. -/
  | addDependent (governor relation : String) (attributes : Attributes) (name : Option String) (weight : Binary64)
  /-- Removes a token with its plain subtree, and finds the roots anew. -/
  | delete (node : String)
  /-- Makes a token without edges. -/
  | addNode (attributes : Attributes) (name : Option String)
  /-- Makes tokens the roots, in place of the old ones. -/
  | setRoots (names : List String)
  /-- Removes the tokens that no root reaches. -/
  | killNonRootedNodes
  /-- Removes the edges into a token. -/
  | killAllIncomingEdges (node : String)
  deriving DecidableEq, Repr, Inhabited

namespace Edit

/-- The names of tokens that an edit reads. -/
def nodeReferences : Edit → List String
  | removeEdge r => [r.governor, r.dependent].filterMap given?
  | addEdge governor dependent .. => [governor, dependent]
  | addDependent governor .. => [governor]
  | delete node => [node]
  | addNode .. => []
  | setRoots names => names
  | killNonRootedNodes => []
  | killAllIncomingEdges node => [node]

/-- The names of edges that an edit reads. -/
def edgeReferences : Edit → List String
  | removeEdge r => (given? r.edge).toList
  | _ => []

/-- The names that an edit binds. -/
def introducedNames : Edit → List String
  | addDependent _ _ _ name _ => (given? name).toList
  | addNode _ name => (given? name).toList
  | _ => []

/-- Whether two lists of attributes hold the same values under the same names, in whatever order. -/
def Attributes.same (a b : Attributes) : Bool :=
  a.length == b.length && a.all fun (name, value) => b.lookup name == some value

/-- Whether two edits are equal; weights are compared as numbers. -/
def same : Edit → Edit → Bool
  | addEdge g d r w x, addEdge g' d' r' w' x' => g == g' && d == d' && r == r' && w.same w' && x == x'
  | addDependent g r a n w, addDependent g' r' a' n' w' => g == g' && r == r' && a.same a' && n == n' && w.same w'
  | addNode a n, addNode a' n' => a.same a' && n == n'
  | a, b => decide (a = b)

end Edit

end Treebank

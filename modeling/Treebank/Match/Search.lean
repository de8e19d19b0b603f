import Treebank.Diagnostics
import Treebank.Match.Candidate

/-!
# Matching

A search lists every way to fill the places of a pattern with tokens of a graph. Parts are filled one after the other, each from the
tokens by ascending index; constraints are solved from left to right. Two places with one name are filled by one token, and two edges
with one name have one relation label. What is bound under a negation does not outlast it.
-/

namespace Treebank

namespace Pattern

/-- What the names of a pattern are bound to. -/
structure Bindings where
  nodes : List (String × Int) := []
  edges : List (String × Edge) := []
  deriving DecidableEq, Repr, Inhabited

/-- Binds the name of a place, if it has one, to a token; nothing if the name is bound to another token. -/
def Bindings.bindNode (b : Bindings) (name : Option String) (index : Int) : Option Bindings :=
  match name with
  | none => some b
  | some name =>
    match b.nodes.lookup name with
    | none => some { b with nodes := b.nodes ++ [(name, index)] }
    | some bound => if bound = index then some b else none

/-- Binds the name of an edge, if it has one, to an edge; nothing if the name is bound to an edge with another label, and no change
if it is bound to one with the same label. -/
def Bindings.bindEdge (b : Bindings) (name : Option String) (edge : Option Edge) : Option Bindings :=
  match name, edge with
  | some name, some edge =>
    match b.edges.lookup name with
    | none => some { b with edges := b.edges ++ [(name, edge)] }
    | some bound => if bound.relation = edge.relation then some b else none
  | _, _ => some b

/-- Fills a place with a token. -/
def Place.fill (p : Place) (s : Scope) (index : Int) (b : Bindings) : Option Bindings :=
  match s.graph.token? index with
  | none => none
  | some t => if p.description.accepts s.ignoreCase (s.graph.isRoot index) t then b.bindNode p.name index else none

/-- What the mode of a constraint makes of its solutions. -/
def Mode.select (m : Mode) (b : Bindings) (solutions : List Bindings) : List Bindings :=
  match m with
  | .plain => solutions
  | .negated => if solutions.isEmpty then [b] else []
  | .optional => if solutions.isEmpty then [b] else solutions

mutual
/-- The ways to satisfy a constraint on a token. -/
def Constraint.solve (s : Scope) (index : Int) (b : Bindings) : Constraint → List Bindings
  | .relation mode operator target none =>
    mode.select b <| (s.candidates operator index).flatMap fun (other, edge) =>
      ((b.bindEdge operator.edgeName edge).bind (target.fill s other)).toList
  | .relation mode operator target (some inner) =>
    mode.select b <| (s.candidates operator index).flatMap fun (other, edge) =>
      ((b.bindEdge operator.edgeName edge).bind (target.fill s other)).toList.flatMap fun b => inner.solve s other b
  | .all mode children => mode.select b (solveAll s index b children)
  | .any mode children => mode.select b (solveAny s index b children)

/-- The ways to satisfy all of some constraints, one after the other. -/
def solveAll (s : Scope) (index : Int) (b : Bindings) : List Constraint → List Bindings
  | [] => [b]
  | c :: cs => (c.solve s index b).flatMap fun b => solveAll s index b cs

/-- The ways to satisfy any of some constraints. -/
def solveAny (s : Scope) (index : Int) (b : Bindings) : List Constraint → List Bindings
  | [] => []
  | c :: cs => c.solve s index b ++ solveAny s index b cs
end

/-- The ways to satisfy what may be on a token, if anything is. -/
def solveOption (s : Scope) (index : Int) (b : Bindings) : Option Constraint → List Bindings
  | none => [b]
  | some c => c.solve s index b

/-- The ways to fill a part, the token at its top being given. -/
def Part.solveAt (p : Part) (s : Scope) (b : Bindings) (index : Int) : List Bindings :=
  (p.place.fill s index b).toList.flatMap fun b => solveOption s index b p.constraint

/-- The ways to fill a part, each with the token at its top. -/
def Part.solve (p : Part) (s : Scope) (b : Bindings) : List (Int × Bindings) :=
  s.graph.indices.flatMap fun index => (p.solveAt s b index).map (index, ·)

/-- The ways to fill parts one after the other. -/
def solveParts (s : Scope) (b : Bindings) : List Part → List Bindings
  | [] => [b]
  | p :: ps => (p.solve s b).flatMap fun (_, b) => solveParts s b ps

end Pattern

/-- One way to fill a pattern: the token at the top of the first part, and the bindings. -/
structure Match where
  root : Int
  bindings : Pattern.Bindings
  deriving DecidableEq, Repr, Inhabited

namespace Match

/-- The token that a name is bound to. -/
def node? (m : Match) (name : String) : Option Int := m.bindings.nodes.lookup name

/-- The edge that a name is bound to. -/
def edge? (m : Match) (name : String) : Option Edge := m.bindings.edges.lookup name

/-- The relation labels of the bound edges. -/
def relations (m : Match) : List (String × String) := m.bindings.edges.map fun (name, e) => (name, e.relation)

end Match

/-- A pattern that is to be matched in a graph. -/
structure Matcher where
  pattern : Pattern
  scope : Scope
  /-- What names are bound to from the start. -/
  initial : List (String × Int) := []

namespace Matcher

/-- Why a pattern cannot be matched from given bindings. -/
inductive Refusal where
  | unknownName (name : String)
  | graph (error : GraphError)
  deriving DecidableEq, Repr

/-- The message of a refusal. -/
def Refusal.message : Refusal → String
  | unknownName name => "Initial binding '" ++ name ++ "' is not a node name of the pattern"
  | graph error => error.message

/-- What is wrong with a binding from the start. -/
def refusal? (p : Pattern) (g : Graph) (binding : String × Int) : Option Refusal :=
  if !p.nodeNames.contains binding.1 then some (.unknownName binding.1)
  else if !g.hasToken binding.2 then some (.graph (.tokenMissing binding.2))
  else none

/-- Options that are given for one search, in place of those of the pattern. -/
structure Overrides where
  ignoreCase : Option Bool := none
  hierarchical : Option Bool := none

/-- Prepares a search. -/
def ofPattern (p : Pattern) (g : Graph) (initial : List (String × Int)) (o : Overrides) : Except Refusal Matcher :=
  match initial.findSome? (refusal? p g) with
  | some refusal => .error refusal
  | none =>
    .ok
      { pattern := p
        scope :=
          { graph := g
            ignoreCase := o.ignoreCase.getD p.options.ignoreCase
            hierarchical := o.hierarchical.getD p.options.hierarchical }
        initial := initial }

/-- A search in which nothing is bound from the start, with the options of the pattern. -/
def plain (p : Pattern) (g : Graph) : Matcher where
  pattern := p
  scope := { graph := g, ignoreCase := p.options.ignoreCase, hierarchical := p.options.hierarchical }

/-- All matches. -/
def all (m : Matcher) : List Match :=
  match m.pattern.parts with
  | [] => []
  | p :: ps =>
    (p.solve m.scope { nodes := m.initial }).flatMap fun (root, b) =>
      (Pattern.solveParts m.scope b ps).map fun b => { root := root, bindings := b }

/-- The counter of matches. It is changed when a search comes to its end. -/
def foundCounter : String := "matches_found"

/-- All matches, counted. -/
def findAll (m : Matcher) : StateM Sink (List Match) := do
  modify (·.increment foundCounter m.all.length)
  return m.all

/-- The first match; a search that finds one stops there, before its end. -/
def findFirst (m : Matcher) : StateM Sink (Option Match) := do
  match m.all with
  | [] =>
    modify (·.increment foundCounter 0)
    return none
  | found :: _ => return some found

/-- The matches with the given token at the top. -/
def findAt (m : Matcher) (index : Int) : Recorded Refusal (List Match) := do
  if m.scope.graph.hasToken index then
    let found ← m.findAll
    return found.filter (·.root == index)
  else throw (.graph (.tokenMissing index))

/-- Whether there is a match. -/
def hasMatch (m : Matcher) : StateM Sink Bool := do return (← m.findFirst).isSome

end Matcher

end Treebank

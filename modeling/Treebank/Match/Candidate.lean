import Treebank.Graph.Reach
import Treebank.Pattern.Basic

/-!
# Candidates

The tokens that are related to a token by an operator, in the order in which a search tries them, each with the edge that shows it
if the relation is one over edges.
-/

namespace Treebank

/-- How a search goes through a graph. -/
structure Scope where
  graph : Graph
  ignoreCase : Bool := false
  hierarchical : Bool := false

namespace Scope

open Pattern

/-- A token, and the edge by which it was found. -/
abbrev Candidate := Int × Option Edge

/-- Whether edges are followed to their dependents, or back to their governors. -/
inductive Direction where
  | down
  | up
  deriving DecidableEq, Repr

/-- The end of an edge to which it is followed. -/
def Direction.far : Direction → Edge → Int
  | down, e => e.dependent
  | up, e => e.governor

/-- The edges of a token that are followed. -/
def Direction.edges (d : Direction) (g : Graph) (index : Int) : List Edge :=
  match d with
  | down => g.outgoing index
  | up => g.incoming index

/-- Whether an operator accepts the label of an edge. -/
def acceptsEdge (s : Scope) (o : Operator) (e : Edge) : Bool := o.label.accepts s.hierarchical e.relation

/-- The neighbours over one edge. An edge that differs from an earlier one in weight or kind alone counts once. -/
def neighbours (s : Scope) (o : Operator) (d : Direction) (index : Int) : List Candidate :=
  ((Edge.firstOfEach d.far (d.edges s.graph index)).filter (s.acceptsEdge o)).map fun e => (d.far e, some e)

/-- The edges that are accepted and lead to tokens not matched so far. -/
def firstReaching (far : Edge → Int) (accepts : Edge → Bool) (matched : List Int) : List Edge → List Edge
  | [] => []
  | e :: es =>
    if accepts e && !matched.contains (far e) then e :: firstReaching far accepts (far e :: matched) es
    else firstReaching far accepts matched es

/-- The tokens at the end of paths of any length. Depth first; each token is searched once, and found once, by the first accepted
edge that leads to it. -/
def descend (d : Direction) (next : Int → List Edge) (accepts : Edge → Bool) (unsearched matched : List Int) :
    (stack : List Int) → List Edge
  | [] => []
  | index :: stack =>
    let edges := next index
    let found := edges.map d.far
    let hits := firstReaching d.far accepts matched edges
    hits ++ descend d next accepts (Graph.apartFrom found unsearched) (hits.map d.far ++ matched)
      ((Graph.among found unsearched).reverse ++ stack)
termination_by stack => unsearched.length + stack.length
decreasing_by
  have := Graph.length_among_add_length_apartFrom ((next index).map d.far) unsearched
  simp only [List.length_append, List.length_reverse, List.length_cons]
  omega

/-- The edges without those that lead to the same token as an earlier one. -/
def firstToEach (far : Edge → Int) : List Edge → List Edge
  | [] => []
  | e :: es => e :: (firstToEach far es).filter fun f => far f != far e

/-- The tokens at the end of paths whose length lies between bounds, by ascending length. `level` holds the edges that end paths of
the present length, `depth`; `left` more lengths follow. A token counts once at each length and is found once. -/
def descendWithin (d : Direction) (next : Int → List Edge) (accepts : Edge → Bool) (least : Nat) :
    (left depth : Nat) → (returned : List Int) → (level : List Edge) → List Edge
  | 0, depth, returned, level =>
    if least ≤ depth then firstReaching d.far accepts returned (firstToEach d.far level) else []
  | left + 1, depth, returned, level =>
    if level.isEmpty then []
    else
      let kept := firstToEach d.far level
      let hits := if least ≤ depth then firstReaching d.far accepts returned kept else []
      hits ++ descendWithin d next accepts least left (depth + 1) (hits.map d.far ++ returned)
        (kept.reverse.flatMap fun e => next (d.far e))

/-- The tokens at the end of paths. -/
def reached (s : Scope) (o : Operator) (d : Direction) (index : Int) : List Candidate :=
  let next := d.edges s.graph
  let edges :=
    if o.isLimited then descendWithin d next (s.acceptsEdge o) o.minDepth (o.maxDepth - 1) 1 [] (next index)
    else descend d next (s.acceptsEdge o) s.graph.indices [] [index]
  edges.map fun e => (d.far e, some e)

/-- The position of a token. -/
def position (s : Scope) (index : Int) : Int := ((s.graph.token? index).map (·.position)).getD index

/-- The ordinary tokens at the next position. -/
def nextWords (s : Scope) (index : Int) : List Candidate :=
  (s.graph.tokens.filter fun (_, t) => !t.isEmptyNode && t.position == s.position index + 1).map fun (i, _) => (i, none)

/-- The dependents of the governors of a token, in linear order, whose position satisfies a test. -/
def siblings (s : Scope) (test : Int → Bool) (index : Int) : List Candidate :=
  let indices := Order.distinct ((s.graph.parents index).flatMap s.graph.children)
  let entries := indices.filterMap fun i => (s.graph.token? i).map (i, ·)
  ((Order.sortBy (fun a b => Token.cmp a.2 b.2) entries).filter fun (_, t) => test t.position).map fun (i, _) => (i, none)

/-- The candidates of an operator. -/
def candidates (s : Scope) (o : Operator) (index : Int) : List Candidate :=
  let here := s.position index
  match o.kind with
  | .child => s.neighbours o .down index
  | .parent => s.neighbours o .up index
  | .descendant => s.reached o .down index
  | .ancestor => s.reached o .up index
  | .same => [(index, none)]
  | .nextWord => s.nextWords index
  | .rightNeighbour => s.siblings (· == here + 1) index
  | .leftNeighbour => s.siblings (· == here - 1) index
  | .rightSibling => s.siblings (decide <| · > here) index
  | .leftSibling => s.siblings (decide <| · < here) index

end Scope

end Treebank

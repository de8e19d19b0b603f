import Treebank.Graph.Reach

/-!
# The shape of a graph

A well-shaped graph has a root unless it has no token, at most one plain edge into each token, no cycle of plain edges, and a plain
path from a root to every token that is not elided. A report lists what a graph fails, with the tokens and edges involved. (That edges
lie between the places of their ends is asked of the store alone, by `Store.strayed`, and never fails there.) The tokens of plain cycles
are found by trimming: tokens from which no plain edge leads to a token that is left are taken away until each of the rest has one.
-/

namespace Treebank.Graph

/-- What is wrong with the shape of a graph. -/
inductive Violation where
  | unrooted (size : Nat)
  | severalGovernors (tokens : List Int)
  | cycle (edges : List (Int × Int))
  | unreached (tokens : List Int)
  deriving DecidableEq, Repr

namespace Violation

/-- The name of the condition that is violated. -/
def name : Violation → String
  | unrooted _ => "rooted"
  | severalGovernors _ => "single_governor"
  | cycle _ => "primary_acyclicity"
  | unreached _ => "reachability"

/-- How grave a violation is; every one of them is an error. -/
def severity : Violation → String
  | _ => "error"

/-- The message of a violation. -/
def message : Violation → String
  | unrooted size => "Graph has " ++ toString size ++ " nodes but no root"
  | severalGovernors tokens => toString tokens.length ++ " token(s) have several primary governors"
  | cycle _ => "Primary edges contain a cycle"
  | unreached tokens => toString tokens.length ++ " token(s) not reachable from a root"

/-- The tokens involved, ascending. -/
def tokens : Violation → List Int
  | unrooted _ => []
  | severalGovernors tokens => tokens
  | cycle edges => Order.distinct (edges.map (·.1))
  | unreached tokens => tokens

/-- The edges involved. -/
def edges : Violation → List (Int × Int)
  | cycle edges => edges
  | _ => []

end Violation

/-- The tokens with more than one plain edge into them. -/
def manyGoverned (g : Graph) : List Int :=
  g.indices.filter fun index => ((g.incoming index).filter (!·.extra)).length > 1

/-- The tokens of a list from which a plain edge leads to a token of the list. -/
def leadingInto (g : Graph) (tokens : List Int) : List Int :=
  tokens.filter fun index => (g.plainSuccessors index).any (tokens.contains ·)

/-- What is left of a list of tokens when those from which no plain edge leads to a token that is left are taken away. -/
def trimmed (g : Graph) (tokens : List Int) : List Int :=
  let rest := g.leadingInto tokens
  if rest.length < tokens.length then trimmed g rest else tokens
termination_by tokens.length

/-- Whether no plain edges form a cycle. -/
def isPlainAcyclic (g : Graph) : Bool := (g.trimmed g.indices).isEmpty

/-- Follows plain edges through tokens not passed so far, `left`, until one leads back onto the path; gives the cycle that is closed
there. The path is listed backwards. -/
def closeCycle (g : Graph) (left path : List Int) (index : Int) : List Int :=
  match (g.plainSuccessors index).find? fun i => left.contains i || (index :: path).contains i with
  | none => []
  | some next =>
    if h : next ∈ left then
      have := List.length_erase_of_mem h
      have := List.length_pos_of_mem h
      closeCycle g (left.erase next) (index :: path) next
    else next :: ((index :: path).takeWhile (· != next)).reverse
termination_by left.length

/-- The edges between the tokens of a cycle. -/
def cycleEdges : List Int → List (Int × Int)
  | [] => []
  | index :: rest => (index :: rest).zip (rest ++ [index])

/-- A list turned around so that it begins with its least pair. -/
def fromLeast (pairs : List (Int × Int)) : List (Int × Int) :=
  let starts (p : Int × Int) : Bool := pairs.all fun q => p.1 < q.1 || (p.1 == q.1 && p.2 ≤ q.2)
  pairs.dropWhile (! starts ·) ++ pairs.takeWhile (! starts ·)

/-- A cycle of plain edges, from its least edge on; empty if there is none. -/
def plainCycle (g : Graph) : List (Int × Int) :=
  match g.trimmed g.indices with
  | [] => []
  | index :: rest => fromLeast (cycleEdges (g.closeCycle rest [] index))

/-- The tokens, but for the elided ones, to which no plain path leads from a root. -/
def unreachedTokens (g : Graph) : List Int :=
  let reached := g.reachedFrom g.plainSuccessors g.roots
  (g.tokens.filter fun (index, t) => !reached.contains index && !t.isEmptyNode).map (·.1)

/-- What is wrong with the shape of a graph. -/
def violations (g : Graph) : List Violation :=
  (if !g.isEmpty && g.roots.isEmpty then [.unrooted g.size] else []) ++
  (if g.manyGoverned.isEmpty then [] else [.severalGovernors g.manyGoverned]) ++
  (if g.isPlainAcyclic then [] else [.cycle g.plainCycle]) ++
  (if g.unreachedTokens.isEmpty then [] else [.unreached g.unreachedTokens])

/-- Counts of a graph. -/
structure Metrics where
  tokens : Nat
  edges : Nat
  extraEdges : Nat
  roots : Nat
  deriving DecidableEq, Repr

/-- A report on the shape of a graph. -/
structure Report where
  violations : List Violation
  metrics : Metrics
  deriving DecidableEq, Repr

/-- Whether nothing is wrong. -/
def Report.valid (r : Report) : Bool := r.violations.isEmpty

/-- The report on a graph. -/
def report (g : Graph) : Report where
  violations := g.violations
  metrics :=
    { tokens := g.size
      edges := g.edgeCount
      extraEdges := (g.arcs.filter (·.edge.extra)).length
      roots := g.roots.length }

end Treebank.Graph

import Treebank.Graph.Basic

/-!
# Operations on graphs

The changes that can be asked of a graph, one constructor for each, and runs of them. An operation that fails leaves the graph as it
is, and the run goes on.
-/

namespace Treebank

namespace Graph

/-- A change that can be asked of a graph. -/
inductive Operation where
  | addToken (t : Token)
  | removeToken (index : Int)
  | addEdge (e : Edge)
  /-- Removes the first edge that is asked for, if there is one. -/
  | removeFirst (q : EdgeQuery)
  | removeEdge (e : Edge)
  | setRoots (indices : List Int)
  | addRoot (index : Int)
  | resetRoots
  /-- Goes on with a copy. -/
  | copy
  deriving DecidableEq, Repr

/-- What an operation makes of a graph. -/
def perform (g : Graph) : Operation → Except GraphError Graph
  | .addToken t => g.addToken t
  | .removeToken index => g.removeToken index
  | .addEdge e => g.addEdge e
  | .removeFirst q =>
    match g.edge? q with
    | some e => g.removeEdge e
    | none => .ok g
  | .removeEdge e => g.removeEdge e
  | .setRoots indices => g.setRoots indices
  | .addRoot index => g.addRoot index
  | .resetRoots => .ok g.resetRoots
  | .copy => .ok g.copy

/-- A run of operations on a state of any kind: what each of them failed with, if it did, and the state at the end. -/
def Operation.run {σ : Type} (perform : σ → Operation → Except GraphError σ) (s : σ) :
    List Operation → List (Option GraphError) × σ
  | [] => ([], s)
  | op :: ops =>
    let (fault, next) := match perform s op with
      | .ok next => (none, next)
      | .error e => (some e, s)
    let (faults, last) := run perform next ops
    (fault :: faults, last)

end Graph

end Treebank

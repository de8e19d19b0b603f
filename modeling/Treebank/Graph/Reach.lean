import Treebank.Graph.Basic

/-!
# Reachability

What a token reaches is found by a sweep: a stack of tokens that are reached and not yet passed, and a list of those not reached so
far. Each step passes the top of the stack and moves its unreached neighbours onto it, so cycles do no harm.
-/

namespace Treebank.Graph

/-- The members of a list that another list holds. -/
def among (found indices : List Int) : List Int := indices.filter (found.contains ·)

/-- The members of a list that another list does not hold. -/
def apartFrom (found indices : List Int) : List Int := indices.filter (! found.contains ·)

/-- A list falls into the members that another list holds and those that it does not hold. -/
theorem length_among_add_length_apartFrom (found indices : List Int) :
    (among found indices).length + (apartFrom found indices).length = indices.length := by
  induction indices with
  | nil => rfl
  | cons i indices ih =>
    simp only [among, apartFrom] at ih ⊢
    cases h : found.contains i <;> simp only [h, List.filter_cons, List.length_cons, Bool.not_true, Bool.not_false] <;>
      simp only [if_true, Bool.false_eq_true, if_false, List.length_cons] <;> omega

/-- The tokens of the stack and those that are reached from it through `unseen`, in the order in which they are passed. -/
def sweep (next : Int → List Int) (unseen : List Int) : List Int → List Int
  | [] => []
  | index :: stack =>
    let found := next index
    index :: sweep next (apartFrom found unseen) (among found unseen ++ stack)
termination_by stack => unseen.length + stack.length
decreasing_by
  have := length_among_add_length_apartFrom (next index) unseen
  simp only [List.length_append, List.length_cons]
  omega

/-- The tokens that are reached from the given ones over the edges of `next`, these included, ascending. -/
def reachedFrom (g : Graph) (next : Int → List Int) (starts : List Int) : List Int :=
  Order.distinct (sweep next (apartFrom starts g.indices) starts)

/-- Where the edges of a token lead. -/
def successors (g : Graph) (index : Int) : List Int := (g.outgoing index).map (·.dependent)

/-- Where the plain edges of a token lead. -/
def plainSuccessors (g : Graph) (index : Int) : List Int := ((g.outgoing index).filter (!·.extra)).map (·.dependent)

/-- Where the edges into a token come from. -/
def predecessors (g : Graph) (index : Int) : List Int := (g.incoming index).map (·.governor)

/-- The plain subtree of a token: what it reaches over plain edges, itself included. -/
def subtree (g : Graph) (index : Int) : List Int := g.reachedFrom g.plainSuccessors [index]

/-- The tokens that a token reaches over any edges, or over plain ones alone, without itself. -/
def descendants (g : Graph) (index : Int) (plainOnly : Bool) : Except GraphError (List Int) := do
  let _ ← g.token index
  let next := if plainOnly then g.plainSuccessors else g.successors
  return (g.reachedFrom next [index]).filter (· != index)

/-- The tokens from which a token is reached, without itself. -/
def ancestors (g : Graph) (index : Int) : Except GraphError (List Int) := do
  let _ ← g.token index
  return (g.reachedFrom g.predecessors [index]).filter (· != index)

/-- The least position in the plain subtree of a token. -/
def leftmostPosition (g : Graph) (index : Int) : Except GraphError Int := do
  let t ← g.token index
  let positions := ((g.subtree index).filterMap g.token?).map (·.position)
  return positions.foldl min t.position

end Treebank.Graph

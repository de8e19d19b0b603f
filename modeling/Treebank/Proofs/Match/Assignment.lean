import Treebank.Match.Search
import Treebank.Proofs.Pairs

/-!
# Assignments

A pattern is read as the list of its places, in the order in which a search fills them, each with the earlier place from which it
hangs. An assignment chooses a candidate for every place. `search` extends assignments place by place; on patterns without
alternatives, negations and optional constraints it makes the choices that the solvers of constraints make (`all_eq_search`).
-/

namespace Treebank

namespace Pattern

open Scope

/-! ## The places of a pattern -/

/-- A place of a pattern and, unless it is the top of a part, the number of the place from which it hangs and the operator between
the two. -/
structure Occurrence where
  place : Place
  link : Option (Nat × Operator) := none
  deriving DecidableEq, Repr

/-- The name of the edge to a place. -/
def Occurrence.edgeName (o : Occurrence) : Option String := o.link.bind (·.2.edgeName)

mutual
/-- The places of a constraint on the place of number `owner`; the first of them has the number `next`. -/
def Constraint.occurrences (owner next : Nat) : Constraint → List Occurrence
  | .relation _ operator target none => [⟨target, some (owner, operator)⟩]
  | .relation _ operator target (some inner) => ⟨target, some (owner, operator)⟩ :: inner.occurrences next (next + 1)
  | .all _ children => occurrencesOf owner next children
  | .any _ children => occurrencesOf owner next children

/-- The places of several constraints on one place. -/
def occurrencesOf (owner next : Nat) : List Constraint → List Occurrence
  | [] => []
  | c :: cs => c.occurrences owner next ++ occurrencesOf owner (next + (c.occurrences owner next).length) cs
end

/-- The places of a part, the first of which has the number `next`. -/
def Part.occurrences (next : Nat) (p : Part) : List Occurrence :=
  ⟨p.place, none⟩ :: (p.constraint.map (·.occurrences next (next + 1))).getD []

/-- The places of some parts. -/
def partsOccurrences (next : Nat) : List Part → List Occurrence
  | [] => []
  | p :: ps => p.occurrences next ++ partsOccurrences (next + (p.occurrences next).length) ps

mutual
/-- Whether a constraint has no alternatives and neither it nor one below it is negated or optional. -/
def Constraint.isPositive : Constraint → Bool
  | .relation mode _ _ none => mode == .plain
  | .relation mode _ _ (some inner) => mode == .plain && inner.isPositive
  | .all mode children => mode == .plain && arePositive children
  | .any _ _ => false

/-- Whether some constraints are positive. -/
def arePositive : List Constraint → Bool
  | [] => true
  | c :: cs => c.isPositive && arePositive cs
end

/-- Whether a part is positive. -/
def Part.isPositive (p : Part) : Bool := p.constraint.all (·.isPositive)

end Pattern

/-- The places of a pattern, in the order in which a search fills them. -/
def Pattern.occurrences (p : Pattern) : List Pattern.Occurrence := Pattern.partsOccurrences 0 p.parts

/-- Whether a pattern has no alternatives and no negated or optional constraints. -/
def Pattern.isPositive (p : Pattern) : Bool := p.parts.all (·.isPositive)

namespace Pattern

open Scope

/-! ## Assignments -/

/-- A choice for each of some places: a token, and the edge to it if the place hangs from another one by an edge. -/
abbrev Assignment := List Candidate

/-- What can be chosen for a place after the choices `a` for the earlier ones. -/
def Occurrence.choices (o : Occurrence) (s : Scope) (a : Assignment) : List Candidate :=
  match o.link with
  | none => s.graph.indices.map fun index => (index, none)
  | some (owner, operator) =>
    match a[owner]? with
    | some (index, _) => s.candidates operator index
    | none => []

/-- Binds the names of a place and of the edge to it. -/
def Occurrence.bind (o : Occurrence) (s : Scope) (b : Bindings) (c : Candidate) : Option Bindings :=
  (b.bindEdge o.edgeName c.2).bind (o.place.fill s c.1)

/-- All extensions of an assignment to some more places, with their bindings. -/
def search (s : Scope) : List Occurrence → Assignment → Bindings → List (Assignment × Bindings)
  | [], a, b => [(a, b)]
  | o :: os, a, b => (o.choices s a).flatMap fun c => (o.bind s b c).toList.flatMap fun b => search s os (a ++ [c]) b

/-- The names that an assignment binds to tokens, place by place, after those that are bound from the start. -/
def namedTokens (initial : List (String × Int)) (os : List Occurrence) (a : Assignment) : List (String × Int) :=
  initial ++ (os.zip a).filterMap fun (o, c) => o.place.name.map fun name => (name, c.1)

/-- The names that an assignment binds to edges, place by place. -/
def namedEdges (os : List Occurrence) (a : Assignment) : List (String × Edge) :=
  (os.zip a).filterMap fun (o, c) => o.edgeName.bind fun name => c.2.map fun e => (name, e)

/-- The bindings of an assignment: names are listed in the order in which they occur first. -/
def bindingsOf (initial : List (String × Int)) (os : List Occurrence) (a : Assignment) : Bindings where
  nodes := (namedTokens initial os a).eraseDups
  edges := namedEdges os a

/-- The match of an assignment. -/
def matchOf (initial : List (String × Int)) (os : List Occurrence) (a : Assignment) : Match where
  root := (a.head?.map (·.1)).getD 0
  bindings := bindingsOf initial os a

/-- What an assignment has to satisfy. -/
structure Admits (s : Scope) (initial : List (String × Int)) (os : List Occurrence) (a : Assignment) : Prop where
  /-- Something is chosen for every place. -/
  length : a.length = os.length
  /-- Tops are tokens of the graph; other places are candidates of their operators at the tokens of the places they hang from. -/
  chosen : ∀ (k : Nat) (o : Occurrence) (c : Candidate), os[k]? = some o → a[k]? = some c → c ∈ o.choices s (a.take k)
  /-- Every token fits the description of its place. -/
  fits : ∀ p ∈ os.zip a, ∃ t, s.graph.token? p.2.1 = some t ∧
    p.1.place.description.accepts s.ignoreCase (s.graph.isRoot p.2.1) t
  /-- Places with one name have one token. -/
  shared : Pairs.Functional (namedTokens initial os a)

/-- An assignment comes before another one if at the first place at which they differ its choice is listed before the other. -/
def Precedes (s : Scope) (os : List Occurrence) (a a' : Assignment) : Prop :=
  ∃ (k : Nat) (o : Occurrence) (c c' : Candidate), os[k]? = some o ∧ a[k]? = some c ∧ a'[k]? = some c' ∧ a.take k = a'.take k ∧
    (o.choices s (a.take k)).idxOf c < (o.choices s (a.take k)).idxOf c'

end Pattern

end Treebank

import Treebank.Edge
import Treebank.Order.Scatter
import Treebank.Token.Basic

/-!
# Dependency graphs

A graph holds tokens by index, labelled edges between them, and a set of roots. No two stored edges are equal. Every edge lies in a
numbered slot: a new edge takes the slot that was freed last, and only if none is free the next new number. Two orders of the edges
show in answers: by slot, and by time of attachment, the newest first.
-/

namespace Treebank

/-- An edge in its slot. -/
structure Arc where
  slot : Nat
  edge : Edge
  deriving DecidableEq, Repr, Inhabited

/-- A dependency graph. -/
structure Graph where
  /-- The tokens by index, ascending. -/
  tokens : List (Int × Token) := []
  /-- The edges, the newest first. -/
  arcs : List Arc := []
  /-- The free slots, the one freed last first. -/
  free : List Nat := []
  /-- The first slot that was never used. -/
  fresh : Nat := 0
  /-- The roots, ascending. -/
  roots : List Int := []
  /-- The comment lines of the sentence. -/
  comments : List String := []
  /-- The surface words that span several tokens. -/
  multiwords : List Multiword := []
  deriving DecidableEq, Repr, Inhabited

/-- What an operation on a graph may ask for in vain. -/
inductive GraphError where
  | tokenMissing (index : Int)
  | tokenExists (index : Int)
  | edgeMissing (governor dependent : Int) (relation : String)
  deriving DecidableEq, Repr

/-- The message of an error. -/
def GraphError.message : GraphError → String
  | .tokenMissing index => "Node not found: " ++ toString index
  | .tokenExists index => "Node already exists: " ++ toString index
  | .edgeMissing governor dependent relation =>
    "Edge not found: " ++ toString governor ++ " -> " ++ toString dependent ++
      (if relation = "" then "" else " (" ++ relation ++ ")")

namespace Graph

/-- The graph without tokens. -/
def empty : Graph := {}

/-! ## Tokens -/

/-- The token of an index. -/
def token? (g : Graph) (index : Int) : Option Token := g.tokens.lookup index

/-- Whether an index has a token. -/
def hasToken (g : Graph) (index : Int) : Bool := (g.token? index).isSome

/-- The token of an index that has to have one. -/
def token (g : Graph) (index : Int) : Except GraphError Token :=
  match g.token? index with
  | some t => .ok t
  | none => .error (.tokenMissing index)

/-- The indices, ascending. -/
def indices (g : Graph) : List Int := g.tokens.map (·.1)

/-- The tokens by ascending index. -/
def tokenList (g : Graph) : List Token := g.tokens.map (·.2)

/-- The number of tokens. -/
def size (g : Graph) : Nat := g.tokens.length

/-- Whether a graph has no token. -/
def isEmpty (g : Graph) : Bool := g.tokens.isEmpty

/-- The tokens in linear order. -/
def tokensInOrder (g : Graph) : List Token := Order.sortBy Token.cmp g.tokenList

/-- Puts an entry into a list of entries that ascends by index. -/
def putEntry {α : Type} (index : Int) (a : α) : List (Int × α) → List (Int × α)
  | [] => [(index, a)]
  | (i, b) :: rest => if index < i then (index, a) :: (i, b) :: rest else (i, b) :: putEntry index a rest

/-- Adds a token, whose index has to be new. -/
def addToken (g : Graph) (t : Token) : Except GraphError Graph :=
  if g.hasToken t.index then .error (.tokenExists t.index)
  else .ok { g with tokens := putEntry t.index t g.tokens }

/-- Changes the token of an index in place. -/
def modifyToken (g : Graph) (index : Int) (f : Token → Token) : Graph :=
  { g with tokens := g.tokens.map fun (i, t) => if i = index then (i, f t) else (i, t) }

/-- An index above all indices; zero for a graph without tokens. -/
def nextIndex (g : Graph) : Int :=
  match g.tokens.getLast? with
  | some (i, _) => i + 1
  | none => 0

/-- The first token, by index, with the given word. -/
def findWord? (g : Graph) (word : String) : Option Token := g.tokenList.find? (·.word == word)

/-! ## Edges -/

/-- The edges by ascending slot. -/
def edgesBySlot (g : Graph) : List Edge :=
  (Order.sortBy (compareOn Arc.slot) g.arcs).map (·.edge)

/-- All edges in order. -/
def edges (g : Graph) : List Edge := Order.sortBy Edge.cmp g.edgesBySlot

/-- The number of edges. -/
def edgeCount (g : Graph) : Nat := g.arcs.length

/-- Whether an edge is stored. -/
def contains (g : Graph) (e : Edge) : Bool := g.arcs.any (·.edge.same e)

/-- Adds an edge between two tokens. An edge that is equal to a stored one changes nothing. -/
def addEdge (g : Graph) (e : Edge) : Except GraphError Graph :=
  if !g.hasToken e.governor then .error (.tokenMissing e.governor)
  else if !g.hasToken e.dependent then .error (.tokenMissing e.dependent)
  else if g.contains e then .ok g
  else
    match g.free with
    | slot :: free => .ok { g with arcs := ⟨slot, e⟩ :: g.arcs, free := free }
    | [] => .ok { g with arcs := ⟨g.fresh, e⟩ :: g.arcs, fresh := g.fresh + 1 }

/-- Frees slots, one after the other. -/
def freeSlots (g : Graph) (slots : List Nat) : Graph :=
  { g with arcs := g.arcs.filter fun a => !slots.contains a.slot, free := slots.reverse ++ g.free }

/-- Removes exactly this edge. -/
def removeEdge (g : Graph) (e : Edge) : Except GraphError Graph :=
  match g.arcs.find? (·.edge.same e) with
  | some arc => .ok (g.freeSlots [arc.slot])
  | none => .error (.edgeMissing e.governor e.dependent e.relation)

/-- The edges that leave a token, ordered by dependent, relation and plain before extra; of edges that differ in weight alone the
newest first. -/
def outgoing (g : Graph) (index : Int) : List Edge :=
  Order.sortBy Edge.cmpDependent ((g.arcs.filter (·.edge.governor == index)).map (·.edge))

/-- The edges that enter a token, ordered by governor, relation and plain before extra; of edges that differ in weight alone the
newest first. -/
def incoming (g : Graph) (index : Int) : List Edge :=
  Order.sortBy Edge.cmpGovernor ((g.arcs.filter (·.edge.dependent == index)).map (·.edge))

/-- The edges that enter a token by ascending slot. -/
def incomingBySlot (g : Graph) (index : Int) : List Edge :=
  (Order.sortBy (compareOn Arc.slot) (g.arcs.filter (·.edge.dependent == index))).map (·.edge)

/-- The plain edge into a token, if there is one: the one in the lowest slot. -/
def governorEdge? (g : Graph) (index : Int) : Option Edge := (g.incomingBySlot index).find? (!·.extra)

/-- The dependents of a token, ascending. -/
def children (g : Graph) (index : Int) : List Int := Order.distinct ((g.outgoing index).map (·.dependent))

/-- The governors of a token, ascending. -/
def parents (g : Graph) (index : Int) : List Int := Order.distinct ((g.incoming index).map (·.governor))

/-- Which edges between two tokens are asked for; nothing stands for any. -/
structure EdgeQuery where
  governor : Int
  dependent : Int
  relation : Option String := none
  extra : Option Bool := none
  deriving DecidableEq, Repr

/-- Whether an edge is asked for. -/
def EdgeQuery.accepts (q : EdgeQuery) (e : Edge) : Bool :=
  e.dependent == q.dependent && q.relation.all (· == e.relation) && q.extra.all (· == e.extra)

/-- The first edge, among those that leave the governor, that is asked for. -/
def edge? (g : Graph) (q : EdgeQuery) : Option Edge :=
  if g.hasToken q.governor && g.hasToken q.dependent then (g.outgoing q.governor).find? q.accepts else none

/-- Removes a token, its place among the roots, and its edges: first those that leave it, then the others that enter it, either the
newest first. -/
def removeToken (g : Graph) (index : Int) : Except GraphError Graph := do
  let _ ← g.token index
  let leaving := g.arcs.filter (·.edge.governor == index)
  let entering := g.arcs.filter fun a => a.edge.dependent == index && a.edge.governor != index
  let rest := g.freeSlots ((leaving ++ entering).map (·.slot))
  return { rest with
    tokens := rest.tokens.filter (·.1 != index)
    roots := rest.roots.filter (· != index) }

/-! ## Roots -/

/-- Whether a token is a root. -/
def isRoot (g : Graph) (index : Int) : Bool := g.roots.contains index

/-- The roots in linear order. -/
def rootsInOrder (g : Graph) : List Int :=
  let entries := g.roots.filterMap fun index => (g.token? index).map (index, ·)
  (Order.sortBy (fun a b => Token.cmp a.2 b.2) entries).map (·.1)

/-- Makes tokens the roots, in place of the old ones. Of several missing tokens the one with the first place is named. -/
def setRoots (g : Graph) (indices : List Int) : Except GraphError Graph :=
  match (Order.byPlace indices).find? (!g.hasToken ·) with
  | some missing => .error (.tokenMissing missing)
  | none => .ok { g with roots := Order.distinct indices }

/-- Makes a token a root. -/
def addRoot (g : Graph) (index : Int) : Except GraphError Graph :=
  if g.hasToken index then .ok { g with roots := Order.add index g.roots } else .error (.tokenMissing index)

/-- The ordinary tokens without a plain edge into them. -/
def headless (g : Graph) : List Int :=
  (g.tokens.filter fun (i, t) => !t.isEmptyNode && (g.governorEdge? i).isNone).map (·.1)

/-- Makes the ordinary tokens without a plain edge into them the roots; if there is none, the roots stay. -/
def resetRoots (g : Graph) : Graph := if g.headless.isEmpty then g else { g with roots := g.headless }

/-! ## What is known to succeed

Where an operation is known to succeed, its result is taken without the error; if it failed, the graph would stay as it is. -/

/-- The graph with a token more. -/
def withToken (g : Graph) (t : Token) : Graph := (g.addToken t).toOption.getD g

/-- The graph with an edge more. -/
def withEdge (g : Graph) (e : Edge) : Graph := (g.addEdge e).toOption.getD g

/-- The graph with a root more. -/
def withRoot (g : Graph) (index : Int) : Graph := (g.addRoot index).toOption.getD g

/-- The graph without a token. -/
def withoutToken (g : Graph) (index : Int) : Graph := (g.removeToken index).toOption.getD g

/-- The graph without an edge. -/
def withoutEdge (g : Graph) (e : Edge) : Graph := (g.removeEdge e).toOption.getD g

/-! ## Copies -/

/-- A copy of a graph. Each token is placed anew: one whose position has become negative stands at its index again. -/
def copy (g : Graph) : Graph := { g with tokens := g.tokens.map fun (i, t) => (i, t.placed) }

/-! ## Equality -/

/-- What two graphs have in common when they are equal: words, lemmas, tags and places of the tokens, the edges but for their
weights, and the roots. -/
structure Signature where
  tokens : List (Int × String × String × String × Int × Int)
  edges : List (Int × Int × String × Bool)
  roots : List Int
  deriving DecidableEq, Repr

/-- The signature of a graph. -/
def signature (g : Graph) : Signature where
  tokens := g.tokenList.map fun t => (t.index, t.word, t.baseForm, t.tag, t.position, t.emptyIndex)
  edges := g.edges.map fun e => (e.governor, e.dependent, e.relation, e.extra)
  roots := g.roots

/-- Whether two graphs are equal. -/
def same (g h : Graph) : Bool := g.signature == h.signature

end Graph

end Treebank

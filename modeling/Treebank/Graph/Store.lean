import Treebank.Graph.Operation

/-!
# Graphs in numbered places

How a graph lies in memory. Tokens and edges have numbered places, and a number that became free is given out again before a new one
is. The place of a token lists the edges that leave it and those that enter it, each list with the newest edge first. Two maps lead
from the indices of tokens to their places and back; edges know their ends both by index and by place. `Store.graph` is the graph
that a store holds.
-/

namespace Treebank

/-- Items in numbered places. -/
structure Arena (α : Type) where
  /-- The items by number, the newest first. -/
  items : List (Nat × α) := []
  /-- The free numbers, the one freed last first. -/
  free : List Nat := []
  /-- The first number that was never given out. -/
  fresh : Nat := 0
  deriving Repr

namespace Arena

variable {α : Type}

/-- The item of a number. -/
def get? (a : Arena α) (n : Nat) : Option α := a.items.lookup n

/-- The number that the next item gets. -/
def next (a : Arena α) : Nat := a.free.headD a.fresh

/-- Adds an item. -/
def add (a : Arena α) (x : α) : Arena α :=
  match a.free with
  | n :: free => { a with items := (n, x) :: a.items, free := free }
  | [] => { a with items := (a.fresh, x) :: a.items, fresh := a.fresh + 1 }

/-- Drops the item of a number and frees the number. -/
def drop (a : Arena α) (n : Nat) : Arena α := { a with items := a.items.filter (·.1 != n), free := n :: a.free }

/-- Changes every item, given its number. -/
def mapItems (a : Arena α) (f : Nat → α → α) : Arena α := { a with items := a.items.map fun (n, x) => (n, f n x) }

end Arena

namespace Graph

/-- The place of a token. -/
structure Cell where
  token : Token
  /-- The numbers of the edges that leave it, the newest first. -/
  leaving : List Nat := []
  /-- The numbers of the edges that enter it, the newest first. -/
  entering : List Nat := []
  deriving Repr

/-- The place of a token with an edge more. -/
def Cell.attach (c : Cell) (k : Nat) (leaves enters : Bool) : Cell :=
  { c with
    leaving := if leaves then k :: c.leaving else c.leaving
    entering := if enters then k :: c.entering else c.entering }

/-- The place of a token without an edge. -/
def Cell.detach (c : Cell) (k : Nat) : Cell :=
  { c with leaving := c.leaving.filter (· != k), entering := c.entering.filter (· != k) }

/-- The place of an edge, between two places of tokens. -/
structure Link where
  source : Nat
  target : Nat
  edge : Edge
  deriving Repr

/-- A graph in memory. -/
structure Store where
  cells : Arena Cell := {}
  links : Arena Link := {}
  /-- The numbers of the tokens, by ascending index. -/
  numbers : List (Int × Nat) := []
  /-- The indices of the tokens, by number. -/
  names : List (Nat × Int) := []
  /-- The roots, ascending. -/
  roots : List Int := []
  comments : List String := []
  multiwords : List Multiword := []
  deriving Repr

namespace Store

/-! ## Reading -/

/-- The number of an index. -/
def number? (s : Store) (index : Int) : Option Nat := s.numbers.lookup index

/-- The number of an index that has to have one. -/
def number (s : Store) (index : Int) : Except GraphError Nat :=
  match s.number? index with
  | some n => .ok n
  | none => .error (.tokenMissing index)

/-- Whether an index has a token. -/
def hasToken (s : Store) (index : Int) : Bool := (s.number? index).isSome

/-- The edges that leave a place, by number. -/
def leaving (s : Store) (n : Nat) : List Nat := ((s.cells.get? n).map (·.leaving)).getD []

/-- The edges that enter a place, by number. -/
def entering (s : Store) (n : Nat) : List Nat := ((s.cells.get? n).map (·.entering)).getD []

/-- The edges of some numbers, each in its slot. -/
def arcsOf (s : Store) (ks : List Nat) : List Arc := ks.filterMap fun k => (s.links.get? k).map fun l => ⟨k, l.edge⟩

/-- The number of an edge that is equal to the given one. -/
def findLink? (s : Store) (e : Edge) : Option Nat :=
  match s.number? e.governor, s.number? e.dependent with
  | some n, some _ => (s.leaving n).find? fun k => (s.links.get? k).any (·.edge.same e)
  | _, _ => none

/-- The first edge, among those that leave the governor, that is asked for. -/
def edge? (s : Store) (q : EdgeQuery) : Option Edge :=
  match s.number? q.governor, s.number? q.dependent with
  | some n, some _ => (Order.sortBy Edge.cmpDependent ((s.arcsOf (s.leaving n)).map (·.edge))).find? q.accepts
  | _, _ => none

/-- Whether a plain edge enters a place; the edges are looked at by ascending number. -/
def hasGovernor (s : Store) (n : Nat) : Bool :=
  ((Order.sortBy (compareOn Arc.slot) (s.arcsOf (s.entering n))).find? (!·.edge.extra)).isSome

/-- The edges, by ascending number, that do not lie between the places of the tokens at their ends. A report on a store lists them. -/
def strayed (s : Store) : List (Int × Int) :=
  let strays (l : Link) : Bool := s.names.lookup l.source != some l.edge.governor || s.names.lookup l.target != some l.edge.dependent
  ((Order.sortBy (compareOn Prod.fst) s.links.items).filter fun (_, l) => strays l).map fun (_, l) => (l.edge.governor, l.edge.dependent)

/-- The graph that a store holds. -/
def graph (s : Store) : Graph where
  tokens := s.numbers.filterMap fun (index, n) => (s.cells.get? n).map fun c => (index, c.token)
  arcs := s.links.items.map fun (k, l) => ⟨k, l.edge⟩
  free := s.links.free
  fresh := s.links.fresh
  roots := s.roots
  comments := s.comments
  multiwords := s.multiwords

/-! ## Changing -/

/-- Adds a token, whose index has to be new. -/
def addToken (s : Store) (t : Token) : Except GraphError Store :=
  if s.hasToken t.index then .error (.tokenExists t.index)
  else
    .ok { s with
      cells := s.cells.add { token := t }
      numbers := putEntry t.index s.cells.next s.numbers
      names := (s.cells.next, t.index) :: s.names }

/-- Adds an edge between two places. -/
def connect (s : Store) (l : Link) : Store :=
  { s with
    links := s.links.add l
    cells := s.cells.mapItems fun n c => c.attach s.links.next (n == l.source) (n == l.target) }

/-- Adds an edge between two tokens. An edge that is equal to a stored one changes nothing. -/
def addEdge (s : Store) (e : Edge) : Except GraphError Store := do
  let n ← s.number e.governor
  let m ← s.number e.dependent
  return if (s.findLink? e).isSome then s else s.connect ⟨n, m, e⟩

/-- Removes the edge of a number from the places of its ends, and frees the number. -/
def disconnect (s : Store) (k : Nat) : Store :=
  match s.links.get? k with
  | none => s
  | some l =>
    { s with
      links := s.links.drop k
      cells := s.cells.mapItems fun n c => if n == l.source || n == l.target then c.detach k else c }

/-- Removes exactly this edge. -/
def removeEdge (s : Store) (e : Edge) : Except GraphError Store :=
  match s.findLink? e with
  | some k => .ok (s.disconnect k)
  | none => .error (.edgeMissing e.governor e.dependent e.relation)

/-- Removes a token, its place among the roots, and its edges: first those that leave it, then those that enter it still. -/
def removeToken (s : Store) (index : Int) : Except GraphError Store := do
  let n ← s.number index
  let s := (s.leaving n).foldl disconnect s
  let s := (s.entering n).foldl disconnect s
  return { s with
    cells := s.cells.drop n
    numbers := s.numbers.filter (·.1 != index)
    names := s.names.filter (·.1 != n)
    roots := s.roots.filter (· != index) }

/-- Makes tokens the roots, in place of the old ones. -/
def setRoots (s : Store) (indices : List Int) : Except GraphError Store :=
  match (Order.byPlace indices).find? (!s.hasToken ·) with
  | some missing => .error (.tokenMissing missing)
  | none => .ok { s with roots := Order.distinct indices }

/-- Makes a token a root. -/
def addRoot (s : Store) (index : Int) : Except GraphError Store :=
  if s.hasToken index then .ok { s with roots := Order.add index s.roots } else .error (.tokenMissing index)

/-- The ordinary tokens without a plain edge into them. -/
def headless (s : Store) : List Int :=
  (s.numbers.filter fun (_, n) => (s.cells.get? n).any fun c => !c.token.isEmptyNode && !s.hasGovernor n).map (·.1)

/-- Makes the ordinary tokens without a plain edge into them the roots; if there is none, the roots that are tokens stay. -/
def resetRoots (s : Store) : Store :=
  { s with roots := if s.headless.isEmpty then s.roots.filter s.hasToken else s.headless }

/-- A copy, in which each token is placed anew. -/
def copy (s : Store) : Store := { s with cells := s.cells.mapItems fun _ c => { c with token := c.token.placed } }

/-- What an operation makes of a store. -/
def perform (s : Store) : Operation → Except GraphError Store
  | .addToken t => s.addToken t
  | .removeToken index => s.removeToken index
  | .addEdge e => s.addEdge e
  | .removeFirst q =>
    match s.edge? q with
    | some e => s.removeEdge e
    | none => .ok s
  | .removeEdge e => s.removeEdge e
  | .setRoots indices => s.setRoots indices
  | .addRoot index => s.addRoot index
  | .resetRoots => .ok s.resetRoots
  | .copy => .ok s.copy

end Store

end Graph

end Treebank

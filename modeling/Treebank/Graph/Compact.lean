import Treebank.Graph.Reach

/-!
# Graphs in writing

The compact form writes each root with its dependents in brackets, `[ate subj>Bill dobj>[muffins compound>blueberry]]`. A token is
expanded where it is met first; after that it is a bare word, unless it is a root and its own turn has come. The list form has a line
for each root and each edge.
-/

namespace Treebank.Graph

/-- An edge with the token that it leads to. -/
abbrev Branch := Edge × Token

/-- The order in which the dependents of a token are written: by place in the line of words, then by relation. -/
def Branch.cmp : Branch → Branch → Ordering :=
  compareLex (compareOn (·.2.position)) <| compareLex (compareOn (·.2.emptyIndex)) <| compareLex (compareOn (·.1.relation)) <|
    compareLex (compareOn (·.2.index)) (compareOn (·.1.extra))

/-- The edges of a token as they are written. -/
def branches (g : Graph) (index : Int) : List Edge :=
  let pairs := (g.outgoing index).filterMap fun e => (g.token? e.dependent).map (e, ·)
  Edge.firstOfEach Edge.dependent ((Order.sortBy Branch.cmp pairs).map (·.1))

/-- A piece of the compact form that is still to be written. -/
inductive Piece where
  /-- A token, behind the relation of the edge that leads to it. -/
  | mention (relation : String) (index : Int)
  | close
  deriving DecidableEq, Repr

/-- The label of a token. -/
def label (g : Graph) (showTags : Bool) (index : Int) : String := ((g.token? index).map (·.label showTags)).getD ""

/-- How the expansion of a token begins, and the pieces that follow. -/
def expansion (g : Graph) (showTags : Bool) (index : Int) : List String × List Piece :=
  let edges := g.branches index
  if edges.isEmpty then ([g.label showTags index], [])
  else (["[", g.label showTags index], edges.map (fun e => .mention e.relation e.dependent) ++ [.close])

/-- A token has no more branches than the graph has edges. -/
theorem length_branches_le (g : Graph) (index : Int) : (g.branches index).length ≤ g.arcs.length := by
  refine Nat.le_trans (Edge.length_firstOfEach_le _ _) ?_
  rw [List.length_map, Order.length_sortBy]
  refine Nat.le_trans (List.length_filterMap_le _ _) ?_
  rw [outgoing, Order.length_sortBy, List.length_map]
  exact List.length_filter_le _ _

/-- The expansion of a token leaves at most a piece for every edge of the graph, and one that closes the bracket. -/
theorem length_expansion_le (g : Graph) (showTags : Bool) (index : Int) : (g.expansion showTags index).2.length ≤ g.arcs.length + 1 := by
  have := g.length_branches_le index
  simp only [expansion]
  split
  · simp
  · simpa using this

/-- Writes pieces and then the remaining roots; `unseen` holds the tokens that were not expanded so far. -/
def writePieces (g : Graph) (showTags : Bool) (unseen roots : List Int) (pieces : List Piece) : List String :=
  match pieces with
  | .close :: pieces => "]" :: writePieces g showTags unseen roots pieces
  | .mention relation index :: pieces =>
    " " :: relation :: ">" ::
      if _h : index ∈ unseen then
        (g.expansion showTags index).1 ++
          writePieces g showTags (unseen.erase index) roots ((g.expansion showTags index).2 ++ pieces)
      else g.label showTags index :: writePieces g showTags unseen roots pieces
  | [] =>
    match roots with
    | [] => []
    | root :: roots =>
      " " :: (g.expansion showTags root).1 ++
        writePieces g showTags (unseen.erase root) roots (g.expansion showTags root).2
termination_by (roots.length + unseen.length) * (g.arcs.length + 2) + pieces.length
decreasing_by
  · simp
  · have h1 := List.length_erase_of_mem _h
    have h2 := List.length_pos_of_mem _h
    have h3 := g.length_expansion_le showTags index
    obtain ⟨n, hn⟩ : ∃ n, unseen.length = n + 1 := ⟨unseen.length - 1, by omega⟩
    rw [h1, hn, Nat.add_sub_cancel, ← Nat.add_assoc, Nat.add_one_mul]
    simp only [List.length_append, List.length_cons]
    omega
  · simp
  · have h1 : (unseen.erase root).length ≤ unseen.length := List.length_erase_le
    have h3 := g.length_expansion_le showTags root
    have h4 := Nat.mul_le_mul_right (g.arcs.length + 2) (Nat.add_le_add_left h1 roots.length)
    rw [List.length_cons, Nat.add_right_comm, Nat.add_one_mul]
    simp only [List.length_nil]
    omega

/-- The compact form of a graph. -/
def compact (g : Graph) (showTags : Bool) : String :=
  match g.rootsInOrder with
  | [] => if g.isEmpty then "[EMPTY_SEMANTIC_GRAPH]" else "[UNROOTED_SEMANTIC_GRAPH]"
  | root :: roots =>
    String.join <| (g.expansion showTags root).1 ++
      writePieces g showTags (g.indices.erase root) roots (g.expansion showTags root).2

/-- A token in the list form. -/
def name (g : Graph) (index : Int) : String := ((g.token? index).map Token.text).getD ""

/-- The list form of a graph. -/
def listing (g : Graph) : String :=
  "\n".intercalate <|
    g.rootsInOrder.map (fun r => "root(ROOT-0, " ++ g.name r ++ ")") ++
    g.edges.map fun e =>
      e.relation ++ "(" ++ g.name e.governor ++ ", " ++ g.name e.dependent ++ (if e.extra then "*" else "") ++ ")"

/-- A graph in one line: its counts and roots. -/
def summary (g : Graph) : String :=
  "SemanticGraph(nodes=" ++ toString g.size ++ ", edges=" ++ toString g.edgeCount ++ ", roots=[" ++
    ", ".intercalate (g.rootsInOrder.map toString) ++ "])"

end Treebank.Graph

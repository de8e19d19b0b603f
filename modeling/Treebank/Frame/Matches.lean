import Treebank.Frame.Basic
import Treebank.Match.Search

/-!
# Match frames

A match frame has a row for every match of a pattern in a list of graphs: the number of the sentence, the number of the match in it,
the token at the top, and a column for every name that the pattern binds. A name of a token that is also the name of one of the first
three columns takes that column over; a name of an edge does not.
-/

namespace Treebank.Frame

/-- The columns of a match frame. -/
def matchColumns (p : Pattern) : List (String × DataType) :=
  let nodes := p.nodeNames.foldl (fun columns name => Pairs.put columns name .int64)
    [("sentence", .int64), ("match", .int64), ("root", .int64)]
  p.edgeNames.foldl (fun columns name => if Pairs.has columns name then columns else columns ++ [(name, .text)]) nodes

/-- The row of a match. -/
def matchRow (p : Pattern) (sentence number : Nat) (m : Match) : List Cell :=
  let nodes := p.nodeNames.foldl (fun row name => Pairs.put row name (.ofInt? (m.node? name)))
    [("sentence", .int sentence), ("match", .int number), ("root", .int m.root)]
  let row := p.edgeNames.foldl
    (fun row name => if Pairs.has row name then row else row ++ [(name, Cell.ofText? ((m.edge? name).map (·.relation)))]) nodes
  row.map (·.2)

/-- The rows of matches, numbered from the given number on. -/
def matchRowsFrom (p : Pattern) (sentence number : Nat) : List Match → List (List Cell)
  | [] => []
  | m :: ms => matchRow p sentence number m :: matchRowsFrom p sentence (number + 1) ms

/-- The rows of the matches in graphs, numbered from the given number on. -/
def matchRows (p : Pattern) (sentence : Nat) : List Graph → StateM Sink (List (List Cell))
  | [] => return []
  | g :: gs => do
    let found ← (Matcher.plain p g).findAll
    return matchRowsFrom p sentence 0 found ++ (← matchRows p (sentence + 1) gs)

/-- The match frame of a pattern over graphs. -/
def ofMatches (p : Pattern) (graphs : List Graph) : StateM Sink Frame := do
  return ⟨matchColumns p, ← matchRows p 0 graphs⟩

end Treebank.Frame

import Treebank.Conllu.Basic

/-!
# Writing sentences

Ordinary tokens are numbered from one in linear order; an elided token is written behind the ordinary one that it follows, with that
one's number. The row of a surface word stands before the first token that it spans.
-/

namespace Treebank.Conllu

/-- The ids of tokens in linear order, by index; `count` ordinary tokens stand before them. -/
def assignIds (count : Nat) : List Token → List (Int × String)
  | [] => []
  | t :: ts =>
    if t.isEmptyNode then (t.index, toString count ++ "." ++ toString t.emptyIndex) :: assignIds count ts
    else (t.index, toString (count + 1)) :: assignIds (count + 1) ts

/-- The id of a token. -/
def idOf (ids : List (Int × String)) (index : Int) : String := (ids.lookup index).getD ""

/-- The ids of the ordinary tokens by position, the last of one position first. -/
def idsByPosition (ids : List (Int × String)) (tokens : List Token) : List (Int × String) :=
  ((tokens.filter (!·.isEmptyNode)).map fun t => (t.position, idOf ids t.index)).reverse

/-- The row of a surface word. -/
def spanRow (byPosition : List (Int × String)) (m : Multiword) : String :=
  let id (position : Int) := (byPosition.lookup position).getD (toString position)
  let tail := if m.columns.isEmpty then List.replicate (columnCount - 2) blank else m.columns
  "\t".intercalate ((id m.start ++ "-" ++ id m.stop) :: column m.form :: tail)

/-- The head and the relation of a token, as columns. -/
def headColumns (g : Graph) (ids : List (Int × String)) (t : Token) : String × String :=
  match g.governorEdge? t.index with
  | some e => (idOf ids e.governor, column e.relation)
  | none =>
    if g.isRoot t.index && !t.isEmptyNode then ("0", (t.rootRelation.map column).getD "root") else (blank, blank)

/-- The enhanced column of a token. -/
def depsColumn (g : Graph) (ids : List (Int × String)) (t : Token) : String :=
  let root := if t.enhancedRootRelation = "" then [] else ["0:" ++ t.enhancedRootRelation]
  let extra := ((g.incomingBySlot t.index).filter (·.extra)).map fun e => idOf ids e.governor ++ ":" ++ e.relation
  match root ++ extra with
  | [] => blank
  | entries => "|".intercalate entries

/-- The row of a token. -/
def rowOf (g : Graph) (ids : List (Int × String)) (t : Token) : Row where
  lineNumber := 0
  id := idOf ids t.index
  form := column t.word
  baseForm := column t.baseForm
  upos := column t.upos
  tag := column t.tag
  feats := column t.feats
  head := (headColumns g ids t).1
  relation := (headColumns g ids t).2
  deps := depsColumn g ids t
  misc := column t.misc

/-- The lines of tokens and of the surface words that are due before them. -/
def rowLines (g : Graph) (ids byPosition : List (Int × String)) (pending : List Multiword) : List Token → List String
  | [] => pending.map (spanRow byPosition)
  | t :: ts =>
    let due (m : Multiword) := !t.isEmptyNode && m.start ≤ t.position
    (pending.takeWhile due).map (spanRow byPosition) ++ (rowOf g ids t).text ::
      rowLines g ids byPosition (pending.dropWhile due) ts

/-- The ids of the tokens of a graph by the index that a token gives for itself; of two tokens that give one index, the last in
linear order comes first. -/
def idsOf (g : Graph) : List (Int × String) := (assignIds 0 g.tokensInOrder).reverse

/-- A sentence, with the blank line that ends it. -/
def writeGraph (g : Graph) : String :=
  let tokens := g.tokensInOrder
  let ids := idsOf g
  let pending := Order.sortBy (compareOn Multiword.start) g.multiwords
  "\n".intercalate (g.comments ++ rowLines g ids (idsByPosition ids tokens) pending tokens) ++ "\n\n"

/-- Why a graph cannot be written: a token gives an index for itself that is not its index in the graph. -/
inductive WriteError where
  /-- The graph has no token of the index that a token gives. -/
  | graph (e : GraphError)
  /-- No token gives the index of a governor. -/
  | unnumbered (governor : Int)
  deriving DecidableEq, Repr

/-- The message of an error. -/
def WriteError.message : WriteError → String
  | .graph e => e.message
  | .unnumbered governor => toString governor

/-- The edges that the row of a token names: its plain edge, then the extra ones. -/
def rowEdges (g : Graph) (t : Token) : List Edge :=
  (g.governorEdge? t.index).toList ++ (g.incomingBySlot t.index).filter (·.extra)

/-- Checks that the row of a token can be written. -/
def checkRow (g : Graph) (ids : List (Int × String)) (t : Token) : Except WriteError Unit := do
  let _ ← (g.token t.index).mapError .graph
  match (rowEdges g t).find? fun e => (ids.lookup e.governor).isNone with
  | some e => throw (.unnumbered e.governor)
  | none => return ()

/-- A sentence, if each of its rows can be written; the error is that of the first row that cannot. -/
def writeGraph? (g : Graph) : Except WriteError String := do
  g.tokensInOrder.forM (checkRow g (idsOf g))
  return writeGraph g

/-- Sentences. -/
def write (graphs : List Graph) : String := String.join (graphs.map writeGraph)

end Treebank.Conllu

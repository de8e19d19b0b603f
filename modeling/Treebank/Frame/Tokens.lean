import Treebank.Decimal.Numeral
import Treebank.Frame.Basic
import Treebank.Graph.Basic

/-!
# Token frames

A token frame has a row for every token of a list of graphs. The sentences are numbered; the edges into a token stand in its row: the
plain one as head and relation, the extra ones in one column as `governor:relation`, with bars between them. Graphs can be built from
such a frame again; the columns but for three may then be missing.
-/

namespace Treebank

namespace Frame

/-- The columns of a token frame. -/
def tokenColumns : List (String × DataType) :=
  [("sentence", .int64), ("index", .int64), ("word", .text), ("lemma", .text), ("upos", .text), ("tag", .text), ("feats", .text),
   ("misc", .text), ("position", .int64), ("empty_index", .int64), ("head", .int64), ("relation", .text), ("is_root", .boolean),
   ("deps", .text)]

/-- The columns that have to be there. -/
def requiredColumns : List String := ["sentence", "index", "word"]

/-- One row of a token frame. -/
structure TokenRow where
  sentence : Int
  index : Int
  word : String := ""
  baseForm : String := ""
  upos : String := ""
  tag : String := ""
  feats : String := ""
  misc : String := ""
  position : Int := -1
  emptyIndex : Int := 0
  head : Option Int := none
  relation : Option String := none
  isRoot : Bool := false
  deps : String := ""
  deriving DecidableEq, Repr, Inhabited

/-- The cells of a row, in the order of the columns. -/
def TokenRow.cells (r : TokenRow) : List Cell :=
  [.int r.sentence, .int r.index, .text r.word, .text r.baseForm, .text r.upos, .text r.tag, .text r.feats, .text r.misc,
   .int r.position, .int r.emptyIndex, .ofInt? r.head, .ofText? r.relation, .bool r.isRoot, .text r.deps]

/-! ## From graphs -/

/-- An extra edge, as it stands in the row of its dependent. -/
def depsEntry (e : Edge) : String := String.ofList (Text.intDigits e.governor) ++ ":" ++ e.relation

/-- The row of a token. -/
def TokenRow.ofToken (sentence : Int) (g : Graph) (t : Token) : TokenRow :=
  let governing := g.governorEdge? t.index
  { sentence := sentence
    index := t.index
    word := t.word
    baseForm := t.baseForm
    upos := t.upos
    tag := t.tag
    feats := t.feats
    misc := t.misc
    position := t.position
    emptyIndex := t.emptyIndex
    head := governing.map (·.governor)
    relation := (governing.map (·.relation)).or t.rootRelation
    isRoot := g.isRoot t.index
    deps := "|".intercalate (((g.incomingBySlot t.index).filter (·.extra)).map depsEntry) }

/-- The rows of graphs, numbered from the given number on. -/
def tokenRows (sentence : Int) : List Graph → List TokenRow
  | [] => []
  | g :: gs => g.tokensInOrder.map (TokenRow.ofToken sentence g) ++ tokenRows (sentence + 1) gs

/-- The token frame of graphs. -/
def ofGraphs (graphs : List Graph) : Frame := ⟨tokenColumns, (tokenRows 0 graphs).map TokenRow.cells⟩

/-! ## To graphs -/

/-- Why a frame is no token frame. -/
structure SchemaError where
  missing : List String
  /-- The columns of the wrong type, and what is wrong. -/
  invalid : List (String × String)
  deriving DecidableEq, Repr

/-- The message of an error. -/
def SchemaError.message (e : SchemaError) : String :=
  "Schema validation failed. Missing columns: " ++ Text.quotedList e.missing ++
    if e.invalid.isEmpty then "" else ", Invalid types: " ++ Text.quotedPairs e.invalid

/-- What is wrong with the type of a column, if something is: one for integers has to be of some integer type, or wholly empty. -/
def typeFault? (columns : List (String × DataType)) (expected : String × DataType) : Option (String × String) :=
  match columns.lookup expected.1 with
  | some actual =>
    if expected.2 = .int64 && !actual.isInteger && actual != .null then
      some (expected.1, "Expected " ++ expected.2.name ++ ", got " ++ actual.name)
    else none
  | none => none

/-- Checks that the columns are those of a token frame. -/
def checkSchema (columns : List (String × DataType)) : Except SchemaError Unit :=
  let missing := requiredColumns.filter fun name => (columns.lookup name).isNone
  let invalid := tokenColumns.filterMap (typeFault? columns)
  if missing.isEmpty && invalid.isEmpty then .ok () else .error ⟨missing, invalid⟩

/-- What may be wrong with the rows of a token frame. -/
inductive RowError where
  | keyMissing
  | tokenRepeated (sentence index : Int)
  | entryMalformed (sentence : Int) (entry : String)
  | headMissing (sentence index : Int)
  deriving DecidableEq, Repr

/-- The message of an error. -/
def RowError.message : RowError → String
  | keyMissing => "Found rows with null sentence or index"
  | tokenRepeated sentence index => "Sentence " ++ toString sentence ++ ": duplicate token index " ++ toString index
  | entryMalformed sentence entry => "Sentence " ++ toString sentence ++ ": malformed deps entry '" ++ entry ++ "'"
  | headMissing sentence index => "Sentence " ++ toString sentence ++ ": head " ++ toString index ++ " is not a token"

/-- The row that named cells hold; empty texts stand for empty cells. -/
def TokenRow.ofCells? (row : List (String × Cell)) : Option TokenRow := do
  let text (name : String) := ((cell row name).text?).getD ""
  let sentence ← (cell row "sentence").int?
  let index ← (cell row "index").int?
  return {
    sentence := sentence
    index := index
    word := text "word"
    baseForm := text "lemma"
    upos := text "upos"
    tag := text "tag"
    feats := text "feats"
    misc := text "misc"
    position := (cell row "position").int?.getD (-1)
    emptyIndex := (cell row "empty_index").int?.getD 0
    head := (cell row "head").int?
    relation := some (text "relation")
    isRoot := (cell row "is_root").bool?.getD false
    deps := text "deps" }

/-- The token of a row. -/
def TokenRow.token (r : TokenRow) : Token :=
  Token.placed
    { index := r.index
      word := r.word
      baseForm := r.baseForm
      tag := r.tag
      upos := r.upos
      feats := r.feats
      misc := r.misc
      position := r.position
      emptyIndex := r.emptyIndex }

/-- Adds the tokens of rows. -/
def addTokens (g : Graph) : List TokenRow → Except RowError Graph
  | [] => .ok g
  | r :: rs =>
    match g.addToken r.token with
    | .ok g => addTokens g rs
    | .error _ => .error (.tokenRepeated r.sentence r.index)

/-- Adds an edge into the token of a row. -/
def TokenRow.addEdge (r : TokenRow) (governor : Int) (relation : String) (extra : Bool) (g : Graph) : Except RowError Graph :=
  if g.hasToken governor then .ok (g.withEdge ⟨governor, r.index, relation, .one, extra⟩)
  else .error (.headMissing r.sentence governor)

/-- Adds extra edges into the token of a row. -/
def TokenRow.addEntries (r : TokenRow) (g : Graph) : List (List Char) → Except RowError Graph
  | [] => .ok g
  | entry :: entries =>
    let (head, relation) := (Text.splitFirst? ':' entry).getD (entry, [])
    match Numeral.int? head with
    | none => .error (.entryMalformed r.sentence (String.ofList entry))
    | some governor => do r.addEntries (← r.addEdge governor (String.ofList relation) true g) entries

/-- Adds what a row says of the place of its token in the graph. -/
def TokenRow.attach (r : TokenRow) (g : Graph) : Except RowError Graph := do
  let g ←
    match r.head with
    | some head => r.addEdge head (r.relation.getD "") false g
    | none => pure (if r.isRoot then g.modifyToken r.index fun t => { t with rootRelation := r.relation } else g)
  let g := if r.isRoot then g.withRoot r.index else g
  if r.deps = "" then return g else r.addEntries g (Text.splitOn '|' r.deps.toList)

/-- The graph of the rows of one sentence. -/
def sentenceGraph (rows : List TokenRow) : Except RowError Graph := do rows.foldlM (fun g r => r.attach g) (← addTokens {} rows)

/-- The numbers of the sentences, each where it stands first. -/
def sentences (rows : List TokenRow) : List Int := rows.foldl (fun ns r => if ns.contains r.sentence then ns else ns ++ [r.sentence]) []

/-- The graphs of rows, one for each sentence. -/
def graphsOfRows (rows : List TokenRow) : Except RowError (List Graph) :=
  (sentences rows).mapM fun sentence => sentenceGraph (rows.filter (·.sentence == sentence))

/-- Why graphs cannot be built from a frame. -/
inductive BuildError where
  | schema (error : SchemaError)
  | row (error : RowError)
  deriving DecidableEq, Repr

/-- The message of an error. -/
def BuildError.message : BuildError → String
  | schema e => e.message
  | row e => e.message

/-- The graphs of a token frame, one for each sentence. -/
def graphs (f : Frame) : Except BuildError (List Graph) := do
  (checkSchema f.columns).mapError .schema
  match f.rows.mapM fun row => TokenRow.ofCells? (f.named row) with
  | none => throw (.row .keyMissing)
  | some rows => (graphsOfRows rows).mapError .row

end Frame

end Treebank

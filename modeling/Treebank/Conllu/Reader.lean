import Treebank.Conllu.Basic
import Treebank.Diagnostics
import Treebank.Graph.Report
import Treebank.Text.Blank

/-!
# Reading sentences

Blank lines end sentences; comment lines stand before the rows of a sentence. An ordinary token has its id as index and position. An
elided token has its host's position and an index above those of all ordinary tokens. The head column gives the plain edge into a
token, zero for a root; the enhanced column gives extra edges.
-/

namespace Treebank.Conllu

/-! ## Lines -/

/-- The columns of a line that are separated by runs of tabs and spaces. -/
def looseColumns : List Char → List (List Char)
  | [] => [[]]
  | c :: cs =>
    let isGap (c : Char) := c = '\t' || c = ' '
    if isGap c then
      match cs with
      | [] => [[], []]
      | d :: _ => if isGap d then looseColumns cs else [] :: looseColumns cs
    else
      match looseColumns cs with
      | [] => [[c]]
      | w :: ws => (c :: w) :: ws

/-- The columns of a line: those between tabs if they are ten, and otherwise those between runs of tabs and spaces. -/
def columnsOf (line : List Char) : List String :=
  let tabbed := Text.splitOn '\t' line
  (if tabbed.length = columnCount then tabbed else looseColumns (Text.trim line)).map String.ofList

/-- Reads a row. -/
def Row.ofLine (lineNumber : Nat) (line : String) : Except FormatError Row :=
  let columns := columnsOf line.toList
  match Row.ofColumns? lineNumber columns with
  | some row => .ok row
  | none => .error ⟨.columnCount columns.length, lineNumber, line⟩

/-! ## Ids -/

/-- A number without leading zeros. -/
def positive? (cs : List Char) : Option Nat :=
  match cs with
  | [] => none
  | c :: rest => if '1' ≤ c && c ≤ '9' && rest.all Text.isAsciiDigit then some (Text.digitsValue cs) else none

/-- A number. -/
def natural? (cs : List Char) : Option Nat :=
  if cs.isEmpty || !cs.all Text.isAsciiDigit then none else some (Text.digitsValue cs)

/-- What an id says, if it is one. -/
def RowId.ofText? (id : String) : Option RowId :=
  let cs := id.toList
  match Text.splitFirst? '-' cs, Text.splitFirst? '.' cs with
  | some (a, b), _ => do return .span (← positive? a) (← positive? b)
  | none, some (a, b) => do return .elided (← natural? a) (← positive? b)
  | none, none => (positive? cs).map .ordinary

/-! ## Sentences -/

/-- What the rows of a sentence are: those of tokens with what their ids say, and the surface words that span several. -/
structure Roster where
  tokens : List (Row × RowId) := []
  multiwords : List Multiword := []
  deriving Repr, Inhabited

/-- Takes a row in. -/
def Roster.add (s : Roster) (row : Row) : Except FormatError Roster :=
  match RowId.ofText? row.id with
  | some (.span start stop) =>
    if stop < start then .error ⟨.rangeInvalid row.id, row.lineNumber, ""⟩
    else
      .ok { s with multiwords := s.multiwords ++ [{ start := start, stop := stop, form := row.form, columns := row.tail }] }
  | id =>
    if s.tokens.any (·.1.id == row.id) then .error ⟨.idDuplicate row.id, row.lineNumber, ""⟩
    else
      match id with
      | some id => .ok { s with tokens := s.tokens ++ [(row, id)] }
      | none => .error ⟨.idInvalid row.id, row.lineNumber, ""⟩

/-- The first index above those of the ordinary tokens. -/
def Roster.firstFree (s : Roster) : Nat :=
  (s.tokens.map fun (_, id) => match id with
    | .ordinary n => n
    | _ => 0).foldl max 0 + 1

/-- The indices of the tokens, row by row: an ordinary one has its id, the elided ones have the next free indices in turn. -/
def indexRows (free : Nat) : List (Row × RowId) → List (Row × RowId × Int)
  | [] => []
  | (row, .elided host n) :: rows => (row, .elided host n, (free : Int)) :: indexRows (free + 1) rows
  | (row, .ordinary n) :: rows => (row, .ordinary n, (n : Int)) :: indexRows free rows
  | (row, id) :: rows => (row, id, 0) :: indexRows free rows

/-- The indices by id. -/
abbrev Indices := List (String × Int)

/-- The index of the token that a head column names. -/
def resolve (ids : Indices) (row : Row) (head : String) : Except FormatError Int :=
  match ids.lookup head with
  | some index => .ok index
  | none => .error ⟨.headUnknown head, row.lineNumber, ""⟩

/-- The plain edge into a token, if it has a head. -/
def Row.plainEdges (ids : Indices) (row : Row) (index : Int) : Except FormatError (List Edge) :=
  if row.head = "0" || row.head = blank then .ok []
  else do return [{ governor := ← resolve ids row row.head, dependent := index, relation := content row.relation }]

/-- The extra edges into a token that some entries of its enhanced column give, read in turn. -/
def Row.extraEdges (ids : Indices) (row : Row) (index : Int) : List (List Char) → Except FormatError (List Edge)
  | [] => .ok []
  | entry :: entries =>
    match Text.splitFirst? ':' entry with
    | some (head, c :: relation) =>
      if head = ['0'] then row.extraEdges ids index entries
      else do
        let governor ← resolve ids row (String.ofList head)
        let edge : Edge :=
          { governor := governor, dependent := index, relation := String.ofList (c :: relation), extra := true }
        return edge :: (← row.extraEdges ids index entries)
    | _ => .error ⟨.depsMalformed (String.ofList entry), row.lineNumber, ""⟩

/-- The entries of the enhanced column. -/
def Row.entries (row : Row) : List (List Char) := if row.deps = blank then [] else Text.splitOn '|' row.deps.toList

/-- The edges into a token. -/
def Row.edges (ids : Indices) (row : Row) (index : Int) : Except FormatError (List Edge) := do
  return (← row.plainEdges ids index) ++ (← row.extraEdges ids index row.entries)

/-- The relation of the last entry of the enhanced column whose head is zero. -/
def Row.enhancedRoot (row : Row) : String :=
  (row.entries.filterMap fun entry =>
    match Text.splitFirst? ':' entry with
    | some (['0'], relation) => some (String.ofList relation)
    | _ => none).getLast?.getD ""

/-- The token of a row, without what depends on other rows. -/
def Row.token (row : Row) (index position emptyIndex : Int) : Token where
  index := index
  word := content row.form
  baseForm := content row.baseForm
  tag := content row.tag
  upos := content row.upos
  feats := content row.feats
  misc := content row.misc
  position := position
  emptyIndex := emptyIndex
  rootRelation := if row.head = "0" then some (content row.relation) else none
  enhancedRootRelation := row.enhancedRoot
  lineNumber := row.lineNumber

/-- The form of the last surface word that spans a position. -/
def spanning (multiwords : List Multiword) (position : Int) : String :=
  ((multiwords.reverse.find? fun m => m.start ≤ position && position ≤ m.stop).map (·.form)).getD ""

/-- The token of a row. -/
def tokenOf (multiwords : List Multiword) (row : Row) (id : RowId) (index : Int) : Token :=
  match id with
  | .elided host n => row.token index host n
  | _ => { row.token index index 0 with spanForm := spanning multiwords index }

/-- The graph of a sentence. -/
def buildGraph (comments : List String) (rows : List Row) : Except FormatError Graph := do
  let s ← rows.foldlM Roster.add {}
  let indexed := indexRows s.firstFree s.tokens
  let ids : Indices := indexed.map fun (row, _, index) => (row.id, index)
  let edges ← indexed.mapM fun (row, _, index) => row.edges ids index
  let tokens := indexed.map fun (row, id, index) => tokenOf s.multiwords row id index
  let roots := (indexed.filter fun (row, _, _) => row.head == "0").map fun (_, _, index) => index
  let start : Graph := { comments := comments, multiwords := s.multiwords }
  let g := tokens.foldl Graph.withToken start
  let g := edges.flatten.foldl Graph.withEdge g
  return roots.foldl Graph.withRoot g

/-- Whether a read graph is checked: a warning for each violation. -/
def reportViolations (lineNumber : Nat) (g : Graph) : StateM Sink Unit :=
  g.violations.forM fun v =>
    modify (·.emit
      { level := .warning
        code := "invariant_violation"
        message := v.message
        context :=
          [("invariant", .str v.name), ("line", .int lineNumber), ("nodes", .arr (v.tokens.map .int))] })

/-- Reads the rows of a sentence. -/
def readSentence (validate : Bool) (comments : List String) (rows : List Row) : Recorded FormatError Graph := do
  let g ← buildGraph comments rows
  if validate then
    reportViolations ((rows.head?.map (·.lineNumber)).getD 0) g
  Recorded.increment "graphs_read" 1
  return g

/-! ## Texts -/

/-- What has been read of the sentence at hand, each the last first. -/
structure Sentence where
  comments : List String := []
  rows : List Row := []

/-- Ends the sentence at hand, if there is one. -/
def Sentence.finish (validate : Bool) (s : Sentence) (lineNumber : Nat) (line : String) : Recorded FormatError (List Graph) :=
  if s.rows.isEmpty then
    if s.comments.isEmpty then return [] else throw ⟨.commentsAlone, lineNumber, line⟩
  else do return [← readSentence validate s.comments.reverse s.rows.reverse]

/-- Reads one line: the sentence goes on, or graphs are finished. -/
def Sentence.addLine (validate : Bool) (s : Sentence) (lineNumber : Nat) (line : String) :
    Recorded FormatError (Sentence × List Graph) := do
  if Text.isAllBlank line.toList then return ({}, ← s.finish validate lineNumber line)
  else if line.toList.head? == some '#' then
    if s.rows.isEmpty then return ({ s with comments := line :: s.comments }, [])
    else throw ⟨.commentInside, lineNumber, line⟩
  else
    let row ← Row.ofLine lineNumber line
    return ({ s with rows := row :: s.rows }, [])

/-- What was read: the graphs, and the fault at which reading stopped if it did. -/
structure Reading where
  graphs : List Graph
  failure : Option FormatError := none

/-- Reads lines one after the other, up to the first fault. -/
def readFrom (validate : Bool) (s : Sentence) (lineNumber : Nat) : List String → StateM Sink Reading
  | [] => do
    match ← (s.finish validate (lineNumber - 1) "").run with
    | .ok graphs => return { graphs := graphs }
    | .error e => return { graphs := [], failure := some e }
  | line :: lines => do
    match ← (s.addLine validate lineNumber line).run with
    | .ok (s, graphs) =>
      let rest ← readFrom validate s (lineNumber + 1) lines
      return { rest with graphs := graphs ++ rest.graphs }
    | .error e => return { graphs := [], failure := some e }

/-- A line without the line breaks at its end. -/
def chomp (line : String) : String := String.ofList (Text.dropEndWhile (fun c => c = '\r' || c = '\n') line.toList)

/-- Reads the graphs of lines, up to the first fault. -/
def readLines (validate : Bool) (lines : List String) : StateM Sink Reading := readFrom validate {} 1 (lines.map chomp)

/-- All graphs, if there was no fault. -/
def Reading.toExcept (r : Reading) : Except FormatError (List Graph) :=
  match r.failure with
  | some e => .error e
  | none => .ok r.graphs

/-- Reads the graphs of lines; a fault spoils them all. -/
def readAll (validate : Bool) (lines : List String) : Recorded FormatError (List Graph) :=
  ExceptT.mk do return (← readLines validate lines).toExcept

/-- Reads the graphs of a text. -/
def read (validate : Bool) (text : String) : Recorded FormatError (List Graph) :=
  readAll validate ((Text.lines text.toList).map String.ofList)

/-- Reads the graphs of a stored file. -/
def readStored (validate : Bool) (text : String) : Recorded FormatError (List Graph) :=
  readAll validate ((Text.fileLines text.toList).map String.ofList)

end Treebank.Conllu

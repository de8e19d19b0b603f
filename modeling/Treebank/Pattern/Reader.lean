import Treebank.Diagnostics
import Treebank.Pattern.Lexer

/-!
# Reading patterns

A pattern is read item by item, with a stack of the brackets and parentheses that are open. In a chain of relations every relation
hangs from the first token; parentheses let relations hang from an inner one. A name that occurs first under a negation is refused,
as is a name for both a token and an edge, or for tokens with different descriptions.
-/

namespace Treebank

namespace Pattern

/-- The names met so far: those of tokens with their descriptions, and those of edges. -/
structure Names where
  nodes : List (String × Description) := []
  edges : List String := []
  deriving Repr

/-- Adds the name of a token; a blank description gives way to one that is not. -/
def Names.addNode (names : Names) (underNegation : Bool) (name : String) (d : Description) : Except Fault Names :=
  if names.edges.contains name then .error (.nameOfBoth name)
  else
    match names.nodes.lookup name with
    | none => if underNegation then .error (.nodeUnderNegation name) else .ok { names with nodes := names.nodes ++ [(name, d)] }
    | some previous =>
      if previous.isBlank then .ok { names with nodes := Pairs.put names.nodes name d }
      else if !d.isBlank && d.text != previous.text then .error (.twoDescriptions name)
      else .ok names

/-- Adds the name of an edge. -/
def Names.addEdge (names : Names) (underNegation : Bool) (name : String) : Except Fault Names :=
  if Pairs.has names.nodes name then .error (.nameOfBoth name)
  else if names.edges.contains name then .ok names
  else if underNegation then .error (.edgeUnderNegation name)
  else .ok { names with edges := names.edges ++ [name] }

/-- Something open: the constraints before it, on the same token, are listed backwards. -/
inductive Frame where
  /-- A bracket, with its branches so far, the last first. -/
  | group (mode : Mode) (outer branches : List Constraint)
  /-- A parenthesis around the target of a relation. -/
  | target (mode : Mode) (operator : Operator) (place : Place) (outer : List Constraint)

/-- Whether a negation spans what is open. -/
def Frame.isNegated : Frame → Bool
  | group mode .. => mode == .negated
  | target mode .. => mode == .negated

/-- What has been read of a pattern. -/
structure Draft where
  /-- The parts before the present one, the last first. -/
  parts : List Part
  /-- The place of the present part. -/
  place : Place
  /-- Whether the present part is in parentheses. -/
  enclosed : Bool
  /-- What is open, the innermost first. -/
  frames : List Frame := []
  /-- The constraints on the present token, the last first. -/
  items : List Constraint := []
  names : Names

/-- A step of reading. -/
inductive Progress where
  | reading (d : Draft) (rest : List Char)
  | finished (parts : List Part) (names : Names)

/-- The constraints on one token, listed backwards, as one. -/
def conjunction? : List Constraint → Option Constraint
  | [] => none
  | [c] => some c
  | items => some (.all .plain items.reverse)

/-- The constraint that a bracket stands for, given its branches. -/
def bracket (mode : Mode) : List Constraint → Constraint
  | [.all _ children] => .all mode children
  | [c] => .all mode [c]
  | branches => .any mode branches

/-- Reads a place: a description, and a name if there is one. -/
def takePlace (i : Input) (names : Names) (underNegation : Bool) (cs : List Char) :
    Except CompileError ((Place × Names) × List Char) := do
  let (d, rest) ← takeDescription i cs
  let (name, rest) ← takeName i .nodeNameMissing rest
  match name with
  | none => return (({ description := d }, names), rest)
  | some name =>
    match names.addNode underNegation name d with
    | .ok names => return (({ description := d, name := some name }, names), rest)
    | .error fault => .error (i.fault rest fault)

/-- Adds the name of the edge of an operator, if it has one; `rest` is the text behind the operator. -/
def Names.addEdgeOf (i : Input) (names : Names) (underNegation : Bool) (operator : Operator) (rest : List Char) :
    Except CompileError Names :=
  match operator.edgeName with
  | none => .ok names
  | some name => (names.addEdge underNegation name).mapError (i.fault rest)

/-- Passes an opening parenthesis, if there is one. -/
def takeParenthesis : List Char → Bool × List Char
  | '(' :: rest => (true, rest)
  | text => (false, text)

/-- Begins a part. -/
def beginPart (i : Input) (parts : List Part) (names : Names) (cs : List Char) : Except CompileError Progress :=
  let (enclosed, text) := takeParenthesis (Text.trimStart cs)
  match takePlace i names false text with
  | .error e => .error e
  | .ok ((place, names), rest) => .ok (.reading { parts := parts, place := place, enclosed := enclosed, names := names } rest)

/-- Goes on behind a part. -/
def afterPart (i : Input) (parts : List Part) (names : Names) (cs : List Char) : Except CompileError Progress :=
  match Text.trimStart cs with
  | [] => .ok (.finished parts.reverse names)
  | ':' :: rest => beginPart i parts names rest
  | c :: rest => .error (i.fault (c :: rest) (.unexpected c))

/-- The characters that end the constraints on a token. -/
def isEndMark (c : Char) : Bool := c = ')' || c = ']' || c = '|' || c = ':'

/-- Closes what is innermost; `text` is at the end of the constraints on a token. -/
def Draft.close (i : Input) (d : Draft) (text : List Char) : Except CompileError Progress :=
  match d.frames with
  | .group mode outer branches :: frames =>
    match conjunction? d.items with
    | none => .error (i.fault text .branchEmpty)
    | some branch =>
      match text with
      | '|' :: rest => .ok (.reading { d with frames := .group mode outer (branch :: branches) :: frames, items := [] } rest)
      | ']' :: rest => .ok (.reading { d with frames := frames, items := bracket mode (branch :: branches).reverse :: outer } rest)
      | text => .error (i.fault text (.expected ']' text.head?))
  | .target mode operator place outer :: frames =>
    match text with
    | ')' :: rest =>
      .ok (.reading { d with frames := frames, items := .relation mode operator place (conjunction? d.items) :: outer } rest)
    | text => .error (i.fault text (.expected ')' text.head?))
  | [] =>
    let parts := ⟨d.place, conjunction? d.items⟩ :: d.parts
    if d.enclosed then
      match text with
      | ')' :: rest => afterPart i parts d.names rest
      | text => .error (i.fault text (.expected ')' text.head?))
    else afterPart i parts d.names text

/-- Adds a relation, with nothing on its target, or opens a parenthesis around the target. -/
def Draft.relate (d : Draft) (mode : Mode) (operator : Operator) (target : Place) (names : Names) (opens : Bool) : Draft :=
  if opens then { d with frames := .target mode operator target d.items :: d.frames, items := [], names := names }
  else { d with items := .relation mode operator target none :: d.items, names := names }

/-- Reads a relation with its target, behind the parenthesis around that if there is one. -/
def Draft.takeRelation (i : Input) (d : Draft) (mode : Mode) (text : List Char) : Except CompileError Progress := do
  let underNegation := mode == .negated || d.frames.any Frame.isNegated
  let (operator, rest) ← takeOperator i text
  let names ← d.names.addEdgeOf i underNegation operator rest
  let (opens, rest) := takeParenthesis (Text.trimStart rest)
  let ((target, names), rest) ← takePlace i names underNegation rest
  return .reading (d.relate mode operator target names opens) rest

/-- Whether a character is a mark of a mode, or a blank between such marks. -/
def isModeChar (c : Char) : Bool := c = '!' || c = '?' || Text.isBlank c

/-- Reads one item: a relation or an opening bracket, behind the marks of its mode. -/
def Draft.takeItem (i : Input) (d : Draft) (text : List Char) : Except CompileError Progress :=
  let marks := text.takeWhile isModeChar
  let rest := text.dropWhile isModeChar
  if marks.contains '!' && marks.contains '?' then .error (i.fault text .negatedOptional)
  else
    let mode : Mode := if marks.contains '!' then .negated else if marks.contains '?' then .optional else .plain
    match rest with
    | '[' :: rest => .ok (.reading { d with frames := .group mode d.items [] :: d.frames, items := [] } rest)
    | rest => d.takeRelation i mode rest

/-- Reads on. -/
def Draft.step (i : Input) (d : Draft) (cs : List Char) : Except CompileError Progress :=
  match Text.trimStart cs with
  | [] => d.close i []
  | '&' :: rest =>
    match Text.trimStart rest with
    | [] => .error (i.fault [] .relationMissing)
    | c :: text => if isEndMark c then .error (i.fault (c :: text) .relationMissing) else .ok (.reading d (c :: text))
  | c :: text => if isEndMark c then d.close i (c :: text) else d.takeItem i (c :: text)

/-- Reads to the end. Every step takes up some of the text. -/
def Draft.run (i : Input) (d : Draft) (cs : List Char) : Except CompileError (List Part × Names) :=
  match d.step i cs with
  | .error e => .error e
  | .ok (.finished parts names) => .ok (parts, names)
  | .ok (.reading d rest) => if rest.length < cs.length then run i d rest else .error (i.fault cs .operatorMissing)
termination_by cs.length

/-- Reads a pattern that is not blank. -/
def read (options : PatternOptions) (text : String) : Except CompileError Pattern := do
  let i := Input.of text
  match ← beginPart i [] {} text.toList with
  | .finished .. => .error (i.fault [] .descriptionMissing)
  | .reading d rest =>
    let (parts, names) ← d.run i rest
    return {
      source := text
      parts := parts
      nodeNames := Pairs.keys names.nodes
      edgeNames := names.edges
      options := options }

/-- The list of names as a JSON value. -/
def namesJson (names : List String) : Json := .arr (names.map .str)

/-- Reads a pattern, and records how that went; what a regular expression asks for in vain is not recorded. -/
def compile (options : PatternOptions) (text : String) : Recorded CompileError Pattern := do
  if Text.isAllBlank text.toList then
    Recorded.emit { level := .error, code := "compile_failed", message := Fault.blank.message }
    throw ⟨.blank, none, 0, text⟩
  else
    match read options text with
    | .ok p =>
      Recorded.increment "patterns_compiled" 1
      Recorded.emit
        { level := .debug, code := "pattern_compiled", message := p.text, context := [("nodes", namesJson p.nodeNames)] }
      return p
    | .error e =>
      if !e.fault.isLimit then
        Recorded.emit
          { level := .error
            code := "compile_failed"
            message := e.reason
            context := [("position", .int e.position), ("pattern", .str text)] }
      throw e

/-- Reads a pattern, without a record. -/
def ofText (options : PatternOptions) (text : String) : Except CompileError Pattern := (compile options text |>.run {}).1

end Pattern

end Treebank

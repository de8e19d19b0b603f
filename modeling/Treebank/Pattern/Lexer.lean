import Treebank.Pattern.Basic
import Treebank.Pattern.Error

/-!
# The words of patterns

Reads descriptions of tokens, `\x7bword:/x/;tag:NN|NNS\x7d=a`, and operators, `2,3>>nsubj=e`, at the start of a text.
-/

namespace Treebank.Pattern

/-- The text that is read. -/
structure Input where
  text : String
  size : Nat

/-- The input of a text. -/
def Input.of (text : String) : Input := ⟨text, text.length⟩

/-- The place in the text before what is left of it. -/
def Input.position (i : Input) (rest : List Char) : Nat := i.size - rest.length

/-- A fault before what is left of the text. -/
def Input.fault (i : Input) (rest : List Char) (fault : Fault) : CompileError := ⟨fault, none, i.position rest, i.text⟩

/-- ASCII letters. -/
def isLetter (c : Char) : Bool := (decide ('a' ≤ c) && decide (c ≤ 'z')) || (decide ('A' ≤ c) && decide (c ≤ 'Z'))

/-- The characters of names. -/
def isNameChar (c : Char) : Bool := isLetter c || Text.isAsciiDigit c || c = '_'

/-- The characters of attribute names. -/
def isKeyChar (c : Char) : Bool := isNameChar c || c = '.' || c = '-'

/-- The characters of labels. -/
def isLabelChar (c : Char) : Bool := isNameChar c || c = '-'

/-- The characters of operators. -/
def isOperatorChar (c : Char) : Bool := c = '<' || c = '>' || c = '$' || c = '.' || c = '+' || c = '-'

/-- Reads a non-empty run of characters. -/
def takeRun (i : Input) (p : Char → Bool) (missing : Fault) (cs : List Char) : Except CompileError (String × List Char) :=
  if (cs.takeWhile p).isEmpty then .error (i.fault cs missing) else .ok (String.ofList (cs.takeWhile p), cs.dropWhile p)

/-- Passes blanks and one mark. -/
def expect (i : Input) (mark : Char) (cs : List Char) : Except CompileError (List Char) :=
  match Text.trimStart cs with
  | [] => .error (i.fault [] (.expected mark none))
  | c :: rest => if c = mark then .ok rest else .error (i.fault (c :: rest) (.expected mark (some c)))

/-- The source of a regular expression up to the closing slash; a slash behind a backslash is part of it, without the backslash. -/
def regexSource? : List Char → Option (List Char × List Char)
  | [] => none
  | '\\' :: '/' :: cs => (regexSource? cs).map fun (source, rest) => ('/' :: source, rest)
  | '\\' :: c :: cs => (regexSource? cs).map fun (source, rest) => ('\\' :: c :: source, rest)
  | '/' :: cs => some ([], cs)
  | c :: cs => (regexSource? cs).map fun (source, rest) => (c :: source, rest)

/-- Reads a regular expression; `slash` is the text from its opening slash on. -/
def takeRegex (i : Input) (slash : List Char) : Except CompileError ((String × Regex) × List Char) :=
  match regexSource? (slash.drop 1) with
  | none => .error (i.fault slash .regexOpen)
  | some (source, rest) =>
    let source := String.ofList source
    match Regex.compile source with
    | .error .malformed => .error (i.fault slash (.regexInvalid source))
    | .error (.limit l) => .error (i.fault slash (.regexBeyond l))
    | .ok r => .ok ((source, r), rest)

/-! ## Descriptions -/

/-- The literal values of an attribute between bars; `start` is the text from the first one on. -/
def literals (i : Input) (key : String) (start : List Char) : List (List Char) → Except CompileError (List Test)
  | [] => .ok []
  | raw :: raws => do
    let value := Text.trim raw
    if value.isEmpty then .error (i.fault start (.valueMissing key))
    else return { key := key, value := .literal (String.ofList value) } :: (← literals i key start raws)

/-- Whether a character may stand in the value of an attribute. -/
def isValueChar (c : Char) : Bool := !(c = ';' || c = '\x7d')

/-- Reads the restrictions of one attribute. -/
def takeAttribute (i : Input) (cs : List Char) : Except CompileError ((String × List Test) × List Char) := do
  let (key, rest) ← takeRun i isKeyChar .attributeMissing cs
  let start := Text.trimStart (← expect i ':' rest)
  if start.head? = some '/' then
    let ((source, r), rest) ← takeRegex i start
    return ((key, [{ key := key, value := .regex source r }]), rest)
  else
    let raw := Text.trim (start.takeWhile isValueChar)
    let rest := start.dropWhile isValueChar
    if raw = ['_', '_'] then return ((key, [{ key := key, value := .any }]), rest)
    else return ((key, ← literals i key start (Text.splitOn '|' raw)), rest)

/-- Adds restrictions to the group of their attribute. -/
def Description.restrict (d : Description) (key : String) (tests : List Test) : Description :=
  { d with groups := Pairs.put d.groups key ((d.groups.lookup key).getD [] ++ tests) }

/-- Reads one entry of a description. -/
def takeEntry (i : Input) (d : Description) (cs : List Char) : Except CompileError (Description × List Char) :=
  match cs with
  | '$' :: rest => .ok ({ d with root := true }, rest)
  | cs => do
    let ((key, tests), rest) ← takeAttribute i cs
    return (d.restrict key tests, rest)

/-- Reads the entries of a description up to its closing brace. -/
def takeEntries (i : Input) (d : Description) (cs : List Char) : Except CompileError (Description × List Char) :=
  match takeEntry i d (Text.trimStart cs) with
  | .error e => .error e
  | .ok (d, rest) =>
    match Text.trimStart rest with
    | '\x7d' :: after => .ok (d, after)
    | ';' :: after => if after.length < cs.length then takeEntries i d after else .error (i.fault after .entryUnended)
    | text => .error (i.fault text .entryUnended)
termination_by cs.length

/-- Reads the braces of a description. -/
def takeBraces (i : Input) (negated : Bool) (cs : List Char) : Except CompileError (Description × List Char) :=
  match cs with
  | '\x7b' :: rest =>
    match Text.trimStart rest with
    | '\x7d' :: after => .ok ({ negated := negated }, after)
    | text => takeEntries i { negated := negated } text
  | text => .error (i.fault text .descriptionMissing)

/-- Reads a description. -/
def takeDescription (i : Input) (cs : List Char) : Except CompileError (Description × List Char) :=
  match Text.trimStart cs with
  | '!' :: rest => takeBraces i true (Text.trimStart rest)
  | text => takeBraces i false text

/-- Reads the name behind an equals sign, unless there is none; a double equals sign is an operator. -/
def takeName (i : Input) (missing : Fault) (cs : List Char) : Except CompileError (Option String × List Char) :=
  match cs with
  | '=' :: '=' :: _ => .ok (none, cs)
  | '=' :: rest => do
    let (name, rest) ← takeRun i isNameChar missing rest
    return (some name, rest)
  | cs => .ok (none, cs)

/-! ## Operators -/

/-- Reads the bounds on the length of a path, if there are any. -/
def takeDepth (cs : List Char) : Option (Nat × Nat) × List Char :=
  let low := cs.takeWhile Text.isDecimalDigit
  let rest := cs.dropWhile Text.isDecimalDigit
  if low.isEmpty then (none, cs)
  else
    let single := (some (Text.digitsValue low, Text.digitsValue low), rest)
    match rest with
    | ',' :: after =>
      let high := after.takeWhile Text.isDecimalDigit
      if high.isEmpty then single
      else (some (Text.digitsValue low, Text.digitsValue high), after.dropWhile Text.isDecimalDigit)
    | _ => single

/-- The sign of an operator at the start of a text. -/
def operatorSign (cs : List Char) : List Char :=
  match cs with
  | '=' :: '=' :: _ => ['=', '=']
  | cs => cs.takeWhile isOperatorChar

/-- The subtypes of a label at the start of a text, and what follows. -/
def labelTail (cs : List Char) : List Char × List Char :=
  match cs with
  | ':' :: rest =>
    let part := rest.takeWhile isLabelChar
    if part.isEmpty then ([], cs)
    else
      let (tail, after) := labelTail (rest.dropWhile isLabelChar)
      (':' :: part ++ tail, after)
  | cs => ([], cs)
termination_by cs.length
decreasing_by
  have := (List.dropWhile_sublist isLabelChar (l := rest)).length_le
  simp only [List.length_cons]
  omega

/-- Reads a label. -/
def takeLabel (i : Input) (cs : List Char) : Except CompileError (Label × List Char) :=
  match cs with
  | '/' :: _ => do
    let ((source, r), rest) ← takeRegex i cs
    return (.regex source r, rest)
  | '%' :: rest => .ok (.any, rest)
  | c :: _ =>
    if isLetter c || c = '_' then
      let (tail, rest) := labelTail (cs.dropWhile isLabelChar)
      .ok (.exact (String.ofList (cs.takeWhile isLabelChar ++ tail)), rest)
    else .ok (.any, cs)
  | [] => .ok (.any, [])

/-- Whether bounds on the length of a path make sense. -/
def depthFits (low high : Nat) : Bool := decide (low ≤ high) && decide (0 < high)

/-- Reads an operator. -/
def takeOperator (i : Input) (cs : List Char) : Except CompileError (Operator × List Char) := do
  let (depth, text) := takeDepth cs
  let sign := operatorSign text
  if sign.isEmpty then .error (i.fault text .operatorMissing)
  else
    let name := String.ofList sign
    match Kind.ofSign? name with
    | none => .error (i.fault text (.operatorUnknown name))
    | some kind =>
      if depth.isSome && !kind.isTransitive then .error (i.fault cs (.depthRefused name))
      else
        let (low, high) := depth.getD (0, 0)
        if depth.isSome && !depthFits low high then .error (i.fault cs (.depthInvalid low high))
        else
          let (label, rest) ← takeLabel i (text.drop sign.length)
          let (edgeName, rest) ← takeName i .edgeNameMissing rest
          if !kind.followsEdges && (label != .any || edgeName.isSome) then .error (i.fault cs (.labelRefused name))
          else return ({ kind := kind, label := label, minDepth := low, maxDepth := high, edgeName := edgeName }, rest)

end Treebank.Pattern

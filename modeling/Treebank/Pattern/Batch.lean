import Treebank.Pattern.Reader

/-!
# Batches of patterns

A batch holds one pattern a line. Blank lines and lines that begin with `#` are passed over. A line `macro NAME = value` defines a
shorthand; where a later line says the name in braces behind a dollar sign, the value is put in its place. A definition may use the
shorthands defined before it.
-/

namespace Treebank.Pattern

/-- The shorthands by name. -/
abbrev Shorthands := List (String × String)

/-- An identifier at the start of a text, and what follows it. -/
def identifier? (cs : List Char) : Option (List Char × List Char) :=
  match cs with
  | [] => none
  | c :: rest => if isLetter c || c = '_' then some (c :: rest.takeWhile isNameChar, rest.dropWhile isNameChar) else none

/-- The name of a shorthand that is used at the start of a text, and what follows. -/
def use? (cs : List Char) : Option (List Char × List Char) :=
  match cs with
  | '$' :: '\x7b' :: rest =>
    match identifier? rest with
    | some (name, '\x7d' :: after) => some (name, after)
    | _ => none
  | _ => none

/-- Puts the values of shorthands in the place of their names. -/
def substitute (i : Input) (line : Nat) (table : Shorthands) (cs : List Char) : Except CompileError (List Char) :=
  match use? cs with
  | some (name, after) =>
    match table.lookup (String.ofList name) with
    | none => .error { i.fault cs (.shorthandUnknown (String.ofList name)) with line := some line }
    | some value =>
      if after.length < cs.length then do return value.toList ++ (← substitute i line table after) else .ok cs
  | none =>
    match cs with
    | [] => .ok []
    | c :: rest => do return c :: (← substitute i line table rest)
termination_by cs.length

/-- A text with the values of shorthands in the place of their names. -/
def expand (line : Nat) (table : Shorthands) (text : String) : Except CompileError String := do
  return String.ofList (← substitute (Input.of text) line table text.toList)

/-- The name and the value that a line defines, if it is a definition. -/
def definition? (cs : List Char) : Option (List Char × List Char) :=
  match cs with
  | 'm' :: 'a' :: 'c' :: 'r' :: 'o' :: rest =>
    match rest with
    | [] => none
    | c :: _ =>
      if Text.isBlank c then do
        let (name, after) ← identifier? (Text.trimStart rest)
        match Text.trimStart after with
        | '=' :: value =>
          let value := Text.trimStart value
          if value.contains '\n' then none else some (name, Text.trim value)
        | _ => none
      else none
  | _ => none

/-- What has been read of a batch. -/
structure BatchDraft where
  table : Shorthands := []
  /-- The patterns so far, the last first. -/
  patterns : List Pattern := []

/-- Reads one line of a batch, without the blanks around it. -/
def BatchDraft.addLine (options : PatternOptions) (d : BatchDraft) (number : Nat) (line : List Char) :
    Recorded CompileError BatchDraft := do
  if line.isEmpty || line.head? == some '#' then return d
  else
    match definition? line with
    | some (name, value) =>
      let name := String.ofList name
      let value ← expand number d.table (String.ofList value)
      Recorded.emit
        { level := .debug, code := "macro_defined", message := name ++ " = " ++ value, context := [("line", .int number)] }
      return { d with table := Pairs.put d.table name value }
    | none =>
      let text ← expand number d.table (String.ofList line)
      let p ← (compile options text).adapt fun e => { e with line := some number }
      return { d with patterns := p :: d.patterns }

/-- Reads the lines of a batch from the given line number on. -/
def BatchDraft.addLines (options : PatternOptions) (d : BatchDraft) (number : Nat) : List String → Recorded CompileError BatchDraft
  | [] => return d
  | line :: lines => do
    let d ← d.addLine options number (Text.trim line.toList)
    addLines options d (number + 1) lines

/-- Reads the patterns of a batch. -/
def compileLines (options : PatternOptions) (lines : List String) : Recorded CompileError (List Pattern) := do
  return (← BatchDraft.addLines options {} 1 lines).patterns.reverse

/-- Reads the patterns of a batch given as one text. -/
def compileBatch (options : PatternOptions) (text : String) : Recorded CompileError (List Pattern) :=
  compileLines options ((Text.lines text.toList).map String.ofList)

end Treebank.Pattern

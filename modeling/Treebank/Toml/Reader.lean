import Treebank.Toml.Scalar
import Treebank.Toml.Table

/-!
# Reading configuration texts

A configuration text has a statement on each line: a value under a name, or a header that opens a table. Arrays and tables may also be
written out as values. A text with any fault is refused as a whole.
-/

namespace Treebank.Toml

/-- Passes a comment, if there is one; a control character in it is a fault. -/
def comment? (cs : List Char) : Option (List Char) :=
  match cs with
  | '#' :: rest => if (rest.takeWhile (· != '\n')).any isControl then none else some (rest.dropWhile (· != '\n'))
  | _ => some cs

/-- Passes blanks, line feeds and comments between the items of an array. -/
def gap? (cs : List Char) : Option (List Char) :=
  match cs.dropWhile fun c => isSpace c || c = '\n' with
  | '#' :: rest =>
    match comment? ('#' :: rest) with
    | some after => if after.length < cs.length then gap? after else none
    | none => none
  | rest => some rest
termination_by cs.length

/-- The characters of names without quotes. -/
def isBareChar (c : Char) : Bool :=
  (decide ('a' ≤ c) && decide (c ≤ 'z')) || (decide ('A' ≤ c) && decide (c ≤ 'Z')) || Text.isAsciiDigit c || c = '-' || c = '_'

/-- Reads one part of a name. -/
def keyPart? (cs : List Char) : Option (String × List Char) :=
  let bare := cs.takeWhile isBareChar
  if bare.isEmpty then string? false cs else some (String.ofList bare, cs.dropWhile isBareChar)

/-- Reads a name, whose parts are divided by points, and passes the blanks behind it. -/
def key? (cs : List Char) : Option (Path × List Char) :=
  match keyPart? cs with
  | none => none
  | some (part, rest) =>
    match rest.dropWhile isSpace with
    | '.' :: after =>
      let next := after.dropWhile isSpace
      if next.length < cs.length then (key? next).map fun (path, rest) => (part :: path, rest) else none
    | rest => some ([part], rest)
termination_by cs.length

mutual
/-- Reads a value; `fuel` bounds how many values may be nested and follow each other. -/
def value? (fuel : Nat) (cs : List Char) : Option (Json × List Char) :=
  match fuel with
  | 0 => none
  | fuel + 1 =>
    match cs with
    | 't' :: 'r' :: 'u' :: 'e' :: rest => some (.bool true, rest)
    | 'f' :: 'a' :: 'l' :: 's' :: 'e' :: rest => some (.bool false, rest)
    | '[' :: rest => (gap? rest).bind (items? fuel [])
    | '\x7b' :: rest => fields? fuel true (.obj []) [] (rest.dropWhile isSpace)
    | c :: _ =>
      if c = '"' || c = '\'' then (string? true cs).map fun (s, rest) => (.str s, rest)
      else
        match moment? cs with
        | some found => found
        | none => number? cs
    | [] => none

/-- Reads the items of an array up to its closing bracket. -/
def items? (fuel : Nat) (before : List Json) (cs : List Char) : Option (Json × List Char) :=
  match fuel with
  | 0 => none
  | fuel + 1 =>
    match cs with
    | ']' :: rest => some (.arr before.reverse, rest)
    | _ => do
      let (v, rest) ← value? fuel cs
      match ← gap? rest with
      | ']' :: rest => some (.arr (v :: before).reverse, rest)
      | ',' :: rest => (gap? rest).bind (items? fuel (v :: before))
      | _ => none

/-- Reads the fields of a table in braces up to its closing brace, which may come at once only if there is no field. -/
def fields? (fuel : Nat) (first : Bool) (table : Json) (finished : List Path) (cs : List Char) : Option (Json × List Char) :=
  match fuel with
  | 0 => none
  | fuel + 1 =>
    match first, cs with
    | true, '\x7d' :: rest => some (table, rest)
    | _, _ => do
      let (key, rest) ← key? cs
      let (v, rest) ← value? fuel ((← pass? '=' rest).dropWhile isSpace)
      let (table, finished) ← setInline table finished key v
      match rest.dropWhile isSpace with
      | '\x7d' :: rest => some (table, rest)
      | ',' :: rest => fields? fuel false table finished (rest.dropWhile isSpace)
      | _ => none
end

/-- Reads one statement that is not blank; gives also the header that is in force behind it. -/
def statement? (d : Draft) (header : Path) (cs : List Char) : Option (Draft × Path × List Char) :=
  match cs with
  | '[' :: '[' :: rest => do
    let (path, rest) ← key? (rest.dropWhile isSpace)
    let d ← d.settle.appendTable path
    return (d, path, ← pass? ']' (← pass? ']' rest))
  | '[' :: rest => do
    let (path, rest) ← key? (rest.dropWhile isSpace)
    let d ← d.settle.openTable path
    return (d, path, ← pass? ']' rest)
  | _ => do
    let (key, rest) ← key? cs
    let (v, rest) ← value? (2 * cs.length) ((← pass? '=' rest).dropWhile isSpace)
    return (← d.setValue header key v, header, rest)

/-- Reads the statements of a text. -/
def statements? (d : Draft) (header : Path) (cs : List Char) : Option Draft :=
  match cs.dropWhile isSpace with
  | [] => some d
  | c :: text => do
    let (d, header, rest) ← if c = '\n' || c = '#' then some (d, header, c :: text) else statement? d header (c :: text)
    match ← comment? (rest.dropWhile isSpace) with
    | [] => some d
    | '\n' :: after => if after.length < cs.length then statements? d header after else none
    | _ => none
termination_by cs.length

/-- The text with a carriage return before a line feed left out. -/
def joinReturns : List Char → List Char
  | '\r' :: '\n' :: cs => '\n' :: joinReturns cs
  | c :: cs => c :: joinReturns cs
  | [] => []

/-- The tables of a configuration text, if it has no fault. -/
def parse? (text : String) : Option Json := (statements? {} [] (joinReturns text.toList)).map (·.root)

end Treebank.Toml

import Treebank.Decimal.Numeral
import Treebank.Edit.Basic
import Treebank.Pairs
import Treebank.Text.Pieces

/-!
# Reading edits

A line begins with a command, in any mix of cases. The roots to set follow as plain words; all other commands take flags, each with a
value, of two flags of one name the last. A value in quotes may hold blanks and may be empty.
-/

namespace Treebank

namespace Edit

/-- What is wrong with a line. -/
inductive LineError where
  | blank
  | rootsMissing (line : String)
  | quoteOpen (text : String)
  | flagUnknown (flag line : String)
  | valueMissing (flag line : String)
  | weightInvalid (weight line : String)
  | argumentMissing (command flag line : String)
  | commandUnknown (command line : String)
  | braceMissing (attributes : String)
  | attributeInvalid (entry attributes : String)
  deriving DecidableEq, Repr

/-- What is wrong, in words. -/
def LineError.reason : LineError → String
  | blank => "Empty edit line"
  | rootsMissing _ => "'setRoots' requires at least one name"
  | quoteOpen _ => "Unmatched quote"
  | flagUnknown flag _ => "Unknown flag '" ++ flag ++ "'"
  | valueMissing flag _ => "Missing value for flag '" ++ flag ++ "'"
  | weightInvalid weight _ => "Invalid weight '" ++ weight ++ "'"
  | argumentMissing command flag _ => "'" ++ command ++ "' requires " ++ flag
  | commandUnknown command _ => "Unsupported command '" ++ command ++ "'"
  | braceMissing _ => "Node spec must be enclosed in braces"
  | attributeInvalid entry _ => "Node attribute '" ++ entry ++ "' is not key:value"

/-- The text in which it was found. -/
def LineError.line : LineError → String
  | blank => ""
  | rootsMissing line | quoteOpen line | flagUnknown _ line | valueMissing _ line | weightInvalid _ line
  | argumentMissing _ _ line | commandUnknown _ line | braceMissing line | attributeInvalid _ line => line

/-- The message of an error. -/
def LineError.message (e : LineError) : String := e.reason ++ if e.line = "" then "" else ": " ++ e.line

/-! ## Arguments -/

/-- The arguments of a text: what stands between two quotes, and runs without blanks. A quote that is not closed begins a run. -/
def cutArguments (cs : List Char) : List (List Char) :=
  match cs with
  | [] => []
  | '"' :: rest =>
    match h : Text.splitFirst? '"' rest with
    | some (quoted, after) =>
      have := congrArg List.length (Text.of_splitFirst?_eq_some h).1
      quoted :: cutArguments after
    | none => ('"' :: rest.takeWhile (!Text.isBlank ·)) :: cutArguments (rest.dropWhile (!Text.isBlank ·))
  | c :: rest =>
    if Text.isBlank c then cutArguments rest
    else (c :: rest.takeWhile (!Text.isBlank ·)) :: cutArguments (rest.dropWhile (!Text.isBlank ·))
termination_by cs.length
decreasing_by
  · simp only [List.length_append, List.length_cons] at this ⊢
    omega
  · have := (List.dropWhile_suffix (l := rest) (!Text.isBlank ·)).length_le
    simp only [List.length_cons]
    omega
  · simp
  · have := (List.dropWhile_suffix (l := rest) (!Text.isBlank ·)).length_le
    simp only [List.length_cons]
    omega

/-- The arguments of a text, in which every quote has to be closed. -/
def splitArguments (text : String) : Except LineError (List String) :=
  if text.toList.count '"' % 2 = 1 then .error (.quoteOpen text) else .ok ((cutArguments text.toList).map String.ofList)

/-- Reads entries of attributes, each with a name, a colon and a value. -/
def readEntries (whole : String) (attributes : Attributes) : List (List Char) → Except LineError Attributes
  | [] => .ok attributes
  | entry :: entries =>
    match Text.splitFirst? ':' entry with
    | none => .error (.attributeInvalid (String.ofList entry) whole)
    | some (name, value) =>
      readEntries whole (Pairs.put attributes (String.ofList (Text.trim name)) (String.ofList (Text.trim value))) entries

/-- Reads attributes in braces. -/
def Attributes.ofText (text : String) : Except LineError Attributes :=
  let cs := Text.trim text.toList
  if cs.head? == some '\x7b' && cs.getLast? == some '\x7d' then
    let body := Text.trim (cs.tail.dropLast)
    if body.isEmpty then .ok [] else readEntries (String.ofList cs) [] (Text.splitOn ';' body)
  else .error (.braceMissing (String.ofList cs))

/-! ## Flags -/

/-- The flags. -/
def flags : List String := ["-gov", "-dep", "-edge", "-reln", "-node", "-nodearg", "-weight", "-name"]

/-- Flags with their values. -/
abbrev Arguments := List (String × String)

/-- Reads flags, each with its value. -/
def readFlags (line : String) (args : Arguments) : List String → Except LineError Arguments
  | [] => .ok args
  | [flag] => .error (if flags.contains flag then .valueMissing flag line else .flagUnknown flag line)
  | flag :: value :: rest =>
    if flags.contains flag then readFlags line (Pairs.put args flag value) rest else .error (.flagUnknown flag line)

/-- The weight among the arguments; one if there is none. -/
def weightOf (line : String) (args : Arguments) : Except LineError Binary64 :=
  match args.lookup "-weight" with
  | none => .ok .one
  | some value =>
    match Numeral.float? value.toList with
    | some weight => .ok weight
    | none => .error (.weightInvalid value line)

/-- A line that is being read: its command and its arguments. -/
structure Command where
  line : String
  word : String
  args : Arguments
  weight : Binary64

/-- A value that the command needs; an empty one is none. -/
def Command.require (c : Command) (flag : String) : Except LineError { value : String // (given? (some value)).isSome = true } :=
  match c.args.lookup flag with
  | some value => if h : (given? (some value)).isSome = true then .ok ⟨value, h⟩ else .error (.argumentMissing c.word flag c.line)
  | none => .error (.argumentMissing c.word flag c.line)

/-- The edit of a command, by its word in small letters. -/
def Command.edit (c : Command) : String → Except LineError Edit
  | "adddep" => do
    let governor ← c.require "-gov"
    let relation ← c.require "-reln"
    let attributes ← Attributes.ofText (← c.require "-nodearg").1
    return addDependent governor.1 relation.1 attributes (c.args.lookup "-name") c.weight
  | "addnode" => do
    let attributes ← Attributes.ofText (← c.require "-nodearg").1
    return addNode attributes (c.args.lookup "-name")
  | "addedge" => do
    let governor ← c.require "-gov"
    let dependent ← c.require "-dep"
    let relation ← c.require "-reln"
    return addEdge governor.1 dependent.1 relation.1 c.weight false
  | "delete" => do return delete (← c.require "-node").1
  | "removeedge" => do
    let governor ← c.require "-gov"
    let dependent ← c.require "-dep"
    return removeEdge
      { governor := some governor.1
        dependent := some dependent.1
        relation := c.args.lookup "-reln"
        targeted := by simp [governor.2, dependent.2] }
  | "removenamededge" => do
    let edge ← c.require "-edge"
    return removeEdge
      { edge := some edge.1
        governor := c.args.lookup "-gov"
        dependent := c.args.lookup "-dep"
        relation := c.args.lookup "-reln"
        targeted := by simp [edge.2] }
  | "killnonrootednodes" => .ok killNonRootedNodes
  | "killallincomingedges" => do return killAllIncomingEdges (← c.require "-node").1
  | _ => .error (.commandUnknown c.word c.line)

/-- Reads a line. -/
def ofLine (text : String) : Except LineError Edit := do
  let cs := Text.trim text.toList
  let line := String.ofList cs
  match Text.firstWord? cs with
  | none => throw .blank
  | some (word, rest) =>
    let lowered := String.ofList (Text.lower word)
    if lowered = "setroots" then
      let names := (Text.words rest).map String.ofList
      if names.isEmpty then throw (.rootsMissing line) else return setRoots names
    else
      let args ← readFlags line [] (← splitArguments (String.ofList rest))
      let c : Command := { line := line, word := String.ofList word, args := args, weight := ← weightOf line args }
      c.edit lowered

/-- Whether a line says nothing: it is blank or begins with `#`. -/
def isSilent (line : String) : Bool :=
  match Text.trim line.toList with
  | [] => true
  | c :: _ => c == '#'

/-- Reads lines, passing over those that say nothing. -/
def ofLines (lines : List String) : Except LineError (List Edit) := (lines.filter (!isSilent ·)).mapM ofLine

end Edit

end Treebank

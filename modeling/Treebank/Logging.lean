import Treebank.Settings
import Treebank.Text.Case

/-!
# Logging

The parts of the system log under names with points in them; the first component of a name is the package. Logging is set up for all
packages alike, with a level and a line format; an entry below the level is dropped. Entries of other names are not written at all.
-/

namespace Treebank

namespace Logging

/-- The packages. -/
def packages : List String := ["core", "semgrex", "surgery", "infrastructure"]

/-- The levels by name; the first name of a level is the one that is written. -/
def levels : List (String × Nat) :=
  [("CRITICAL", 50), ("FATAL", 50), ("ERROR", 40), ("WARNING", 30), ("WARN", 30), ("INFO", 20), ("DEBUG", 10), ("NOTSET", 0)]

/-- The level that applies where none is set. -/
def rootLevel : Nat := 30

/-- The name of a level. -/
def levelName (level : Nat) : String := ((levels.find? (·.2 == level)).map (·.1)).getD ""

/-- An entry of a log. -/
structure Entry where
  level : Nat
  name : String
  message : String
  deriving DecidableEq, Repr, Inhabited

/-! ## Formats -/

/-- A field of a format: its name, whether it stands to the left of the blanks that fill it up, its least width, and how much of it is
shown at most. -/
structure Field where
  name : String
  toLeft : Bool := false
  width : Nat := 0
  limit : Option Nat := none
  deriving DecidableEq, Repr

/-- A piece of a format. -/
inductive Piece where
  | char (c : Char)
  | field (field : Field)
  deriving DecidableEq, Repr

/-- Whether a character may stand in the name of a field. -/
def isNameChar (c : Char) : Bool := c.isAlphanum || c = '_'

/-- Whether a character may stand between the name and the width of a field. -/
def isFlag (c : Char) : Bool := ['#', '0', '+', ' ', '-'].contains c

/-- Whether a character may end a field. -/
def isConversion (c : Char) : Bool := "diouxefgcrsaDIOUXEFGCRSA%".toList.contains c

/-- The width at the start of a text, and what follows. -/
def width (cs : List Char) : Nat × List Char :=
  (Text.digitsValue (cs.takeWhile Text.isAsciiDigit), cs.dropWhile Text.isAsciiDigit)

/-- The field at the start of a text, and what follows. -/
def field? : List Char → Option (Field × List Char)
  | '%' :: '(' :: cs =>
    let name := cs.takeWhile isNameChar
    match cs.dropWhile isNameChar with
    | ')' :: rest =>
      let flags := rest.takeWhile isFlag
      let (width₁, rest) := width (rest.dropWhile isFlag)
      let (limit, rest) :=
        match rest with
        | '.' :: rest => ((some (width rest).1, (width rest).2) : Option Nat × List Char)
        | rest => (none, rest)
      match rest with
      | c :: rest =>
        if isConversion c && !name.isEmpty then
          some ({ name := String.ofList name, toLeft := flags.contains '-', width := width₁, limit := limit }, rest)
        else none
      | [] => none
    | _ => none
  | _ => none

/-- Whether a field begins somewhere in a text. -/
def hasField : List Char → Bool
  | [] => false
  | c :: cs => (field? (c :: cs)).isSome || hasField cs

/-- The pieces of a format. Two percent signs stand for one. -/
def pieces (cs : List Char) : List Piece :=
  match cs with
  | [] => []
  | c :: rest =>
    match field? (c :: rest) with
    | some (f, after) => if after.length ≤ rest.length then .field f :: pieces after else []
    | none =>
      match c, rest with
      | '%', '%' :: rest => .char '%' :: pieces rest
      | c, rest => .char c :: pieces rest
termination_by cs.length
decreasing_by all_goals grind

/-- The value of a field in an entry; a field of another name is left empty. -/
def Entry.value (e : Entry) (name : String) : String :=
  match name with
  | "message" => e.message
  | "name" => e.name
  | "levelname" => levelName e.level
  | "levelno" => toString e.level
  | _ => ""

/-- A field, filled in. -/
def Field.render (f : Field) (e : Entry) : List Char :=
  let cs := (e.value f.name).toList
  let cs := (f.limit.map cs.take).getD cs
  let fill := List.replicate (f.width - cs.length) ' '
  if f.toLeft then cs ++ fill else fill ++ cs

/-- A piece, filled in. -/
def Piece.render (e : Entry) : Piece → List Char
  | char c => [c]
  | field f => f.render e

/-! ## Setting up -/

/-- Logging as it has been set up. -/
structure Setup where
  level : Nat
  format : List Piece
  deriving DecidableEq, Repr

/-- Why logging cannot be set up. -/
inductive SetupError where
  | formatWithoutField (format : String)
  | levelUnknown (level : String)
  | settings (error : Json.DecodeError)
  deriving DecidableEq, Repr

/-- The message of an error. -/
def SetupError.message : SetupError → String
  | formatWithoutField format => "Invalid format '" ++ format ++ "' for '%' style"
  | levelUnknown level => "Unknown level: " ++ Text.quoted level
  | settings e => e.message

/-- A text, or another one if it is not given or empty. -/
def orElse (given : Option String) (default : String) : String :=
  match given with
  | some s => if s = "" then default else s
  | none => default

/-- The level and the format to set up. Only if one of them is not given are the settings asked. -/
def choose (level format : Option String) (settings : Except Json.DecodeError Settings) : Except SetupError (String × String) :=
  match level, format with
  | some level, some format => .ok (level, format)
  | level, format => do
    let s ← settings.mapError .settings
    return (orElse level s.logLevel, orElse format s.logFormat)

/-- Sets up logging. An empty format shows the message alone. -/
def Setup.make (level format : Option String) (settings : Except Json.DecodeError Settings) : Except SetupError Setup := do
  let (level, format) ← choose level format settings
  let format := orElse (some format) "%(message)s"
  let level := String.ofList (Text.upper level.toList)
  if !hasField format.toList then throw (.formatWithoutField format)
  match levels.lookup level with
  | some number => return { level := number, format := pieces format.toList }
  | none => throw (.levelUnknown level)

/-- The package of a name: what stands before its first point. -/
def package (name : String) : String := String.ofList (name.toList.takeWhile (· != '.'))

/-- Whether an entry is written. -/
def Setup.accepts (s : Setup) (e : Entry) : Bool :=
  packages.contains (package e.name) && decide ((if s.level = 0 then rootLevel else s.level) ≤ e.level)

/-- An entry as a line. -/
def Setup.line (s : Setup) (e : Entry) : String := String.ofList (s.format.flatMap (Piece.render e) ++ ['\n'])

/-- What is written of some entries. -/
def Setup.console (s : Setup) (entries : List Entry) : String := String.join ((entries.filter s.accepts).map s.line)

end Logging

end Treebank

import Treebank.Json.Decode
import Treebank.Pattern.Basic
import Treebank.Toml.Reader

/-!
# Settings

The settings supply the defaults of operations that are not told otherwise. They are read from a configuration text with the sections
`pattern`, `surgery`, `codec` and `logging`; what a text leaves out has its built-in value, and sections and fields without a meaning
are passed over. A text with a fault counts as an empty one, with a warning.
-/

namespace Treebank

/-- The settings. -/
structure Settings where
  pattern : PatternOptions := {}
  exhaustMaxDepth : Int := 3
  removeDuplicates : Bool := true
  validateGraphs : Bool := false
  logLevel : String := "WARNING"
  logFormat : String := "%(asctime)s %(levelname)s %(name)s: %(message)s"
  deriving DecidableEq, Repr, Inhabited

namespace Settings

open Json

/-- The tables of a configuration text, and the number of warnings that reading it gave. -/
def tables (text : Option String) : Json × Nat :=
  match text.bind Toml.parse? with
  | some tables => (tables, 0)
  | none => (.obj [], 1)

/-- Reads a field of the section on patterns. -/
def patternField (path : Path) (s : Settings) (name : String) (v : Json) : Except DecodeError Settings :=
  match name with
  | "ignore_case" => do return { s with pattern := { s.pattern with ignoreCase := ← decodeBool (path.enter (.field name)) v } }
  | "hierarchical_relations" => do
    return { s with pattern := { s.pattern with hierarchical := ← decodeBool (path.enter (.field name)) v } }
  | _ => .ok s

/-- Reads a field of the section on surgery. -/
def surgeryField (path : Path) (s : Settings) (name : String) (v : Json) : Except DecodeError Settings :=
  match name with
  | "exhaust_max_depth" => do return { s with exhaustMaxDepth := ← decodeInt (path.enter (.field name)) v }
  | "remove_duplicates" => do return { s with removeDuplicates := ← decodeBool (path.enter (.field name)) v }
  | _ => .ok s

/-- Reads a field of the section on reading and writing. -/
def codecField (path : Path) (s : Settings) (name : String) (v : Json) : Except DecodeError Settings :=
  match name with
  | "validate_graphs" => do return { s with validateGraphs := ← decodeBool (path.enter (.field name)) v }
  | _ => .ok s

/-- Reads a field of the section on logging. -/
def loggingField (path : Path) (s : Settings) (name : String) (v : Json) : Except DecodeError Settings :=
  match name with
  | "level" => do return { s with logLevel := ← decodeString (path.enter (.field name)) v }
  | "format" => do return { s with logFormat := ← decodeString (path.enter (.field name)) v }
  | _ => .ok s

/-- Reads a section. -/
def readSection (s : Settings) (name : String) (v : Json) : Except DecodeError Settings :=
  let path : Path := { steps := [.field name] }
  match name with
  | "pattern" => decodeFields (patternField path) s path v
  | "surgery" => decodeFields (surgeryField path) s path v
  | "codec" => decodeFields (codecField path) s path v
  | "logging" => decodeFields (loggingField path) s path v
  | _ => .ok s

/-- The settings of some tables. -/
def ofTables (tables : Json) : Except DecodeError Settings := decodeFields readSection {} {} tables

/-- The settings of a configuration text. -/
def ofText (text : Option String) : Except DecodeError Settings := ofTables (tables text).1

end Settings

end Treebank

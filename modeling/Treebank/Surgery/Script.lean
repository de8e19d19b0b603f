import Treebank.Edit.Record
import Treebank.Json.Writer
import Treebank.Surgery.Basic

/-!
# Scripts

A script is a text that holds surgeries: a JSON array with an object for each. It is read by type as a whole before any pattern is.
-/

namespace Treebank

/-- A surgery as it stands in a script. -/
structure Script where
  uid : String := ""
  pattern : String
  edits : List Edit := []
  notes : String := ""
  options : PatternOptions := {}
  deriving Repr, Inhabited

namespace Script

open Json

/-- A surgery as it stands in a script. -/
def ofSurgery (s : Surgery) : Script where
  uid := s.uid
  pattern := s.pattern.source
  edits := s.edits
  notes := s.notes
  options := s.pattern.options

/-- The object of a surgery. -/
def json (s : Script) : Json :=
  .obj [
    ("uid", .str s.uid),
    ("pattern", .str s.pattern),
    ("edits", .arr (s.edits.map Edit.json)),
    ("notes", .str s.notes),
    ("ignore_case", .bool s.options.ignoreCase),
    ("hierarchical_relations", .bool s.options.hierarchical)]

/-- The text of a script. -/
def save (surgeries : List Surgery) : String := (Json.arr (surgeries.map fun s => (ofSurgery s).json)).text

/-! ## Reading -/

/-- What has been read of a surgery. -/
structure Draft where
  uid : String := ""
  pattern : Option String := none
  edits : List Edit := []
  notes : String := ""
  options : PatternOptions := {}

/-- Reads a field of a surgery. -/
def readField (path : Path) (d : Draft) (field : String) (v : Json) : Except DecodeError Draft :=
  let path := path.enter (.field field)
  match field with
  | "uid" => do return { d with uid := ← decodeString path v }
  | "pattern" => do return { d with pattern := some (← decodeString path v) }
  | "edits" => do return { d with edits := ← decodeList Edit.decode path v }
  | "notes" => do return { d with notes := ← decodeString path v }
  | "ignore_case" => do return { d with options := { d.options with ignoreCase := ← decodeBool path v } }
  | "hierarchical_relations" => do return { d with options := { d.options with hierarchical := ← decodeBool path v } }
  | _ => do skip v; return d

/-- Reads a surgery. -/
def decode : Decoder Script := fun path v => do
  let d ← decodeFields (readField path) {} path v
  return {
    uid := d.uid
    pattern := ← Json.require path "pattern" d.pattern
    edits := d.edits
    notes := d.notes
    options := d.options }

/-- Why a script cannot be used. -/
inductive Refusal where
  | form (error : DecodeError)
  | pattern (error : Pattern.CompileError)
  | name (error : Edit.ReferenceError)
  deriving DecidableEq, Repr

/-- The surgery that stands in a script. -/
def surgery (s : Script) : Except Refusal Surgery := do
  let pattern ← (Pattern.ofText s.options s.pattern).mapError .pattern
  (Surgery.ofParts s.uid s.notes pattern s.edits).mapError .name

/-- Reads the surgeries of a text. -/
def load (text : String) : Except Refusal (List Surgery) := do
  let scripts ← (decodeText (decodeList decode) text).mapError .form
  scripts.mapM surgery

end Script

end Treebank

import Treebank.Json.Reader
import Treebank.Pairs
import Treebank.Text.Quoted

/-!
# Decoding JSON values by type

A decoder reads a value of a given type out of a JSON value. Fields are read in the order in which they stand, so of several
faults the first one in the text is reported; a field that the type does not know is passed over, and of two fields of one name the
last counts. A message names the place of the fault by its path from the root.
-/

namespace Treebank.Json

/-- One step of a path. -/
inductive Step where
  | field (name : String)
  | item (index : Nat)
  /-- The value of some key of a map. -/
  | entry
  deriving DecidableEq, Repr

/-- The text of a step. -/
def Step.text : Step → String
  | .field name => "." ++ name
  | .item index => "[" ++ toString index ++ "]"
  | .entry => "[...]"

/-- The way from the root to a value. -/
structure Path where
  /-- The steps, the last first. -/
  steps : List Step := []
  /-- The root was read from a text by type; otherwise it is a value that was there before. -/
  inText : Bool := false
  deriving DecidableEq, Repr

/-- The way one step further. -/
def Path.enter (path : Path) (step : Step) : Path := { path with steps := step :: path.steps }

/-- The end of a message that says where the fault is; the root itself is not named. -/
def Path.suffix (path : Path) : String :=
  if path.steps.isEmpty then "" else " - at \x60$" ++ String.join (path.steps.reverse.map Step.text) ++ "\x60"

/-- What is wrong with a value. -/
inductive DecodeError where
  /-- The text is no JSON. -/
  | malformed
  /-- A value of another kind stands there. -/
  | mismatch (expected got : String) (path : Path)
  /-- A field is missing. -/
  | missing (field : String) (path : Path)
  /-- The tag in a text is no string. -/
  | tagKind (path : Path)
  /-- A tag names no alternative. -/
  | unknownTag (tag : String) (path : Path)
  /-- A number lies beyond the floating point values. -/
  | outOfRange (path : Path)
  /-- The value is of the right kind, but refused for a reason of its own. -/
  | refused (reason : String) (path : Path)
  deriving DecidableEq, Repr

/-- The message of a fault. -/
def DecodeError.message : DecodeError → String
  | .malformed => "malformed JSON"
  | .mismatch expected got path => "Expected \x60" ++ expected ++ "\x60, got \x60" ++ got ++ "\x60" ++ path.suffix
  | .missing field path => "Object missing required field \x60" ++ field ++ "\x60" ++ path.suffix
  | .tagKind path => "Expected \x60str\x60" ++ path.suffix
  | .unknownTag tag path => "Invalid value " ++ (if path.inText then "'" ++ tag ++ "'" else Text.quoted tag) ++ path.suffix
  | .outOfRange path => "Number out of range" ++ path.suffix
  | .refused reason path => reason ++ path.suffix

/-- Reads a value of a type. -/
abbrev Decoder (α : Type) := Path → Json → Except DecodeError α

/-- The floating point value of a number, which must not be infinite where it was read from a text or is an integer. -/
def finite (path : Path) : Json → Option (Except DecodeError Binary64)
  | .float (.infinite negative) => some (if path.inText then .error (.outOfRange path) else .ok (.infinite negative))
  | .float x => some (.ok x)
  | .int n =>
    some (match Binary64.ofInt n with
      | .infinite _ => .error (.outOfRange path)
      | x => .ok x)
  | _ => none

/-- Whether an integer is one of the signed or unsigned integers of 64 bits. -/
def isWord (n : Int) : Bool := decide (-(Binary64.twoTo 63 : Int) ≤ n) && decide (n < Binary64.twoTo 64)

/-- The fault of a value that is not of the expected kind. In a text, an integer of more than 64 bits is a float, and a number
beyond the floating point values is a fault whatever is expected. -/
def mismatch (expected : String) (path : Path) (v : Json) : DecodeError :=
  match v with
  | .broken => .malformed
  | .int n =>
    if !path.inText || isWord n then .mismatch expected "int" path
    else
      match Binary64.ofInt n with
      | .infinite _ => .outOfRange path
      | _ => .mismatch expected "float" path
  | .float (.infinite _) => if path.inText then .outOfRange path else .mismatch expected "float" path
  | v => .mismatch expected v.kind path

/-- A string. -/
def decodeString : Decoder String
  | _, .str s => .ok s
  | path, v => .error (mismatch "str" path v)

/-- A string or null. -/
def decodeString? : Decoder (Option String)
  | _, .str s => .ok (some s)
  | _, .null => .ok none
  | path, v => .error (mismatch "str | null" path v)

/-- A truth value. -/
def decodeBool : Decoder Bool
  | _, .bool b => .ok b
  | path, v => .error (mismatch "bool" path v)

/-- An integer. -/
def decodeInt : Decoder Int
  | _, .int n => .ok n
  | path, v => .error (mismatch "int" path v)

/-- A number; an integer is one. -/
def decodeFloat : Decoder Binary64 := fun path v => (finite path v).getD (.error (mismatch "float" path v))

/-- The items of an array, from the item of index `start` on. -/
def decodeItems {α : Type} (item : Decoder α) (path : Path) (start : Nat) : List Json → Except DecodeError (List α)
  | [] => .ok []
  | v :: vs => do return (← item (path.enter (.item start)) v) :: (← decodeItems item path (start + 1) vs)

/-- An array. -/
def decodeList {α : Type} (item : Decoder α) : Decoder (List α)
  | path, .arr vs => decodeItems item path 0 vs
  | path, v => .error (mismatch "array" path v)

/-- Passes over a value. -/
def skip (v : Json) : Except DecodeError Unit := if v.isWhole then .ok () else .error .malformed

/-- Reads the fields of an object, one after the other, into a partial result. -/
def decodeFields {σ : Type} (step : σ → String → Json → Except DecodeError σ) (start : σ) : Decoder σ
  | _, .obj fields => fields.foldlM (fun s (k, v) => step s k v) start
  | path, v => .error (mismatch "object" path v)

/-- A map from strings to strings. -/
def decodeStringMap : Decoder (List (String × String)) := fun path v =>
  decodeFields (fun pairs k w => do return Pairs.put pairs k (← decodeString (path.enter .entry) w)) [] path v

/-- A field that has to be there. -/
def require {α : Type} (path : Path) (name : String) : Option α → Except DecodeError α
  | some a => .ok a
  | none => .error (.missing name path)

/-- The kinds of values, by the names that messages about tags give them. -/
def tagKindName : Json → String
  | .null => "NoneType"
  | .arr _ => "list"
  | .obj _ => "dict"
  | v => v.kind

/-- A tag. In a text, a value that is no string is passed over before it is refused. -/
def decodeTag : Decoder String
  | _, .str s => .ok s
  | path, v => do
    if path.inText then
      skip v
      throw (.tagKind path)
    else throw (.mismatch "str" (tagKindName v) path)

/-- The tag of an object: the string in the field `name`. -/
def decodeTagOf (name : String) : Decoder String
  | path, .obj fields =>
    match fields.find? (·.1 == name) with
    | some (_, v) => decodeTag (path.enter (.field name)) v
    | none => if fieldsAreWhole fields then .error (.missing name path) else .error .malformed
  | path, v => .error (mismatch "object" path v)

/-- Reads a whole text by type. -/
def decodeText {α : Type} (decoder : Decoder α) (s : String) : Except DecodeError α := do
  let d := read s.toList
  let a ← decoder { inText := true } d.root
  if d.ends then return a else throw .malformed

end Treebank.Json

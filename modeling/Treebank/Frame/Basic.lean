import Treebank.Decimal.Shortest
import Treebank.Text.Quoted
import Treebank.Text.Digit

/-!
# Frames

A frame is a table: named columns, each of one type, and rows with one cell for each column. A cell may be empty.
-/

namespace Treebank

namespace Frame

/-- The type of a column. -/
inductive DataType where
  | int64
  | int32
  | int16
  | int8
  | uint8
  | text
  | boolean
  | float64
  /-- The type of a column in which all cells are empty. -/
  | null
  deriving DecidableEq, Repr, Inhabited

/-- The name of a type. -/
def DataType.name : DataType → String
  | int64 => "Int64"
  | int32 => "Int32"
  | int16 => "Int16"
  | int8 => "Int8"
  | uint8 => "UInt8"
  | text => "String"
  | boolean => "Boolean"
  | float64 => "Float64"
  | null => "Null"

/-- The types. -/
def DataType.all : List DataType := [int64, int32, int16, int8, uint8, text, boolean, float64, null]

/-- The type of a name; text has a second one. -/
def DataType.ofName? (name : String) : Option DataType :=
  if name = "Utf8" then some text else all.find? (·.name == name)

/-- Whether the cells of a type are integers. -/
def DataType.isInteger : DataType → Bool
  | int64 | int32 | int16 | int8 | uint8 => true
  | _ => false

/-- A cell. -/
inductive Cell where
  | empty
  | int (n : Int)
  | text (s : String)
  | bool (b : Bool)
  | float (x : Binary64)
  deriving DecidableEq, Repr, Inhabited

namespace Cell

/-- A cell that is empty if there is no integer. -/
def ofInt? : Option Int → Cell
  | some n => int n
  | none => empty

/-- A cell that is empty if there is no text. -/
def ofText? : Option String → Cell
  | some s => text s
  | none => empty

/-- The layout of numbers as texts: positional from `0.00001` up to below `10 ^ 16`, and otherwise with the shortest exponent. -/
def numberLayout : Binary64.Layout where
  plainFrom := -5
  plainBelow := 16
  exponentPlus := false
  exponentWidth := 1

/-- The text of a number. -/
def numberText : Binary64 → String
  | .notANumber => "NaN"
  | x => String.ofList (x.renderIn numberLayout)

/-- A cell as text. -/
def text? : Cell → Option String
  | empty => none
  | int n => some (String.ofList (Text.intDigits n))
  | text s => some s
  | bool b => some (if b then "true" else "false")
  | float x => some (numberText x)

/-- A cell as an integer. -/
def int? : Cell → Option Int
  | int n => some n
  | _ => none

/-- A cell as a truth value; of the numbers zero alone is false. -/
def bool? : Cell → Option Bool
  | bool b => some b
  | int n => some (n != 0)
  | float (.finite _ m _) => some (m != 0)
  | float _ => some true
  | _ => none

/-- Whether a cell is empty. -/
def isEmpty (c : Cell) : Bool := c == empty

end Cell

end Frame

open Treebank.Frame in
/-- A frame. -/
structure Frame where
  columns : List (String × DataType)
  rows : List (List Cell) := []
  deriving DecidableEq, Repr, Inhabited

namespace Frame

/-- The names of the columns. -/
def names (f : Frame) : List String := f.columns.map (·.1)

/-- A row with the names of its columns. -/
def named (f : Frame) (row : List Cell) : List (String × Cell) := f.names.zip row

/-- The cell of a named row in a column; one that is not there is empty. -/
def cell (row : List (String × Cell)) (name : String) : Cell := (row.lookup name).getD .empty

end Frame

end Treebank

import Treebank.Decimal.Binary64

/-!
# JSON values

A JSON value keeps the order of its fields, repeated ones included, and tells integers from numbers with a fraction or an exponent.
A text that breaks off or goes wrong in the middle is read up to there: the value then holds a `broken` leaf at that place, after
everything that was read before it.
-/

namespace Treebank

/-- A JSON value. -/
inductive Json where
  | null
  | bool (b : Bool)
  | int (n : Int)
  | float (x : Binary64)
  | str (s : String)
  | arr (items : List Json)
  | obj (fields : List (String × Json))
  /-- The place where a text went wrong. -/
  | broken
  deriving Inhabited

namespace Json

/-- The kinds of values, by the names that messages give them. -/
def kind : Json → String
  | null => "null"
  | bool _ => "bool"
  | int _ => "int"
  | float _ => "float"
  | str _ => "str"
  | arr _ => "array"
  | obj _ => "object"
  | broken => "nothing"

mutual
/-- Whether a value holds no broken leaf. -/
def isWhole : Json → Bool
  | arr items => areWhole items
  | obj fields => fieldsAreWhole fields
  | broken => false
  | _ => true

/-- Whether no value of a list holds a broken leaf. -/
def areWhole : List Json → Bool
  | [] => true
  | v :: vs => isWhole v && areWhole vs

/-- Whether no field holds a broken leaf. -/
def fieldsAreWhole : List (String × Json) → Bool
  | [] => true
  | (_, v) :: fs => isWhole v && fieldsAreWhole fs
end

/-- The value of a field; of several of one name, the last. -/
def field? (name : String) : Json → Option Json
  | obj fields => (fields.reverse.find? (·.1 == name)).map (·.2)
  | _ => none

end Json

end Treebank

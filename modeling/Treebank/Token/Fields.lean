import Treebank.Decimal.Shortest
import Treebank.Json.Basic
import Treebank.Text.Quoted
import Treebank.Token.Basic

/-!
# Tokens from named fields

A token is built from values by the names of its fields. A name that is no field may be kept as an attribute, its value in writing.
-/

namespace Treebank

namespace Json

mutual
/-- A value in writing, as it stands inside a list: texts are quoted. -/
def shown : Json → String
  | null => "None"
  | bool true => "True"
  | bool false => "False"
  | int n => String.ofList (Text.intDigits n)
  | float x => x.text
  | str s => Text.quoted s
  | arr items => "[" ++ ", ".intercalate (shownItems items) ++ "]"
  | obj fields => "\x7b" ++ ", ".intercalate (shownFields fields) ++ "\x7d"
  | broken => ""

/-- The items of a list in writing. -/
def shownItems : List Json → List String
  | [] => []
  | v :: vs => shown v :: shownItems vs

/-- The fields of an object in writing, their names quoted. -/
def shownFields : List (String × Json) → List String
  | [] => []
  | (k, v) :: fs => (Text.quoted k ++ ": " ++ shown v) :: shownFields fs
end

/-- A value as the text of an attribute; a text stands for itself. -/
def attributeText : Json → String
  | str s => s
  | v => shown v

end Json

namespace Token

/-- A list of named texts. -/
def texts (fields : List (String × Json)) : List (String × String) :=
  Pairs.putAll [] (fields.map fun (name, v) => (name, v.attributeText))

/-- A token with one field set, if the name is that of a field and the value is of its kind. -/
def setField? (t : Token) (name : String) (v : Json) : Option Token :=
  match name, v with
  | "index", .int n => some { t with index := n }
  | "word", .str s => some { t with word := s }
  | "lemma", .str s => some { t with baseForm := s }
  | "tag", .str s => some { t with tag := s }
  | "upos", .str s => some { t with upos := s }
  | "feats", .str s => some { t with feats := s }
  | "misc", .str s => some { t with misc := s }
  | "attrs", .obj fields => some { t with attrs := texts fields }
  | "attrs", .null => some { t with attrs := [] }
  | "position", .int n => some { t with position := n }
  | "empty_index", .int n => some { t with emptyIndex := n }
  | "original_text", .str s => some { t with spanForm := s }
  | "root_relation", .str s => some { t with rootRelation := some s }
  | "root_relation", .null => some { t with rootRelation := none }
  | "enhanced_root_relation", .str s => some { t with enhancedRootRelation := s }
  | "line_number", .int n => some { t with lineNumber := n }
  | _, _ => none

/-- A token with fields set; names that are no fields are passed over. -/
def setFields (t : Token) (fields : List (String × Json)) : Token :=
  fields.foldl (fun t (name, v) => (t.setField? name v).getD t) t

/-- A token without a place of its own yet. -/
def unplaced : Token := { index := 0, position := -1 }

/-- The token of some fields. -/
def ofFields (fields : List (String × Json)) : Token := (unplaced.setFields fields).placed

/-- The token of some fields; what is no field becomes an attribute. -/
def create (fields : List (String × Json)) : Token :=
  let extra := fields.filter fun (name, v) => (unplaced.setField? name v).isNone
  let t := unplaced.setFields fields
  { t with attrs := Pairs.putAll t.attrs (texts extra) }.placed

end Token

end Treebank

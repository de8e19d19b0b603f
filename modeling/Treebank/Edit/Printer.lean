import Treebank.Edit.Basic
import Treebank.Text.Blank

/-!
# Edits in writing

An edit is written on one line: a command, then flags with their values. A value that holds blanks is put in quotes where the command
takes attributes; elsewhere names stand as they are.
-/

namespace Treebank.Edit

/-- Attributes in braces. -/
def Attributes.text (attributes : Attributes) : String :=
  "\x7b" ++ ";".intercalate (attributes.map fun (name, value) => name ++ ":" ++ value) ++ "\x7d"

/-- A text, in quotes if it holds a blank. -/
def quoteBlank (s : String) : String := if s.toList.any Text.isBlank then "\"" ++ s ++ "\"" else s

/-- A flag with its value. -/
def flag (name value : String) : List String := [name, value]

/-- A flag with its value, if the value is given. -/
def flag? (name : String) (value : Option String) : List String := ((given? value).map (flag name)).getD []

/-- A flag with a weight, unless it is the usual one. -/
def weightFlag (weight : Binary64) : List String := if weight.same .one then [] else flag "-weight" weight.text

/-- The words of the line of an edit. -/
def words : Edit → List String
  | removeEdge r =>
    (match given? r.edge with
      | some edge => "removeNamedEdge" :: flag "-edge" edge
      | none => ["removeEdge"]) ++
      flag? "-gov" r.governor ++ flag? "-dep" r.dependent ++ flag? "-reln" r.relation
  | addEdge governor dependent relation weight _ =>
    "addEdge" :: flag "-gov" governor ++ flag "-dep" dependent ++ flag "-reln" relation ++ weightFlag weight
  | addDependent governor relation attributes name weight =>
    "addDep" :: flag "-gov" governor ++ flag "-reln" relation ++ flag "-nodearg" (quoteBlank attributes.text) ++
      flag? "-name" name ++ weightFlag weight
  | delete node => "delete" :: flag "-node" node
  | addNode attributes name => "addNode" :: flag "-nodearg" (quoteBlank attributes.text) ++ flag? "-name" name
  | setRoots [] => ["setRoots", ""]
  | setRoots names => "setRoots" :: names
  | killNonRootedNodes => ["killNonRootedNodes"]
  | killAllIncomingEdges node => "killAllIncomingEdges" :: flag "-node" node

/-- The line of an edit. -/
def line (e : Edit) : String := " ".intercalate e.words

end Treebank.Edit

import Treebank.Edit.Printer
import Treebank.Match.Search

/-!
# The names that edits use

The names in a list of edits can be checked before there is a match: each name that is read has to be bound by the pattern or by an
edit before, and each name that is bound has to be new. When edits are applied, a bound name can still fail: its token may be gone.
-/

namespace Treebank.Edit

/-- What is wrong with a name. -/
inductive ReferenceError where
  | unknownNode (number : Nat) (edit : Edit) (name : String)
  | unknownEdge (number : Nat) (edit : Edit) (name : String)
  | nameTaken (number : Nat) (edit : Edit) (name : String)
  | nodeUnbound (name : String)
  | nodeGone (name : String) (index : Int)
  | edgeUnbound (name : String)
  | endGone (name : String)
  deriving DecidableEq, Repr

/-- The name in question. -/
def ReferenceError.name : ReferenceError → String
  | unknownNode _ _ name | unknownEdge _ _ name | nameTaken _ _ name | nodeUnbound name | nodeGone name _ | edgeUnbound name
  | endGone name => name

/-- An edit of a list, by its number and its line. -/
def cite (number : Nat) (e : Edit) : String := "Edit " ++ toString number ++ " (" ++ e.line ++ ")"

/-- The message of an error. -/
def ReferenceError.message : ReferenceError → String
  | unknownNode number edit name => cite number edit ++ " references unknown node '" ++ name ++ "'"
  | unknownEdge number edit name => cite number edit ++ " references unknown edge '" ++ name ++ "'"
  | nameTaken number edit name => cite number edit ++ " reuses the bound name '" ++ name ++ "'"
  | nodeUnbound name => "Node name '" ++ name ++ "' is not bound in this match"
  | nodeGone name index => "Node '" ++ name ++ "' (" ++ toString index ++ ") was removed by an earlier edit"
  | edgeUnbound name => "Edge name '" ++ name ++ "' is not bound in this match"
  | endGone name => "An endpoint of edge '" ++ name ++ "' was removed by an earlier edit"

/-! ## Before a match -/

/-- What is wrong with the names of an edit, given the names that are bound before it. -/
def fault? (nodes edges : List String) (number : Nat) (e : Edit) : Option ReferenceError :=
  match e.nodeReferences.find? (!nodes.contains ·) with
  | some name => some (.unknownNode number e name)
  | none =>
    match e.edgeReferences.find? (!edges.contains ·) with
    | some name => some (.unknownEdge number e name)
    | none => (e.introducedNames.find? fun name => nodes.contains name || edges.contains name).map (.nameTaken number e)

/-- Checks the names of edits, numbered from the given number on. -/
def checkFrom (nodes edges : List String) (number : Nat) : List Edit → Except ReferenceError Unit
  | [] => .ok ()
  | e :: es =>
    match fault? nodes edges number e with
    | some fault => .error fault
    | none => checkFrom (nodes ++ e.introducedNames) edges (number + 1) es

/-- Checks the names of edits against those that are bound by a pattern. -/
def checkNames (nodes edges : List String) (edits : List Edit) : Except ReferenceError Unit := checkFrom nodes edges 0 edits

/-! ## In a match -/

/-- A graph under change, with what the names are bound to. -/
structure Workspace where
  graph : Graph
  bindings : Pattern.Bindings := {}
  deriving DecidableEq, Repr, Inhabited

/-- The token that a name is bound to; it has to be there still. -/
def Workspace.node (w : Workspace) (name : String) : Except ReferenceError Int :=
  match w.bindings.nodes.lookup name with
  | none => .error (.nodeUnbound name)
  | some index => if w.graph.hasToken index then .ok index else .error (.nodeGone name index)

/-- The edge that a name is bound to; its ends have to be there still. -/
def Workspace.edge (w : Workspace) (name : String) : Except ReferenceError Edge :=
  match w.bindings.edges.lookup name with
  | none => .error (.edgeUnbound name)
  | some e => if w.graph.hasToken e.governor && w.graph.hasToken e.dependent then .ok e else .error (.endGone name)

end Treebank.Edit

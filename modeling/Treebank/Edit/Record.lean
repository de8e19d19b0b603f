import Treebank.Edit.Basic
import Treebank.Json.Decode

/-!
# Edits as JSON

An edit is an object. Its field `op` says which edit it is; the other fields depend on that.
-/

namespace Treebank

namespace Edit

open Json

/-- A string, or null. -/
def optionalJson (s : Option String) : Json := (s.map Json.str).getD .null

/-- Attributes as an object. -/
def Attributes.json (attributes : Attributes) : Json := .obj (attributes.map fun (name, value) => (name, .str value))

/-- The word that says which edit it is. -/
def op : Edit → String
  | removeEdge .. => "removeEdge"
  | addEdge .. => "addEdge"
  | addDependent .. => "addDep"
  | delete .. => "delete"
  | addNode .. => "addNode"
  | setRoots .. => "setRoots"
  | killNonRootedNodes => "killNonRootedNodes"
  | killAllIncomingEdges .. => "killAllIncomingEdges"

/-- The fields that depend on which edit it is. -/
def fields : Edit → List (String × Json)
  | removeEdge r =>
    [("edge", optionalJson r.edge), ("gov", optionalJson r.governor), ("dep", optionalJson r.dependent),
     ("relation", optionalJson r.relation)]
  | addEdge governor dependent relation weight extra =>
    [("gov", .str governor), ("dep", .str dependent), ("relation", .str relation), ("weight", .float weight), ("extra", .bool extra)]
  | addDependent governor relation attributes name weight =>
    [("gov", .str governor), ("relation", .str relation), ("node", attributes.json), ("name", optionalJson name),
     ("weight", .float weight)]
  | delete node => [("node", .str node)]
  | addNode attributes name => [("node", attributes.json), ("name", optionalJson name)]
  | setRoots names => [("names", .arr (names.map .str))]
  | killNonRootedNodes => []
  | killAllIncomingEdges node => [("node", .str node)]

/-- An edit as an object. -/
def json (e : Edit) : Json := .obj (("op", .str e.op) :: e.fields)

/-! ## Reading -/

/-- The fields that have been read of an edit. -/
structure Draft where
  edge : Option String := none
  governor : Option String := none
  dependent : Option String := none
  relation : Option String := none
  weight : Binary64 := .one
  extra : Bool := false
  attributes : Option Attributes := none
  node : Option String := none
  name : Option String := none
  names : Option (List String) := none

/-- A string in a field. -/
def text (path : Path) (field : String) (v : Json) : Except DecodeError (Option String) :=
  return some (← decodeString (path.enter (.field field)) v)

/-- Reads a field of an edit that removes an edge. -/
def removalField (path : Path) (d : Draft) (field : String) (v : Json) : Except DecodeError Draft :=
  let optional := decodeString? (path.enter (.field field)) v
  match field with
  | "edge" => do return { d with edge := ← optional }
  | "gov" => do return { d with governor := ← optional }
  | "dep" => do return { d with dependent := ← optional }
  | "relation" => do return { d with relation := ← optional }
  | _ => do skip v; return d

/-- Reads a field of an edit that adds an edge. -/
def edgeField (path : Path) (d : Draft) (field : String) (v : Json) : Except DecodeError Draft :=
  match field with
  | "gov" => do return { d with governor := ← text path field v }
  | "dep" => do return { d with dependent := ← text path field v }
  | "relation" => do return { d with relation := ← text path field v }
  | "weight" => do return { d with weight := ← decodeFloat (path.enter (.field field)) v }
  | "extra" => do return { d with extra := ← decodeBool (path.enter (.field field)) v }
  | _ => do skip v; return d

/-- Reads a field of an edit that makes a token under another one. -/
def dependentField (path : Path) (d : Draft) (field : String) (v : Json) : Except DecodeError Draft :=
  match field with
  | "gov" => do return { d with governor := ← text path field v }
  | "relation" => do return { d with relation := ← text path field v }
  | "node" => do return { d with attributes := some (← decodeStringMap (path.enter (.field field)) v) }
  | "name" => do return { d with name := ← decodeString? (path.enter (.field field)) v }
  | "weight" => do return { d with weight := ← decodeFloat (path.enter (.field field)) v }
  | _ => do skip v; return d

/-- Reads a field of an edit that makes a token. -/
def tokenField (path : Path) (d : Draft) (field : String) (v : Json) : Except DecodeError Draft :=
  match field with
  | "node" => do return { d with attributes := some (← decodeStringMap (path.enter (.field field)) v) }
  | "name" => do return { d with name := ← decodeString? (path.enter (.field field)) v }
  | _ => do skip v; return d

/-- Reads a field of an edit that names one token. -/
def nodeField (path : Path) (d : Draft) (field : String) (v : Json) : Except DecodeError Draft :=
  match field with
  | "node" => do return { d with node := ← text path field v }
  | _ => do skip v; return d

/-- Reads a field of an edit that names roots. -/
def rootsField (path : Path) (d : Draft) (field : String) (v : Json) : Except DecodeError Draft :=
  match field with
  | "names" => do return { d with names := some (← decodeList decodeString (path.enter (.field field)) v) }
  | _ => do skip v; return d

/-- Reads a field of an edit that has none of its own. -/
def noField (_ : Path) (d : Draft) (_ : String) (v : Json) : Except DecodeError Draft := do skip v; return d

/-- Reads the fields of an edit of which the word is known. Wherever the word is said again, it has to be the same. -/
def readFields (tag : String) (step : Path → Draft → String → Json → Except DecodeError Draft) : Decoder Draft := fun path v =>
  decodeFields (fun d field v =>
    if field = "op" then do
      let again ← decodeTag (path.enter (.field field)) v
      if again = tag then return d else throw (.unknownTag again (path.enter (.field field)))
    else step path d field v) {} path v

/-- Reads an edit of which the word is known. -/
def decodeAs (tag : String) : Decoder Edit :=
  match tag with
  | "removeEdge" => fun path v => do
    let d ← readFields tag removalField path v
    if h : ((given? d.edge).isSome || ((given? d.governor).isSome && (given? d.dependent).isSome)) = true then
      return removeEdge { edge := d.edge, governor := d.governor, dependent := d.dependent, relation := d.relation, targeted := h }
    else throw (.refused "RemoveEdge needs an edge name or both gov and dep names" path)
  | "addEdge" => fun path v => do
    let d ← readFields tag edgeField path v
    return addEdge (← Json.require path "gov" d.governor) (← Json.require path "dep" d.dependent)
      (← Json.require path "relation" d.relation) d.weight d.extra
  | "addDep" => fun path v => do
    let d ← readFields tag dependentField path v
    return addDependent (← Json.require path "gov" d.governor) (← Json.require path "relation" d.relation)
      (← Json.require path "node" d.attributes) d.name d.weight
  | "delete" => fun path v => do
    let d ← readFields tag nodeField path v
    return delete (← Json.require path "node" d.node)
  | "addNode" => fun path v => do
    let d ← readFields tag tokenField path v
    return addNode (← Json.require path "node" d.attributes) d.name
  | "setRoots" => fun path v => do
    let d ← readFields tag rootsField path v
    return setRoots (← Json.require path "names" d.names)
  | "killNonRootedNodes" => fun path v => do
    let _ ← readFields tag noField path v
    return killNonRootedNodes
  | "killAllIncomingEdges" => fun path v => do
    let d ← readFields tag nodeField path v
    return killAllIncomingEdges (← Json.require path "node" d.node)
  | _ => fun path _ => .error (.unknownTag tag (path.enter (.field "op")))

/-- Reads an edit. -/
def decode : Decoder Edit := fun path v => do
  let tag ← decodeTagOf "op" path v
  decodeAs tag path v

end Edit

end Treebank

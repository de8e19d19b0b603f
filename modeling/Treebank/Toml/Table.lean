import Treebank.Json.Basic

/-!
# Tables under construction

A configuration text fills nested tables statement by statement. Which tables have been opened by a header and which values are
finished is kept beside the tables, by path; a statement that opens a table twice or reaches into a finished value is refused.
-/

namespace Treebank.Toml

/-- The names on the way from the top to a value. -/
abbrev Path := List String

/-- Tables that are being filled. -/
structure Draft where
  root : Json := .obj []
  /-- The tables that were opened, by a header or by a dotted name. -/
  opened : List Path := []
  /-- The tables that dotted names have gone through since the last header; the next header opens them. -/
  pending : List Path := []
  /-- The values into which nothing more may be put. -/
  finished : List Path := []
  deriving Inhabited

/-- Whether a value, or one around it, is finished. -/
def Draft.isFinished (d : Draft) (path : Path) : Bool := d.finished.any (·.isPrefixOf path)

/-- Sets a field of a list of fields, which keeps its place if it is there. -/
def setField (fields : List (String × Json)) (name : String) (v : Json) : List (String × Json) :=
  if fields.any (·.1 == name) then fields.map fun (n, w) => if n == name then (n, v) else (n, w)
  else fields ++ [(name, v)]

/-- Changes the table at a path, making the tables on the way where there are none. Where `intoLists` is set, a list of tables
stands for its last table. -/
def nest (intoLists : Bool) (change : List (String × Json) → Option (List (String × Json))) : Path → Json → Option Json
  | [], .obj fields => (change fields).map .obj
  | [], .arr items =>
    match intoLists, items.reverse with
    | true, .obj fields :: before => (change fields).map fun fields => .arr (before.reverse ++ [.obj fields])
    | _, _ => none
  | name :: path, .obj fields => do
    let inner ← nest intoLists change path ((fields.lookup name).getD (.obj []))
    return .obj (setField fields name inner)
  | name :: path, .arr items =>
    match intoLists, items.reverse with
    | true, .obj fields :: before => do
      let inner ← nest intoLists change path ((fields.lookup name).getD (.obj []))
      return .arr (before.reverse ++ [.obj (setField fields name inner)])
    | _, _ => none
  | _, _ => none

/-- Comes to a header. -/
def Draft.settle (d : Draft) : Draft := { d with opened := d.pending ++ d.opened, pending := [] }

/-- Opens a table. -/
def Draft.openTable (d : Draft) (path : Path) : Option Draft := do
  if d.isFinished path || d.opened.contains path then none
  else
    let root ← nest true some path d.root
    return { d with root := root, opened := path :: d.opened }

/-- Opens a further table of a list of tables. -/
def Draft.appendTable (d : Draft) (path : Path) : Option Draft := do
  if d.isFinished path then none
  else
    let last ← path.getLast?
    let add (fields : List (String × Json)) : Option (List (String × Json)) :=
      match fields.lookup last with
      | none => some (setField fields last (.arr [.obj []]))
      | some (.arr items) => some (setField fields last (.arr (items ++ [.obj []])))
      | some _ => none
    let root ← nest true add path.dropLast d.root
    return {
      d with
      root := root
      opened := path :: d.opened.filter (!path.isPrefixOf ·)
      finished := d.finished.filter (!path.isPrefixOf ·) }

/-- Whether a value holds others and is finished as soon as it is written. -/
def isCompound : Json → Bool
  | .arr _ | .obj _ => true
  | _ => false

/-- The paths of the tables that a dotted name goes through. -/
def throughPaths (header key : Path) : List Path := (List.range (key.length - 1)).map fun n => header ++ key.take (n + 1)

/-- Sets a field of a table, unless it is there. -/
def addField (name : String) (v : Json) (fields : List (String × Json)) : Option (List (String × Json)) :=
  if (fields.lookup name).isSome then none else some (fields ++ [(name, v)])

/-- Sets a value under a header. -/
def Draft.setValue (d : Draft) (header key : Path) (v : Json) : Option Draft := do
  let through := throughPaths header key
  if through.any (d.opened.contains ·) || d.isFinished (header ++ key.dropLast) then none
  else
    let root ← nest true (addField (← key.getLast?) v) (header ++ key.dropLast) d.root
    return {
      d with
      root := root
      pending := through ++ d.pending
      finished := if isCompound v then (header ++ key) :: d.finished else d.finished }

/-- Sets a value in a table that is written inside braces; `finished` holds the values of it that are finished. -/
def setInline (table : Json) (finished : List Path) (key : Path) (v : Json) : Option (Json × List Path) := do
  if finished.any (·.isPrefixOf key) then none
  else
    let table ← nest false (addField (← key.getLast?) v) key.dropLast table
    return (table, if isCompound v then key :: finished else finished)

end Treebank.Toml

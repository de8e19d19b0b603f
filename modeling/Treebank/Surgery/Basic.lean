import Treebank.Edit.Apply
import Treebank.Pattern.Reader

/-!
# Surgery

A surgery is a pattern with edits: it makes a graph out of every match. Each match has a copy of the graph for itself, to which the
edits are applied in order; a match of which an edit fails gives no graph, and a warning. The graph that is searched does not change.
-/

namespace Treebank

/-- A pattern with the edits to make where it matches. -/
structure Surgery where
  uid : String := ""
  notes : String := ""
  pattern : Pattern
  edits : List Edit
  deriving Inhabited

namespace Surgery

/-- Puts a pattern and edits together; every name that the edits read has to be bound. -/
def ofParts (uid notes : String) (pattern : Pattern) (edits : List Edit) : Except Edit.ReferenceError Surgery := do
  Edit.checkNames pattern.nodeNames pattern.edgeNames edits
  return { uid := uid, notes := notes, pattern := pattern, edits := edits }

/-- What a surgery goes by: its name, or else the text of its pattern. -/
def title (s : Surgery) : String := if s.uid = "" then s.pattern.source else s.uid

/-- A surgery in one line. -/
def text (s : Surgery) : String :=
  "SurgeryPattern(uid=" ++ Text.quoted s.uid ++ ", pattern=" ++ Text.quoted s.pattern.source ++ ", edits=" ++
    toString s.edits.length ++ ")"

/-- The graph that the edits make of a match. -/
def operate (s : Surgery) (g : Graph) (m : Match) : Except Edit.ReferenceError Graph := do
  return (← Edit.applyAll { graph := g.copy, bindings := m.bindings } s.edits).graph

/-- The graphs that are made of matches, which are numbered from the given number on. -/
def operateFrom (s : Surgery) (g : Graph) (number : Nat) : List Match → StateM Sink (List Graph)
  | [] => return []
  | m :: ms =>
    match s.operate g m with
    | .ok derived => do return derived :: (← operateFrom s g (number + 1) ms)
    | .error e => do
      modify (·.increment "matches_failed" 1)
      modify (·.emit
        { level := .warning
          code := "edit_failed"
          message := e.message
          context := [("pattern", .str s.title), ("match", .int number), ("name", .str e.name)] })
      operateFrom s g (number + 1) ms

/-- The graphs that a surgery makes of a graph, one for each match. -/
def execute (s : Surgery) (g : Graph) : StateM Sink (List Graph) := do
  let stage := (← get).stages.length
  modify (·.openStage ("surgery:" ++ s.title) (.zero false))
  let found ← (Matcher.plain s.pattern g).findAll
  let derived ← s.operateFrom g 0 found
  modify (·.closeStage stage (.zero false) none)
  modify (·.increment "graphs_produced" derived.length)
  return derived

/-! ## Several surgeries -/

/-- The graphs without those that are equal to an earlier one or to a seen one. -/
def dropSeen (seen : List Graph.Signature) : List Graph → List Graph
  | [] => []
  | g :: gs => if seen.contains g.signature then dropSeen seen gs else g :: dropSeen (g.signature :: seen) gs

/-- The graphs without those that are equal to an earlier one or to the source. -/
def removeDuplicates (source : Option Graph) (graphs : List Graph) : List Graph :=
  dropSeen (source.map (·.signature)).toList graphs

/-- The graphs that are made of the items of a list, one after the other. -/
def gather {α : Type} (make : α → StateM Sink (List Graph)) : List α → StateM Sink (List Graph)
  | [] => return []
  | a :: as => do
    let derived ← make a
    return derived ++ (← gather make as)

/-- The graphs that surgeries make of a graph, one surgery after the other. -/
def executeAll (surgeries : List Surgery) (g : Graph) : StateM Sink (List Graph) := gather (·.execute g) surgeries

/-- The graphs that surgeries make of a graph; what one surgery makes holds no duplicates and not the graph itself. -/
def expand (surgeries : List Surgery) (g : Graph) : StateM Sink (List Graph) :=
  gather (fun s => do return removeDuplicates (some g) (← s.execute g)) surgeries

/-- The graphs that surgeries make of a graph, then those that they make of these, and so on for some more rounds. -/
def chains (surgeries : List Surgery) : Nat → Graph → StateM Sink (List Graph)
  | 0, g => executeAll surgeries g
  | rounds + 1, g => do
    let derived ← executeAll surgeries g
    return derived ++ (← gather (chains surgeries rounds) derived)

/-- The graphs that surgeries make of a graph in up to `maxDepth` rounds, of which there is at least one. -/
def exhaust (surgeries : List Surgery) (maxDepth : Int) (unique : Bool) (g : Graph) : StateM Sink (List Graph) := do
  let derived ← chains surgeries (maxDepth - 1).toNat g
  return if unique && derived.length > 1 then removeDuplicates (some g) derived else derived

end Surgery

end Treebank

import Treebank.Decimal.Shortest

/-!
# Edges

A labelled edge from a governor to a dependent. Extra edges are those that an enhanced analysis adds to the tree. Equality of edges
is `same`, which overlooks the sign of a zero weight.
-/

namespace Treebank

/-- An edge. -/
structure Edge where
  governor : Int
  dependent : Int
  relation : String
  weight : Binary64 := .one
  extra : Bool := false
  deriving DecidableEq, Repr, Inhabited

namespace Edge

/-- Whether two edges are equal. -/
def same (a b : Edge) : Bool :=
  a.governor == b.governor && a.dependent == b.dependent && a.relation == b.relation && a.weight.alike b.weight && a.extra == b.extra

/-- The order of edges with a common end: by relation, plain edges before extra ones. -/
def cmpLabel : Edge → Edge → Ordering := compareLex (compareOn relation) (compareOn extra)

/-- The order of edges with a common governor. -/
def cmpDependent : Edge → Edge → Ordering := compareLex (compareOn dependent) cmpLabel

/-- The order of edges with a common dependent. -/
def cmpGovernor : Edge → Edge → Ordering := compareLex (compareOn governor) cmpLabel

/-- The order of all edges. -/
def cmp : Edge → Edge → Ordering := compareLex (compareOn governor) cmpDependent

/-- An edge in writing; a star marks an extra one. -/
def text (e : Edge) : String :=
  e.relation ++ (if e.extra then "*" else "") ++ "(" ++ String.ofList (Text.intDigits e.governor) ++ ", " ++
    String.ofList (Text.intDigits e.dependent) ++ ")"

/-- The edges without those that have an end, told by `far`, and the relation in common with an earlier one. -/
def firstOfEach (far : Edge → Int) : List Edge → List Edge
  | [] => []
  | e :: es => e :: (firstOfEach far es).filter fun f => !(far f == far e && f.relation == e.relation)

/-- Leaving repeated edges out makes a list no longer. -/
theorem length_firstOfEach_le (far : Edge → Int) (es : List Edge) : (firstOfEach far es).length ≤ es.length := by
  induction es with
  | nil => simp [firstOfEach]
  | cons e es ih =>
    have := List.length_filter_le (fun f : Edge => !(far f == far e && f.relation == e.relation)) (firstOfEach far es)
    simp only [firstOfEach, List.length_cons]
    omega

end Edge

end Treebank

import Treebank.Proofs.Pattern.Outcome

/-!
# Names of edges

A relation that follows no edge has no name for one. The reader refuses such a name where it stands, so no pattern that was read has one
anywhere (`namesFollowed_ofText`).
-/

namespace Treebank

namespace Pattern

/-! ## Names for edges that are followed -/

/-- Whether an operator that names an edge follows edges. -/
def Operator.namesFollowed (o : Operator) : Bool := o.edgeName.isNone || o.kind.followsEdges

mutual
/-- Whether all operators of a constraint that name an edge follow edges. -/
def Constraint.namesFollowed : Constraint → Bool
  | .relation _ operator _ none => operator.namesFollowed
  | .relation _ operator _ (some inner) => operator.namesFollowed && inner.namesFollowed
  | .all _ children => nameFollowed children
  | .any _ children => nameFollowed children

/-- Whether all operators of some constraints that name an edge follow edges. -/
def nameFollowed : List Constraint → Bool
  | [] => true
  | c :: cs => c.namesFollowed && nameFollowed cs
end

/-- Whether all operators of a part that name an edge follow edges. -/
def Part.namesFollowed (p : Part) : Bool := p.constraint.all (·.namesFollowed)

end Pattern

open Pattern in
/-- Whether all operators of a pattern that name an edge follow edges. -/
def Pattern.namesFollowed (p : Pattern) : Bool := p.parts.all Part.namesFollowed

namespace Pattern

variable {i : Input} {cs rest : List Char}

theorem nameFollowed_iff {cs : List Constraint} : nameFollowed cs ↔ ∀ c ∈ cs, c.namesFollowed := by
  induction cs with
  | nil => simp [nameFollowed]
  | cons c cs ih => simp [nameFollowed, ih]

/-! ## What is read -/

/-- An operator that was read follows edges if it names one. -/
theorem namesFollowed_takeOperator {operator : Operator} (h : takeOperator i cs = .ok (operator, rest)) :
    operator.namesFollowed := by
  obtain ⟨-, -, -, -, -, -, -, -, -, hfollows⟩ := takeOperator_eq_ok_iff.1 h
  rw [Operator.namesFollowed]
  cases hkind : operator.kind.followsEdges with
  | true => exact Bool.or_true _
  | false =>
    obtain ⟨-, hname⟩ := hfollows hkind
    rw [hname]
    rfl

/-- So do all operators of a constraint that was read. -/
theorem Constraint.IsRead.namesFollowed {c : Constraint} (h : c.IsRead) : c.namesFollowed := by
  have hoperator : ∀ {operator : Operator}, operator.IsRead → operator.namesFollowed := by
    rintro operator ⟨i, cs, rest, h⟩
    exact namesFollowed_takeOperator h
  induction h with
  | relation mode ho ht => exact hoperator ho
  | target mode ho ht hinner ih => exact Bool.and_eq_true_iff.2 ⟨hoperator ho, ih⟩
  | all mode hne hgroup h ih => exact nameFollowed_iff.2 ih
  | any mode hmany h ih => exact nameFollowed_iff.2 ih

/-- In a pattern that was read all operators that name an edge follow edges. -/
theorem namesFollowed_ofText {options : PatternOptions} {text : String} {p : Pattern} (h : ofText options text = .ok p) :
    p.namesFollowed := by
  refine List.all_eq_true.2 fun part hpart => ?_
  obtain ⟨-, hconstraint⟩ := isRead_of_ofText h part hpart
  exact (Option.all_eq_true ..).2 fun c hc => (hconstraint c hc).namesFollowed

end Pattern

end Treebank

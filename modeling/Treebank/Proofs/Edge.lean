import Treebank.Edge

/-!
# Laws of edges

Equality of edges is an equivalence, and their orders are orders.
-/

namespace Treebank

namespace Binary64

/-- The datum of a value but for the sign of a zero. -/
def unsigned : Binary64 → Binary64
  | .finite _ 0 _ => .zero false
  | x => x

/-- Values are alike exactly if they are one datum but for the sign of a zero. -/
theorem alike_iff (x y : Binary64) : x.alike y ↔ x.unsigned = y.unsigned := by
  rcases x with _ | _ | ⟨n, _ | m, e⟩ <;> rcases y with _ | _ | ⟨n', _ | m', e'⟩ <;> simp [alike, unsigned, zero]

end Binary64

namespace Edge

/-- Edges are equal exactly if they have the same fields but for the sign of a zero weight. -/
theorem same_iff (a b : Edge) : a.same b ↔ { a with weight := a.weight.unsigned } = { b with weight := b.weight.unsigned } := by
  simp only [same, Bool.and_eq_true, beq_iff_eq, Binary64.alike_iff, Edge.mk.injEq, and_assoc]

@[simp] theorem same_refl (a : Edge) : a.same a := (same_iff a a).2 rfl

theorem same_comm (a b : Edge) : a.same b ↔ b.same a := by rw [same_iff, same_iff, eq_comm]

theorem same_trans {a b c : Edge} (h : a.same b) (h' : b.same c) : a.same c :=
  (same_iff a c).2 (((same_iff a b).1 h).trans ((same_iff b c).1 h'))

/-- Equal edges have equal ends. -/
theorem ends_of_same {a b : Edge} (h : a.same b) : a.governor = b.governor ∧ a.dependent = b.dependent := by
  have := (same_iff a b).1 h
  simp only [Edge.mk.injEq] at this
  exact ⟨this.1, this.2.1⟩

/-- Equal edges have equal labels. -/
theorem labels_of_same {a b : Edge} (h : a.same b) : a.relation = b.relation ∧ a.extra = b.extra := by
  have := (same_iff a b).1 h
  simp only [Edge.mk.injEq] at this
  exact ⟨this.2.2.1, this.2.2.2.2⟩

/-- What an edge says but for its weight. -/
def outline (e : Edge) : Int × Int × String × Bool := (e.governor, e.dependent, e.relation, e.extra)

/-- Edges have one outline exactly if they differ in weight at most. -/
theorem outline_eq_iff {a b : Edge} :
    a.outline = b.outline ↔ a.governor = b.governor ∧ a.dependent = b.dependent ∧ a.relation = b.relation ∧ a.extra = b.extra := by
  simp only [outline, Prod.mk.injEq]

/-- Equal edges have one outline. -/
theorem outline_of_same {a b : Edge} (h : a.same b) : a.outline = b.outline :=
  outline_eq_iff.2 ⟨(ends_of_same h).1, (ends_of_same h).2, labels_of_same h⟩

/-! ## Orders of edges -/

instance : Std.TransCmp cmpLabel := inferInstanceAs (Std.TransCmp (compareLex (compareOn relation) (compareOn extra)))

instance : Std.TransCmp cmpDependent := inferInstanceAs (Std.TransCmp (compareLex (compareOn dependent) cmpLabel))

instance : Std.TransCmp cmpGovernor := inferInstanceAs (Std.TransCmp (compareLex (compareOn governor) cmpLabel))

instance : Std.TransCmp cmp := inferInstanceAs (Std.TransCmp (compareLex (compareOn governor) cmpDependent))

/-- Where labels stand in the order depends on the outlines alone. -/
theorem cmpLabel_congr {a b a' b' : Edge} (h : a.outline = b.outline) (h' : a'.outline = b'.outline) :
    cmpLabel a a' = cmpLabel b b' := by
  obtain ⟨-, -, hr, he⟩ := outline_eq_iff.1 h
  obtain ⟨-, -, hr', he'⟩ := outline_eq_iff.1 h'
  simp only [cmpLabel, compareLex, compareOn, hr, hr', he, he']

/-- Where edges stand among those of a governor depends on the outlines alone. -/
theorem cmpDependent_congr {a b a' b' : Edge} (h : a.outline = b.outline) (h' : a'.outline = b'.outline) :
    cmpDependent a a' = cmpDependent b b' := by
  have hl := cmpLabel_congr h h'
  simp only [cmpDependent, compareLex, compareOn, hl, (outline_eq_iff.1 h).2.1, (outline_eq_iff.1 h').2.1]

/-- Where edges stand among those of a dependent depends on the outlines alone. -/
theorem cmpGovernor_congr {a b a' b' : Edge} (h : a.outline = b.outline) (h' : a'.outline = b'.outline) :
    cmpGovernor a a' = cmpGovernor b b' := by
  have hl := cmpLabel_congr h h'
  simp only [cmpGovernor, compareLex, compareOn, hl, (outline_eq_iff.1 h).1, (outline_eq_iff.1 h').1]

/-- Where edges stand among all edges depends on the outlines alone. -/
theorem cmp_congr {a b a' b' : Edge} (h : a.outline = b.outline) (h' : a'.outline = b'.outline) : cmp a a' = cmp b b' := by
  have hd := cmpDependent_congr h h'
  simp only [cmp, compareLex, compareOn, hd, (outline_eq_iff.1 h).1, (outline_eq_iff.1 h').1]

/-- Labels that stand at one place are one label. -/
theorem labels_of_cmpLabel {a b : Edge} (h : cmpLabel a b = .eq) : a.relation = b.relation ∧ a.extra = b.extra := by
  simpa [cmpLabel, compareLex_eq_eq, compareOn] using h

/-- Edges of one governor that stand at one place have one outline. -/
theorem outline_of_cmpDependent {a b : Edge} (hg : a.governor = b.governor) (h : cmpDependent a b = .eq) : a.outline = b.outline := by
  obtain ⟨hd, hl⟩ := compareLex_eq_eq.1 h
  exact outline_eq_iff.2 ⟨hg, by simpa [compareOn] using hd, labels_of_cmpLabel hl⟩

/-- Edges of one dependent that stand at one place have one outline. -/
theorem outline_of_cmpGovernor {a b : Edge} (hd : a.dependent = b.dependent) (h : cmpGovernor a b = .eq) : a.outline = b.outline := by
  obtain ⟨hg, hl⟩ := compareLex_eq_eq.1 h
  exact outline_eq_iff.2 ⟨by simpa [compareOn] using hg, hd, labels_of_cmpLabel hl⟩

/-- Edges that stand at one place have one outline. -/
theorem outline_of_cmp {a b : Edge} (h : cmp a b = .eq) : a.outline = b.outline := by
  obtain ⟨hg, hd⟩ := compareLex_eq_eq.1 h
  exact outline_of_cmpDependent (by simpa [compareOn] using hg) hd

end Edge

end Treebank

import Treebank.Edit.Apply
import Treebank.Proofs.Pairs

/-!
# Laws of names in edits

What the check of a list of edits says about its parts, and what the edits of a list that was checked do to the names.
-/

namespace Treebank.Edit

/-! ## The check -/

/-- The names that some edits bind. -/
def introducedBy (es : List Edit) : List String := es.flatMap introducedNames

/-- A list is accepted exactly if its first part is, and the rest is after the names that the first part binds. -/
theorem checkFrom_append_eq_ok_iff (nodes edges : List String) (number : Nat) (es es' : List Edit) :
    checkFrom nodes edges number (es ++ es') = .ok () ↔
      checkFrom nodes edges number es = .ok () ∧
        checkFrom (nodes ++ introducedBy es) edges (number + es.length) es' = .ok () := by
  induction es generalizing nodes number with
  | nil => simp [checkFrom, introducedBy]
  | cons e es ih =>
    simp only [List.cons_append, checkFrom]
    cases fault? nodes edges number e with
    | some fault => simp
    | none =>
      simp only
      rw [ih, introducedBy, introducedBy, List.flatMap_cons, List.append_assoc, List.length_cons, Nat.add_assoc, Nat.add_comm 1]

/-- An edit that is accepted binds new names. -/
theorem notMem_of_fault?_eq_none {nodes edges : List String} {number : Nat} {e : Edit} (h : fault? nodes edges number e = none) :
    ∀ name ∈ e.introducedNames, name ∉ nodes := by
  intro name hm hn
  unfold fault? at h
  split at h
  · cases h
  · split at h
    · cases h
    · have := List.find?_eq_none.1 (Option.map_eq_none_iff.1 h) name hm
      simp [hn] at this

/-- An edit that is accepted reads known names. -/
theorem mem_of_fault?_eq_none {nodes edges : List String} {number : Nat} {e : Edit} (h : fault? nodes edges number e = none) :
    (∀ name ∈ e.nodeReferences, name ∈ nodes) ∧ ∀ name ∈ e.edgeReferences, name ∈ edges := by
  unfold fault? at h
  split at h
  · cases h
  · rename_i hnodes
    split at h
    · cases h
    · rename_i hedges
      exact ⟨fun name hm => by simpa using List.find?_eq_none.1 hnodes name hm,
        fun name hm => by simpa using List.find?_eq_none.1 hedges name hm⟩

/-- An edit of a list that is accepted reads names that are known from the start, or that edits before it bind. -/
theorem mem_of_checkNames {nodes edges : List String} {before after : List Edit} {e : Edit}
    (h : checkNames nodes edges (before ++ e :: after) = .ok ()) :
    (∀ name ∈ e.nodeReferences, name ∈ nodes ∨ name ∈ introducedBy before) ∧ ∀ name ∈ e.edgeReferences, name ∈ edges := by
  obtain ⟨-, hrest⟩ := (checkFrom_append_eq_ok_iff ..).1 h
  rw [checkFrom] at hrest
  split at hrest
  · cases hrest
  · rename_i hfault
    obtain ⟨hnodes, hedges⟩ := mem_of_fault?_eq_none hfault
    exact ⟨fun name hm => List.mem_append.1 (hnodes name hm), hedges⟩

/-- Edits that are accepted bind new names. -/
theorem notMem_of_checkFrom {nodes edges : List String} {number : Nat} {es : List Edit}
    (h : checkFrom nodes edges number es = .ok ()) : ∀ name ∈ introducedBy es, name ∉ nodes := by
  induction es generalizing nodes number with
  | nil => simp [introducedBy]
  | cons e es ih =>
    simp only [checkFrom] at h
    split at h
    · cases h
    · rename_i hf
      intro name hm hn
      rw [introducedBy, List.flatMap_cons] at hm
      rcases List.mem_append.1 hm with hm | hm
      · exact notMem_of_fault?_eq_none hf name hm hn
      · exact ih h name hm (List.mem_append_left _ hn)

/-! ## What edits do to the bindings -/

variable {w w' : Workspace} {e : Edit} {x : String}

/-- Other names keep their tokens when a name is bound. -/
theorem lookup_bind (name : Option String) (index : Int) (hx : x ∉ (given? name).toList) :
    (w.bind name index).bindings.nodes.lookup x = w.bindings.nodes.lookup x := by
  unfold Workspace.bind
  cases hn : given? name with
  | none => rfl
  | some name =>
    rw [hn, Option.toList_some, List.mem_singleton] at hx
    simp only [Pairs.lookup_put]
    rw [if_neg (by simpa using hx)]

/-- The names after one more is bound. -/
theorem keys_bind (name : Option String) (index : Int) :
    ∀ y ∈ Pairs.keys (w.bind name index).bindings.nodes, y ∈ Pairs.keys w.bindings.nodes ∨ y ∈ (given? name).toList := by
  intro y hy
  by_cases hx : y ∈ (given? name).toList
  · exact Or.inr hx
  · refine Or.inl ?_
    have := lookup_bind (w := w) name index hx
    rw [Pairs.keys, ← Pairs.isSome_lookup_iff] at hy ⊢
    rwa [this] at hy

end Treebank.Edit

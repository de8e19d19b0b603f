import Treebank.Relation
import Mathlib.Order.Defs.Unbundled
import Mathlib.Order.Preorder.Chain

/-!
# The way up from a label

From every label parents lead up to a top. Each step leads to a smaller height, so no label is met twice on the way, and the look at
what has been seen never stops a climb (`ancestors_eq_above`). Labels on one way up stand above each other, so subsumption is an order in
which what subsumes a label is a chain (`labels_form_hierarchy`).
-/

namespace Treebank.Relation

variable {name label general specific : String} {seen : List String} {m n i : Nat}

/-! ## Steps -/

/-- Exactly the tops have no parent. -/
theorem parent?_eq_none_iff : parent? name = none ↔ name ∈ tops := by
  unfold parent?
  split
  · simp [*]
  · split
    · simp [*]
    · split <;> simp [*]

/-- The label to which a number of steps lead. -/
def rise : Nat → String → Option String
  | 0, name => some name
  | n + 1, name => (parent? name).bind (rise n)

/-- Steps after steps. -/
theorem rise_add (m n : Nat) (name : String) : rise (m + n) name = (rise m name).bind (rise n) := by
  induction m generalizing name with
  | zero => rw [Nat.zero_add, rise, Option.bind_some]
  | succ m ih =>
    rw [Nat.succ_add, rise, rise, Option.bind_assoc]
    exact Option.bind_congr fun parent _ => ih parent

/-- Of two labels on the way up from a label, further steps lead from the first to the second. -/
theorem rise_sub (hle : m ≤ n) (hm : rise m name = some label) : rise (n - m) label = rise n name := by
  obtain ⟨k, rfl⟩ := Nat.exists_eq_add_of_le hle
  rw [rise_add, hm, Option.bind_some, Nat.add_sub_cancel_left]

/-- Each step leads to a smaller height. -/
theorem height_add_le_of_rise (h : rise n name = some label) : height label + n ≤ height name := by
  induction n generalizing name with
  | zero =>
    obtain rfl := Option.some.inj h
    exact Nat.le_refl _
  | succ n ih =>
    obtain ⟨parent, hparent, hrest⟩ := Option.bind_eq_some_iff.1 h
    have hstep := height_parent?_lt hparent
    have hrise := ih hrest
    omega

/-- Different numbers of steps lead to different labels. -/
theorem rise_injective (hm : rise m name = some label) (hn : rise n name = some label) : m = n := by
  have hloop : ∀ {m n}, m ≤ n → rise m name = some label → rise n name = some label → m = n := by
    intro m n hle hm hn
    have := height_add_le_of_rise ((rise_sub hle hm).trans hn)
    omega
  rcases Nat.le_total m n with hle | hle
  · exact hloop hle hm hn
  · exact (hloop hle hn hm).symm

/-- Some number of steps leads to a top. -/
theorem exists_rise_top (name : String) : ∃ n, ∃ top ∈ tops, rise n name = some top := by
  cases hparent : parent? name with
  | none => exact ⟨0, name, parent?_eq_none_iff.1 hparent, rfl⟩
  | some parent =>
    have := height_parent?_lt hparent
    obtain ⟨n, top, htop, hrise⟩ := exists_rise_top parent
    exact ⟨n + 1, top, htop, by rw [rise, hparent, Option.bind_some, hrise]⟩
termination_by height name

/-! ## Climbs -/

/-- The labels above a label, nearest first, with no look at what has been seen. -/
def above (name : String) : List String :=
  match h : parent? name with
  | none => []
  | some parent =>
    have := height_parent?_lt h
    parent :: above parent
termination_by height name

theorem above_eq_nil (h : parent? name = none) : above name = [] := by
  rw [above]
  split
  · rfl
  · simp_all

theorem above_eq_cons {parent : String} (h : parent? name = some parent) : above name = parent :: above parent := by
  rw [above]
  split <;> simp_all

/-- The label that stands at a place above a label is the one to which so many steps lead. -/
theorem getElem?_above (name : String) (i : Nat) : (above name)[i]? = rise (i + 1) name := by
  induction name using above.induct generalizing i with
  | case1 name hnone => rw [above_eq_nil hnone, rise, hnone, Option.bind_none, List.getElem?_nil]
  | case2 name parent hparent _ ih =>
    rw [above_eq_cons hparent, rise, hparent, Option.bind_some]
    cases i with
    | zero => rfl
    | succ i => exact ih i

/-- A climb stops nowhere but at a top, if nothing that has been seen is nearer to a top than its beginning. -/
theorem climb_eq_above (hseen : ∀ label ∈ seen, height name ≤ height label) : climb seen name = above name := by
  induction name using above.induct generalizing seen with
  | case1 name hnone =>
    rw [climb, above_eq_nil hnone]
    split
    · rfl
    · simp_all
  | case2 name parent hparent hlt ih =>
    have hnew : parent ∉ seen := fun hmem => Nat.not_le.2 hlt (hseen parent hmem)
    have hrest : climb (parent :: seen) parent = above parent :=
      ih (List.forall_mem_cons.2 ⟨Nat.le_refl _, fun label hlabel => hlt.le.trans (hseen label hlabel)⟩)
    rw [climb, above_eq_cons hparent]
    split
    · simp_all
    · rename_i parent' hparent'
      obtain rfl := Option.some.inj (hparent.symm.trans hparent')
      rw [if_neg hnew, hrest]

/-- The ancestors of a label are all labels above it. -/
theorem ancestors_eq_above (name : String) : ancestors name = above name :=
  climb_eq_above (List.forall_mem_singleton.2 (Nat.le_refl _))

/-! ## Subsumption -/

/-- What subsumes a label are the labels to which steps lead from it. -/
theorem subsumes_iff : subsumes general specific ↔ ∃ n, rise n specific = some general := by
  unfold subsumes
  rw [Bool.or_eq_true, beq_iff_eq, List.contains_iff_mem, ancestors_eq_above, List.mem_iff_getElem?]
  simp only [getElem?_above]
  constructor
  · rintro (rfl | ⟨i, hi⟩)
    · exact ⟨0, rfl⟩
    · exact ⟨i + 1, hi⟩
  · rintro ⟨n, hn⟩
    cases n with
    | zero => exact .inl (Option.some.inj hn)
    | succ n => exact .inr ⟨n, hn⟩

/-- Every label subsumes itself. -/
theorem subsumes_refl (name : String) : subsumes name name := subsumes_iff.2 ⟨0, rfl⟩

/-- What subsumes a label subsumes what this one subsumes. -/
theorem subsumes_trans {a b c : String} (hab : subsumes a b) (hbc : subsumes b c) : subsumes a c := by
  obtain ⟨m, hm⟩ := subsumes_iff.1 hab
  obtain ⟨n, hn⟩ := subsumes_iff.1 hbc
  exact subsumes_iff.2 ⟨n + m, by rw [rise_add, hn, Option.bind_some, hm]⟩

/-- Labels that subsume each other are one label. -/
theorem subsumes_antisymm {a b : String} (hab : subsumes a b) (hba : subsumes b a) : a = b := by
  obtain ⟨m, hm⟩ := subsumes_iff.1 hab
  obtain ⟨n, hn⟩ := subsumes_iff.1 hba
  have hdown := height_add_le_of_rise hm
  have hup := height_add_le_of_rise hn
  obtain rfl : m = 0 := by omega
  exact (Option.some.inj hm).symm

/-- Of two labels that subsume a third one, one subsumes the other. -/
theorem subsumes_total {a b c : String} (ha : subsumes a c) (hb : subsumes b c) : subsumes a b ∨ subsumes b a := by
  obtain ⟨m, hm⟩ := subsumes_iff.1 ha
  obtain ⟨n, hn⟩ := subsumes_iff.1 hb
  rcases Nat.le_total m n with hle | hle
  · exact .inr (subsumes_iff.2 ⟨n - m, (rise_sub hle hm).trans hn⟩)
  · exact .inl (subsumes_iff.2 ⟨m - n, (rise_sub hle hn).trans hm⟩)

/-- From every label parents lead to a top, no label is met twice on the way, and the ancestors of the label are all that is met on it
after the label itself. Subsumption is a partial order of the labels, and what subsumes a label is a chain. -/
theorem labels_form_hierarchy :
    (∀ name, (∃ n, ∃ top ∈ tops, rise n name = some top) ∧
        (∀ m n label, rise m name = some label → rise n name = some label → m = n) ∧
        ∀ i, (ancestors name)[i]? = rise (i + 1) name) ∧
      IsPartialOrder String (fun general specific => subsumes general specific) ∧
      ∀ name, IsChain (fun general specific => subsumes general specific) {general | subsumes general name} := by
  refine ⟨fun name => ⟨exists_rise_top name, fun _ _ _ => rise_injective, fun i => ?_⟩, ?_, fun name a ha b hb _ => ?_⟩
  · rw [ancestors_eq_above, getElem?_above]
  · exact { refl := subsumes_refl, trans := fun _ _ _ => subsumes_trans, antisymm := fun _ _ => subsumes_antisymm }
  · exact subsumes_total ha hb

end Treebank.Relation

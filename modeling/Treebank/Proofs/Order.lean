import Treebank.Order.Scatter
import Mathlib.Data.List.Basic
import Mathlib.Data.List.Forall2
import Mathlib.Data.List.Pairwise

/-!
# Laws of sorted lists

Sorting permutes a list and makes it ascend; ascending lists of integers are finite sets.
-/

namespace Treebank.Order

/-! ## Lists whose items stand for each other -/

/-- Lists whose items stand for each other have one image, if the items have. -/
theorem map_eq_of_forall₂ {α β γ : Type} {Q : α → β → Prop} {f : α → γ} {f' : β → γ} (hQ : ∀ a b, Q a b → f a = f' b) {l : List α}
    {l' : List β} (hl : List.Forall₂ Q l l') : l.map f = l'.map f' := by
  induction hl with
  | nil => rfl
  | cons hab _ ih => rw [List.map_cons, List.map_cons, hQ _ _ hab, ih]

/-- Lists whose items stand for each other keep the same places, if the test does not tell the items apart. -/
theorem filter_of_forall₂ {α β : Type} {Q : α → β → Prop} {p : α → Bool} {q : β → Bool} (hQ : ∀ a b, Q a b → p a = q b)
    {l : List α} {l' : List β} (hl : List.Forall₂ Q l l') : List.Forall₂ Q (l.filter p) (l'.filter q) := by
  refine List.rel_filter (fun a b hab => ?_) hl
  show p a ↔ q b
  rw [hQ a b hab]

/-- Lists whose items stand for each other are empty together. -/
theorem isEmpty_eq_of_forall₂ {α β : Type} {Q : α → β → Prop} {l : List α} {l' : List β} (hl : List.Forall₂ Q l l') :
    l.isEmpty = l'.isEmpty := by
  cases hl <;> rfl

section Sorting

variable {α : Type} {cmp : α → α → Ordering}

/-- Putting an item in permutes. -/
theorem perm_insertBy (cmp : α → α → Ordering) (a : α) (l : List α) : (insertBy cmp a l).Perm (a :: l) := by
  induction l with
  | nil => exact List.Perm.refl _
  | cons b l ih =>
    simp only [insertBy]
    split
    · exact List.Perm.refl _
    · exact (ih.cons b).trans (List.Perm.swap a b l)

/-- Sorting permutes. -/
theorem perm_sortBy (cmp : α → α → Ordering) (l : List α) : (sortBy cmp l).Perm l := by
  induction l with
  | nil => exact List.Perm.refl _
  | cons a l ih => exact (perm_insertBy cmp a _).trans (ih.cons a)

/-- Sorting keeps the members. -/
@[simp] theorem mem_sortBy {a : α} {l : List α} : a ∈ sortBy cmp l ↔ a ∈ l := (perm_sortBy cmp l).mem_iff

/-- Sorting leaves an ascending list as it is. -/
theorem sortBy_eq_self {l : List α} (hl : l.Pairwise fun x y => (cmp x y).isLE) : sortBy cmp l = l := by
  induction l with
  | nil => rfl
  | cons a l ih =>
    obtain ⟨ha, hl⟩ := List.pairwise_cons.1 hl
    rw [sortBy, List.foldr_cons, ← sortBy, ih hl]
    cases l with
    | nil => rfl
    | cons b l => rw [insertBy, if_pos (ha b (List.mem_cons_self ..))]

/-! ### Sorting lists item by item alike -/

section

variable {β : Type} {cmp' : β → β → Ordering} {R : α → β → Prop}

/-- An item is put into lists whose items stand for each other at the same place, if the orders do not tell the items apart. -/
theorem forall₂_insertBy (hcmp : ∀ a b a' b', R a b → R a' b' → cmp a a' = cmp' b b') {a : α} {b : β} (hab : R a b) {l : List α}
    {l' : List β} (h : List.Forall₂ R l l') : List.Forall₂ R (insertBy cmp a l) (insertBy cmp' b l') := by
  induction h with
  | nil => exact .cons hab .nil
  | cons hcd h ih =>
    simp only [insertBy, hcmp _ _ _ _ hab hcd]
    split
    · exact .cons hab (.cons hcd h)
    · exact .cons hcd ih

/-- Sorting keeps lists alike, if the orders do not tell their items apart. -/
theorem forall₂_sortBy (hcmp : ∀ a b a' b', R a b → R a' b' → cmp a a' = cmp' b b') {l : List α} {l' : List β}
    (h : List.Forall₂ R l l') : List.Forall₂ R (sortBy cmp l) (sortBy cmp' l') := by
  induction h with
  | nil => exact .nil
  | cons hab _ ih => exact forall₂_insertBy hcmp hab ih

end

variable [Std.TransCmp cmp]

/-- An item that is put in stands where the list goes on to ascend. -/
theorem pairwise_insertBy (a : α) {l : List α} (hl : l.Pairwise fun x y => (cmp x y).isLE) :
    (insertBy cmp a l).Pairwise fun x y => (cmp x y).isLE := by
  induction l with
  | nil => simp [insertBy]
  | cons b l ih =>
    have hb := List.pairwise_cons.1 hl
    simp only [insertBy]
    split
    · rename_i hab
      refine List.pairwise_cons.2 ⟨fun x hx => ?_, hl⟩
      rcases List.mem_cons.1 hx with rfl | hx
      · exact hab
      · exact Std.TransCmp.isLE_trans hab (hb.1 x hx)
    · rename_i hab
      refine List.pairwise_cons.2 ⟨fun x hx => ?_, ih hb.2⟩
      rcases List.mem_cons.1 ((perm_insertBy cmp a l).mem_iff.1 hx) with rfl | hx
      · have hs : cmp b x = (cmp x b).swap := Std.OrientedCmp.eq_swap
        cases h : cmp x b <;> simp_all
      · exact hb.1 x hx

/-- A sorted list ascends. -/
theorem pairwise_sortBy (cmp : α → α → Ordering) [Std.TransCmp cmp] (l : List α) :
    (sortBy cmp l).Pairwise fun x y => (cmp x y).isLE := by
  induction l with
  | nil => exact List.Pairwise.nil
  | cons a l ih => exact pairwise_insertBy a ih

/-- An ascending list is the strictly ascending one of which it is a permutation. -/
theorem eq_of_perm {l l' : List α} (h : l'.Perm l) (hl' : l'.Pairwise fun x y => (cmp x y).isLE)
    (hl : l.Pairwise fun x y => cmp x y = .lt) : l' = l := by
  refine List.Perm.eq_of_pairwise (fun a b ha hb hab hba => ?_) hl' (hl.imp fun e => by simp [e]) h
  have ha : a ∈ l := h.mem_iff.1 ha
  have hsymm : Std.Symm fun x y => cmp x y ≠ .eq := ⟨fun x y hne e => hne (Std.OrientedCmp.eq_symm e)⟩
  have hapart : l.Pairwise fun x y => cmp x y ≠ .eq := hl.imp fun e => by simp [e]
  exact Classical.byContradiction fun hne => hapart.forall ha hb hne (Std.OrientedCmp.isLE_antisymm hab hba)

/-- A strictly ascending list is what sorting makes of its permutations. -/
theorem sortBy_eq_of_perm {l l' : List α} (h : l'.Perm l) (hl : l.Pairwise fun x y => cmp x y = .lt) : sortBy cmp l' = l :=
  eq_of_perm ((perm_sortBy cmp l').trans h) (pairwise_sortBy cmp l') hl

/-- What is picked from a sorted list ascends. -/
theorem filter_sortBy_eq_of_perm {l l' : List α} {p : α → Bool} (h : (l'.filter p).Perm l)
    (hl : l.Pairwise fun x y => cmp x y = .lt) : (sortBy cmp l').filter p = l :=
  eq_of_perm (((perm_sortBy cmp l').filter p).trans h) ((pairwise_sortBy cmp l').filter p) hl

/-- Lists that are permutations of each other as far as `f` sees them are sorted alike, if the order sees no more and no less. -/
theorem map_sortBy_eq_of_perm {β : Type} {f : α → β} (hf : ∀ a b a' b', f a = f b → f a' = f b' → cmp a a' = cmp b b')
    {l l' : List α} (h : (l.map f).Perm (l'.map f)) (heq : ∀ a ∈ l, ∀ b ∈ l', cmp a b = .eq → f a = f b) :
    (sortBy cmp l).map f = (sortBy cmp l').map f := by
  have hs : ∀ l : List α, ((sortBy cmp l).map f).Pairwise fun x y => ∀ a b, f a = x → f b = y → (cmp a b).isLE := fun l =>
    List.pairwise_map.2 ((pairwise_sortBy cmp l).imp fun e a b ha hb => by rwa [hf _ _ _ _ ha hb])
  refine List.Perm.eq_of_pairwise (fun x y hx hy hxy hyx => ?_) (hs l) (hs l')
    (((perm_sortBy cmp l).map f).trans (h.trans ((perm_sortBy cmp l').map f).symm))
  obtain ⟨a, ha, rfl⟩ := List.mem_map.1 hx
  obtain ⟨b, hb, rfl⟩ := List.mem_map.1 hy
  exact heq a (mem_sortBy.1 ha) b (mem_sortBy.1 hb) (Std.OrientedCmp.isLE_antisymm (hxy a b rfl rfl) (hyx b a rfl rfl))

/-- What is found first in a sorted list comes before whatever else could be found. -/
theorem isLE_of_find?_sortBy {l : List α} {p : α → Bool} {a b : α} (h : (sortBy cmp l).find? p = some a) (hb : b ∈ l)
    (hp : p b) : (cmp a b).isLE := by
  obtain ⟨-, before, after, e, hno⟩ := List.find?_eq_some_iff_append.1 h
  have hs := pairwise_sortBy cmp l
  have hm : b ∈ before ++ a :: after := e ▸ mem_sortBy.2 hb
  rw [e, List.pairwise_append] at hs
  rcases List.mem_append.1 hm with hm | hm
  · have := hno b hm
    simp [hp] at this
  · rcases List.mem_cons.1 hm with rfl | hm
    · simp [Std.ReflCmp.compare_self]
    · exact (List.pairwise_cons.1 hs.2.1).1 b hm

end Sorting

/-! ## Sets of integers -/

/-- The members of a set with one more. -/
theorem mem_add {n m : Int} {l : List Int} : m ∈ add n l ↔ m = n ∨ m ∈ l := by
  induction l with
  | nil => simp [add]
  | cons k l ih =>
    simp only [add]
    split
    · simp
    · split
      · rename_i h
        subst h
        simp
      · rw [List.mem_cons, ih, List.mem_cons]
        tauto

/-- A set with one more ascends. -/
theorem ascending_add (n : Int) {l : List Int} (hl : l.Pairwise (· < ·)) : (add n l).Pairwise (· < ·) := by
  induction l with
  | nil => simp [add]
  | cons k l ih =>
    have hk := List.pairwise_cons.1 hl
    simp only [add]
    split
    · rename_i hnk
      refine List.pairwise_cons.2 ⟨fun x hx => ?_, hl⟩
      rcases List.mem_cons.1 hx with rfl | hx
      · exact hnk
      · have := hk.1 x hx
        omega
    · split
      · exact hl
      · refine List.pairwise_cons.2 ⟨fun x hx => ?_, ih hk.2⟩
        rcases mem_add.1 hx with rfl | hx
        · omega
        · exact hk.1 x hx

/-- The members of a list as a set. -/
theorem mem_distinct {m : Int} {l : List Int} : m ∈ distinct l ↔ m ∈ l := by
  induction l with
  | nil => simp [distinct]
  | cons n l ih => exact mem_add.trans (by rw [List.mem_cons]; exact or_congr_right ih)

/-- A list as a set ascends. -/
theorem ascending_distinct (l : List Int) : (distinct l).Pairwise (· < ·) := by
  induction l with
  | nil => exact List.Pairwise.nil
  | cons n l ih => exact ascending_add n ih

/-- Sorting by places keeps the members. -/
theorem mem_byPlace {m : Int} {l : List Int} : m ∈ byPlace l ↔ m ∈ l := mem_sortBy

end Treebank.Order

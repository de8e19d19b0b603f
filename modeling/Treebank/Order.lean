/-!
# Sorted lists

A stable sort by insertion, and ascending lists of integers without repetition as finite sets.
-/

namespace Treebank.Order

/-- Puts an item into a sorted list, before the items that are not less. -/
def insertBy {α : Type} (cmp : α → α → Ordering) (a : α) : List α → List α
  | [] => [a]
  | b :: bs => if (cmp a b).isLE then a :: b :: bs else b :: insertBy cmp a bs

/-- Sorts a list; items that compare equal keep their order. -/
def sortBy {α : Type} (cmp : α → α → Ordering) (items : List α) : List α := items.foldr (insertBy cmp) []

/-- Putting an item in makes a list longer by one. -/
theorem length_insertBy {α : Type} (cmp : α → α → Ordering) (a : α) (items : List α) :
    (insertBy cmp a items).length = items.length + 1 := by
  induction items with
  | nil => rfl
  | cons b bs ih =>
    simp only [insertBy]
    split <;> simp [ih]

/-- Sorting keeps the number of items. -/
theorem length_sortBy {α : Type} (cmp : α → α → Ordering) (items : List α) : (sortBy cmp items).length = items.length := by
  induction items with
  | nil => rfl
  | cons a as ih => simpa [sortBy, length_insertBy] using ih

/-- Adds an integer to an ascending list without repetition. -/
def add (n : Int) : List Int → List Int
  | [] => [n]
  | m :: ms => if n < m then n :: m :: ms else if n = m then m :: ms else m :: add n ms

/-- The integers of a list, ascending and without repetition. -/
def distinct (ns : List Int) : List Int := ns.foldr add []

end Treebank.Order

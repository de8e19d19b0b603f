import Treebank.Graph.Store
import Treebank.Proofs.Graph.Sound

/-!
# Laws of numbered places

What is read from an arena after an item was added, dropped or changed, and that numbers stay used or free.
-/

namespace Treebank.Arena

variable {α : Type}

/-- The used and the free numbers of an arena are those below the first fresh one, each once. -/
def Numbered (a : Arena α) : Prop := Graph.Numbering (a.items.map (·.1)) a.free a.fresh

variable {a : Arena α}

/-- What can be read from an arena stands in it. -/
theorem Numbered.get?_eq_some_iff (h : a.Numbered) {n : Nat} {x : α} : a.get? n = some x ↔ (n, x) ∈ a.items :=
  Pairs.lookup_eq_some_iff_mem h.nodup_used

/-- The number that the next item gets is not used. -/
theorem Numbered.next_notMem (h : a.Numbered) : a.next ∉ a.items.map (·.1) := by
  intro hm
  unfold next at hm
  cases hf : a.free with
  | nil =>
    rw [hf] at hm
    exact Nat.lt_irrefl _ (h.lt_fresh hm)
  | cons n free =>
    rw [hf] at hm
    unfold Numbered at h
    rw [hf] at h
    exact h.notMem_used hm

/-- Nothing is read under the number that the next item gets. -/
theorem Numbered.get?_next (h : a.Numbered) : a.get? a.next = none :=
  Pairs.lookup_eq_none_iff_notMem.2 h.next_notMem

/-- An item that is added is the newest. -/
theorem items_add (a : Arena α) (x : α) : (a.add x).items = (a.next, x) :: a.items := by
  unfold add next
  cases a.free <;> rfl

/-- An item that is added is read under its number, and the others as before. -/
theorem get?_add (a : Arena α) (x : α) (n : Nat) : (a.add x).get? n = if n == a.next then some x else a.get? n := by
  unfold get?
  rw [items_add, Pairs.lookup_cons_eq]

theorem Numbered.add (h : a.Numbered) (x : α) : (a.add x).Numbered := by
  unfold Numbered at h ⊢
  unfold Arena.add
  cases hf : a.free with
  | nil =>
    rw [hf] at h
    simpa [hf] using h.extend
  | cons n free =>
    rw [hf] at h
    exact h.reuse

/-- An item that is dropped cannot be read any more. -/
theorem get?_drop (a : Arena α) (k n : Nat) : (a.drop k).get? n = if n == k then none else a.get? n :=
  Pairs.lookup_filter_ne a.items k n

theorem Numbered.drop (h : a.Numbered) {n : Nat} (hn : n ∈ a.items.map (·.1)) : (a.drop n).Numbered := by
  have := Graph.Numbering.release h hn
  rwa [List.filter_map] at this

/-- Items that are changed are read so. -/
theorem get?_mapItems (a : Arena α) (f : Nat → α → α) (n : Nat) : (a.mapItems f).get? n = (a.get? n).map (f n) :=
  Pairs.lookup_map a.items f n

/-- Changing items leaves their numbers as they are. -/
theorem Numbered.mapItems (h : a.Numbered) (f : Nat → α → α) : (a.mapItems f).Numbered := by
  have e : (a.mapItems f).items.map (·.1) = a.items.map (·.1) := Pairs.keys_map a.items f
  unfold Numbered
  rw [e]
  exact h

/-- Reading the numbers of some items, in order, gives these items. -/
theorem Numbered.filterMap_get? {β : Type} (h : a.Numbered) (f : Nat → α → β) {l : List (Nat × α)} (hl : l ⊆ a.items) :
    (l.map (·.1)).filterMap (fun n => (a.get? n).map (f n)) = l.map fun (n, x) => f n x := by
  induction l with
  | nil => rfl
  | cons p l ih =>
    obtain ⟨n, x⟩ := p
    have hx := h.get?_eq_some_iff.2 (hl (List.mem_cons_self ..))
    simp only [List.map_cons, List.filterMap_cons, hx, Option.map_some]
    rw [ih fun p hp => hl (List.mem_cons_of_mem _ hp)]

end Treebank.Arena

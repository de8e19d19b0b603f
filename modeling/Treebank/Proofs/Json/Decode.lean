import Treebank.Json.Decode
import Treebank.Proofs.Except
import Treebank.Proofs.Json.Text
import Treebank.Proofs.Pairs

/-!
# Decoding what was written

A value in writing is decoded as the value that its writing keeps (`decodeText_text`). An array is decoded item by item: to the list it
was made of, if every item is (`decodeItems_map`), and otherwise the fault of one of its items, with the place of the item, is reported
(`decodeItems_fails`).
-/

namespace Treebank.Json

variable {α : Type} {item : Decoder α} {f : α → Json} {path : Path}

/-! ## What writing keeps -/

/-- Every item of an array is kept for itself. -/
theorem storedItems_eq_map (vs : List Json) : storedItems vs = vs.map stored := by
  induction vs with
  | nil => rfl
  | cons v vs ih => rw [storedItems, ih, List.map_cons]

/-- Every field of an object is kept for itself. -/
theorem storedFields_eq_map (fs : List (String × Json)) : storedFields fs = fs.map fun (k, v) => (k, stored v) := by
  induction fs with
  | nil => rfl
  | cons field fs ih =>
    obtain ⟨k, v⟩ := field
    rw [storedFields, ih, List.map_cons]

/-- The items of an array are proper if every one of them is. -/
theorem properItems_of_forall {vs : List Json} (h : ∀ v ∈ vs, v.Proper) : ProperItems vs := by
  induction vs with
  | nil => exact trivial
  | cons v vs ih =>
    obtain ⟨hv, hvs⟩ := List.forall_mem_cons.1 h
    exact ⟨hv, ih hvs⟩

/-- The fields of an object are proper if every one of them is. -/
theorem properFields_of_forall {fs : List (String × Json)} (h : ∀ field ∈ fs, field.2.Proper) : ProperFields fs := by
  induction fs with
  | nil => exact trivial
  | cons field fs ih =>
    obtain ⟨k, v⟩ := field
    obtain ⟨hv, hfs⟩ := List.forall_mem_cons.1 h
    exact ⟨hv, ih hfs⟩

/-! ## Decoding -/

/-- A value in writing is decoded as its writing keeps it. -/
theorem decodeText_text (decoder : Decoder α) {v : Json} (hv : v.Proper) :
    decodeText decoder v.text = decoder { inText := true } v.stored := by
  have hread : read v.text.toList = ⟨v.stored, true⟩ := by
    rw [text, String.toList_ofList]
    exact read_render v hv
  unfold decodeText
  simp only [hread]
  cases decoder { inText := true } v.stored <;> rfl

/-- Items are decoded to what they were made of. -/
theorem decodeItems_map (start : Nat) {xs : List α} (h : ∀ x ∈ xs, ∀ path, item path (f x) = .ok x) :
    decodeItems item path start (xs.map f) = .ok xs := by
  induction xs generalizing start with
  | nil => rfl
  | cons x xs ih =>
    obtain ⟨hx, hxs⟩ := List.forall_mem_cons.1 h
    rw [List.map_cons, decodeItems, hx, ih (start + 1) hxs]
    rfl

/-- If some items are not decoded, the fault of one of them is reported, with its place. -/
theorem decodeItems_fails (start : Nat) (bad : α → Prop) (fault : α → Path → DecodeError → Prop) {xs : List α}
    (hgood : ∀ x ∈ xs, ¬bad x → ∀ path, item path (f x) = .ok x)
    (hbad : ∀ x ∈ xs, bad x → ∀ path, ∃ e, fault x path e ∧ item path (f x) = .error e) (hsome : ∃ x ∈ xs, bad x) :
    ∃ i x e, xs[i]? = some x ∧ fault x (path.enter (.item (start + i))) e ∧
      decodeItems item path start (xs.map f) = .error e := by
  induction xs generalizing start with
  | nil =>
    obtain ⟨x, hx, -⟩ := hsome
    exact absurd hx List.not_mem_nil
  | cons x xs ih =>
    obtain ⟨hgoodx, hgood⟩ := List.forall_mem_cons.1 hgood
    obtain ⟨hbadx, hbad⟩ := List.forall_mem_cons.1 hbad
    by_cases hx : bad x
    · obtain ⟨e, he, hfault⟩ := hbadx hx (path.enter (.item start))
      refine ⟨0, x, e, rfl, he, ?_⟩
      rw [List.map_cons, decodeItems, hfault]
      rfl
    · have hrest : ∃ y ∈ xs, bad y := by
        obtain ⟨y, hy, hybad⟩ := hsome
        rcases List.mem_cons.1 hy with rfl | hy
        · exact absurd hybad hx
        · exact ⟨y, hy, hybad⟩
      obtain ⟨i, y, e, hy, he, hfault⟩ := ih (start + 1) hgood hbad hrest
      rw [Nat.add_right_comm, Nat.add_assoc] at he
      refine ⟨i + 1, y, e, hy, he, ?_⟩
      rw [List.map_cons, decodeItems, hgoodx hx, hfault]
      rfl

end Treebank.Json

import Treebank.Edit.Record
import Treebank.Proofs.Edit.Line
import Treebank.Proofs.Json.Decode

/-!
# Edits as JSON, there and back

What is kept of an edit in writing is decoded as the edit, of whatever kind it is, if its weight is finite (`decode_json`). An infinite
weight is kept as null, which is no weight: the edit is refused there (`decode_json_infinite`).
-/

namespace Treebank.Edit

open Json

variable {path : Path} {e : Edit}

/-- Whether an edit is made of data: its weight is a number of the format, and no attribute stands twice. -/
structure WellMade (e : Edit) : Prop where
  canonical : e.weight.Canonical
  number : e.weight ≠ .notANumber
  keys : (Pairs.keys e.attributes).Nodup

instance : DecidablePred WellMade := fun e =>
  decidable_of_iff (e.weight.Canonical ∧ e.weight ≠ .notANumber ∧ (Pairs.keys e.attributes).Nodup)
    ⟨fun h => ⟨h.1, h.2.1, h.2.2⟩, fun h => ⟨h.canonical, h.number, h.keys⟩⟩

/-- The object of an edit is proper. -/
theorem proper_json (h : e.WellMade) : e.json.Proper := by
  have hoptional : ∀ s : Option String, (optionalJson s).Proper := fun s => by cases s <;> exact trivial
  have hattributes : ∀ attributes : Attributes, attributes.json.Proper := fun attributes =>
    properFields_of_forall fun field hfield => by
      obtain ⟨entry, -, rfl⟩ := List.mem_map.1 hfield
      exact trivial
  refine properFields_of_forall fun field hfield => ?_
  rcases List.mem_cons.1 hfield with rfl | hfield
  · exact trivial
  cases e with
  | removeEdge r =>
    simp only [fields, List.mem_cons, List.not_mem_nil, or_false] at hfield
    rcases hfield with rfl | rfl | rfl | rfl <;> exact hoptional _
  | addEdge governor dependent relation weight extra =>
    simp only [fields, List.mem_cons, List.not_mem_nil, or_false] at hfield
    rcases hfield with rfl | rfl | rfl | rfl | rfl
    case inr.inr.inr.inl => exact h.canonical
    all_goals exact trivial
  | addDependent governor relation attributes name weight =>
    simp only [fields, List.mem_cons, List.not_mem_nil, or_false] at hfield
    rcases hfield with rfl | rfl | rfl | rfl | rfl
    · exact trivial
    · exact trivial
    · exact hattributes attributes
    · exact hoptional name
    · exact h.canonical
  | addNode attributes name =>
    simp only [fields, List.mem_cons, List.not_mem_nil, or_false] at hfield
    rcases hfield with rfl | rfl
    · exact hattributes attributes
    · exact hoptional name
  | setRoots names =>
    simp only [fields, List.mem_singleton] at hfield
    subst hfield
    refine properItems_of_forall fun v hv => ?_
    obtain ⟨name, -, rfl⟩ := List.mem_map.1 hv
    exact trivial
  | killNonRootedNodes => exact absurd hfield List.not_mem_nil
  | delete node | killAllIncomingEdges node =>
    simp only [fields, List.mem_singleton] at hfield
    subst hfield
    exact trivial

/-! ## Fields -/

/-- A string or null is decoded. -/
theorem decodeString?_optionalJson (path : Path) (s : Option String) : decodeString? path (optionalJson s).stored = .ok s := by
  cases s <;> rfl

/-- A finite weight is decoded. -/
theorem decodeFloat_stored {w : Binary64} (hn : w ≠ .notANumber) (hf : ∀ negative, w ≠ .infinite negative) (path : Path) :
    decodeFloat path (stored (.float w)) = .ok w := by
  cases w with
  | notANumber => exact absurd rfl hn
  | infinite negative => exact absurd rfl (hf negative)
  | finite negative m q => rfl

/-- An infinite weight is kept as null, which is no number. -/
theorem decodeFloat_infinite (negative : Bool) (path : Path) :
    decodeFloat path (stored (.float (.infinite negative))) = .error (.mismatch "float" "null" path) := rfl

/-- Attributes are decoded. -/
theorem decodeStringMap_json {attributes : Attributes} (h : (Pairs.keys attributes).Nodup) (path : Path) :
    decodeStringMap path attributes.json.stored = .ok attributes := by
  have hfold : ∀ before : Attributes, (Pairs.keys (before ++ attributes)).Nodup →
      (attributes.map fun entry => (entry.1, Json.str entry.2)).foldlM
        (fun pairs entry => do return Pairs.put pairs entry.1 (← decodeString (path.enter .entry) entry.2)) before =
          (.ok (before ++ attributes) : Except DecodeError Attributes) := by
    induction attributes with
    | nil =>
      intro before _
      rw [List.append_nil]
      rfl
    | cons entry attributes ih =>
      intro before hkeys
      have hput : Pairs.put before entry.1 entry.2 = before ++ [entry] := Pairs.put_of_nodup hkeys
      rw [List.append_cons] at hkeys ⊢
      rw [List.map_cons, List.foldlM_cons]
      show (pure (Pairs.put before entry.1 entry.2) >>= _ : Except DecodeError Attributes) = _
      rw [hput, pure_bind]
      exact ih (List.nodup_cons.1 h).2 _ hkeys
  have hstored : storedFields (attributes.map fun entry => (entry.1, Json.str entry.2)) =
      attributes.map fun entry => (entry.1, Json.str entry.2) := by
    rw [storedFields_eq_map, List.map_map]
    rfl
  show List.foldlM _ _ (storedFields _) = _
  rw [hstored]
  exact hfold [] h

/-- Names are decoded. -/
theorem decodeList_names (names : List String) (path : Path) :
    decodeList decodeString path (stored (.arr (names.map .str))) = .ok names := by
  have hstored : storedItems (names.map Json.str) = names.map Json.str := by
    rw [storedItems_eq_map, List.map_map]
    rfl
  rw [stored, hstored]
  exact decodeItems_map 0 fun name _ path => rfl

/-- The fields of an edit are read behind the word that says which edit it is. -/
theorem readFields_eq (tag : String) (step : Path → Draft → String → Json → Except DecodeError Draft) {fs : List (String × Json)}
    (h : "op" ∉ fs.map (·.1)) (path : Path) : readFields tag step path (.obj (("op", .str tag) :: fs)) =
      fs.foldlM (fun d field => step path d field.1 field.2) {} := by
  have hfields : ∀ d : Draft, fs.foldlM (fun d (field : String × Json) => if field.1 = "op" then do
      let again ← decodeTag (path.enter (.field field.1)) field.2
      if again = tag then return d else throw (.unknownTag again (path.enter (.field field.1)))
    else step path d field.1 field.2) d = fs.foldlM (fun d field => step path d field.1 field.2) d := by
    induction fs with
    | nil => exact fun d => rfl
    | cons field fs ih =>
      intro d
      rw [List.map_cons, List.mem_cons, not_or] at h
      rw [List.foldlM_cons, List.foldlM_cons, if_neg (Ne.symm h.1)]
      exact congrArg (step path d field.1 field.2 >>= ·) (funext (ih h.2))
  have htag : readFields tag step path (.obj (("op", .str tag) :: fs)) =
      (if tag = tag then pure {} else throw (.unknownTag tag (path.enter (.field "op")))) >>= fun d =>
        fs.foldlM (fun d (field : String × Json) => if field.1 = "op" then do
          let again ← decodeTag (path.enter (.field field.1)) field.2
          if again = tag then return d else throw (.unknownTag again (path.enter (.field field.1)))
        else step path d field.1 field.2) d := rfl
  rw [htag, if_pos rfl, pure_bind, hfields]

/-! ## Kinds of edits -/

/-- A removal is decoded. -/
theorem decode_removeEdge (r : Removal) : decode path (removeEdge r).json.stored = .ok (removeEdge r) := by
  have hread : readFields "removeEdge" removalField path (removeEdge r).json.stored =
      .ok { edge := r.edge, governor := r.governor, dependent := r.dependent, relation := r.relation } := by
    refine (readFields_eq "removeEdge" removalField (by simp [storedFields, fields]) path).trans ?_
    simp [storedFields, fields, removalField, decodeString?_optionalJson, bind, Except.bind, pure, Except.pure]
  show decodeAs "removeEdge" path _ = _
  unfold decodeAs
  simp [hread, bind, Except.bind, r.targeted]
  rfl

/-- An edit that adds an edge is decoded if its weight is. -/
theorem decode_addEdge (governor dependent relation : String) (weight : Binary64) (extra : Bool) :
    decode path (addEdge governor dependent relation weight extra).json.stored =
      (decodeFloat (path.enter (.field "weight")) (stored (.float weight))).map (addEdge governor dependent relation · extra) := by
  have hread : readFields "addEdge" edgeField path (addEdge governor dependent relation weight extra).json.stored =
      (decodeFloat (path.enter (.field "weight")) (stored (.float weight))).map fun w =>
        { governor := some governor, dependent := some dependent, relation := some relation, weight := w, extra := extra } := by
    refine (readFields_eq "addEdge" edgeField (by simp [storedFields, fields]) path).trans ?_
    cases hw : decodeFloat (path.enter (.field "weight")) (stored (.float weight)) <;>
      simp [storedFields, fields, edgeField, text, decodeString, decodeBool, hw, bind, Except.bind, pure, Except.pure, Except.map]
  show decodeAs "addEdge" path _ = _
  unfold decodeAs
  simp only [hread]
  cases decodeFloat (path.enter (.field "weight")) (stored (.float weight)) <;> rfl

/-- An edit that makes a token under another one is decoded if its weight is. -/
theorem decode_addDependent (governor relation : String) {attributes : Attributes} (hkeys : (Pairs.keys attributes).Nodup)
    (name : Option String) (weight : Binary64) :
    decode path (addDependent governor relation attributes name weight).json.stored =
      (decodeFloat (path.enter (.field "weight")) (stored (.float weight))).map (addDependent governor relation attributes name) := by
  have hread : readFields "addDep" dependentField path (addDependent governor relation attributes name weight).json.stored =
      (decodeFloat (path.enter (.field "weight")) (stored (.float weight))).map fun w =>
        { governor := some governor, relation := some relation, attributes := some attributes, name := name, weight := w } := by
    refine (readFields_eq "addDep" dependentField (by simp [storedFields, fields]) path).trans ?_
    cases hw : decodeFloat (path.enter (.field "weight")) (stored (.float weight)) <;>
      simp [storedFields, fields, dependentField, text, decodeString, decodeString?_optionalJson, decodeStringMap_json hkeys, hw,
        bind, Except.bind, pure, Except.pure, Except.map]
  show decodeAs "addDep" path _ = _
  unfold decodeAs
  simp only [hread]
  cases decodeFloat (path.enter (.field "weight")) (stored (.float weight)) <;> rfl

/-- An edit that makes a token is decoded. -/
theorem decode_addNode {attributes : Attributes} (hkeys : (Pairs.keys attributes).Nodup) (name : Option String) :
    decode path (addNode attributes name).json.stored = .ok (addNode attributes name) := by
  have hread : readFields "addNode" tokenField path (addNode attributes name).json.stored =
      .ok { attributes := some attributes, name := name } := by
    refine (readFields_eq "addNode" tokenField (by simp [storedFields, fields]) path).trans ?_
    simp [storedFields, fields, tokenField, decodeString?_optionalJson, decodeStringMap_json hkeys, bind, Except.bind, pure, Except.pure]
  show decodeAs "addNode" path _ = _
  unfold decodeAs
  simp only [hread]
  rfl

/-- An edit that sets roots is decoded. -/
theorem decode_setRoots (names : List String) : decode path (setRoots names).json.stored = .ok (setRoots names) := by
  have hread : readFields "setRoots" rootsField path (setRoots names).json.stored = .ok { names := some names } := by
    refine (readFields_eq "setRoots" rootsField (by simp [storedFields, fields]) path).trans ?_
    simp [storedFields, fields, rootsField, decodeList_names, bind, Except.bind, pure, Except.pure]
  show decodeAs "setRoots" path _ = _
  unfold decodeAs
  simp only [hread]
  rfl

/-- What is kept of an edit is decoded as the edit, if its weight is decoded as itself. -/
theorem decode_json (h : e.WellMade) (hfinite : ∀ negative, e.weight ≠ .infinite negative) (path : Path) :
    decode path e.json.stored = .ok e := by
  have hweight := decodeFloat_stored h.number hfinite (path.enter (.field "weight"))
  cases e with
  | removeEdge r => exact decode_removeEdge r
  | addEdge governor dependent relation weight extra =>
    exact (decode_addEdge ..).trans (congrArg (Except.map _) hweight)
  | addDependent governor relation attributes name weight =>
    have hkeys : (Pairs.keys attributes).Nodup := h.keys
    exact (decode_addDependent governor relation hkeys name weight).trans (congrArg (Except.map _) hweight)
  | addNode attributes name => exact decode_addNode h.keys name
  | setRoots names => exact decode_setRoots names
  | delete _ | killNonRootedNodes | killAllIncomingEdges _ => rfl

/-- An edit with an infinite weight is refused at its weight. -/
theorem decode_json_infinite (h : e.WellMade) {negative : Bool} (hinfinite : e.weight = .infinite negative) (path : Path) :
    decode path e.json.stored = .error (.mismatch "float" "null" (path.enter (.field "weight"))) := by
  cases e with
  | addEdge governor dependent relation weight extra =>
    obtain rfl : weight = .infinite negative := hinfinite
    exact (decode_addEdge ..).trans (congrArg (Except.map _) (decodeFloat_infinite negative _))
  | addDependent governor relation attributes name weight =>
    obtain rfl : weight = .infinite negative := hinfinite
    have hkeys : (Pairs.keys attributes).Nodup := h.keys
    exact (decode_addDependent governor relation hkeys ..).trans (congrArg (Except.map _) (decodeFloat_infinite negative _))
  | _ => exact absurd hinfinite (by simp [Edit.weight, Binary64.one])

end Treebank.Edit

import Treebank.Proofs.Edit.Record
import Treebank.Proofs.Pattern.Outcome
import Treebank.Surgery.Script

/-!
# Scripts, there and back

Surgeries that were saved are loaded as they were, exactly if none of their edits has an infinite weight (`load_save_iff`). An infinite
weight is written as null, so that the whole script is refused at that place.
-/

namespace Treebank

namespace Surgery

/-- Whether a surgery was put together of a pattern that was read and of edits whose names are bound. -/
def Made (s : Surgery) : Prop :=
  ∃ options text pattern, Pattern.ofText options text = .ok pattern ∧ ofParts s.uid s.notes pattern s.edits = .ok s

/-- A surgery that was put together can be put together again from what a script holds of it. -/
theorem Made.surgery_ofSurgery {s : Surgery} (h : s.Made) : (Script.ofSurgery s).surgery = .ok s := by
  obtain ⟨options, text, pattern, hpattern, hparts⟩ := h
  obtain ⟨names, -, hp⟩ := Pattern.register_of_ofText hpattern
  obtain ⟨-, -, hs⟩ := bind_eq_ok_iff.1 hparts
  have hsame : s.pattern = pattern := (congrArg Surgery.pattern (Except.ok.inj hs)).symm
  have hsource : s.pattern.source = text := by rw [hsame, hp]
  have hoptions : s.pattern.options = options := by rw [hsame, hp]
  unfold Script.surgery Script.ofSurgery
  rw [hsource, hoptions, hpattern]
  show (ofParts s.uid s.notes pattern s.edits).mapError Script.Refusal.name = _
  rw [hparts]
  rfl

end Surgery

namespace Script

open Json

variable {s : Script} {path : Path}

/-- The object of a surgery is proper. -/
theorem proper_json (h : ∀ e ∈ s.edits, e.WellMade) : s.json.Proper := by
  have hedits : (Json.arr (s.edits.map Edit.json)).Proper := properItems_of_forall fun v hv => by
    obtain ⟨e, he, rfl⟩ := List.mem_map.1 hv
    exact Edit.proper_json (h e he)
  exact ⟨trivial, trivial, hedits, trivial, trivial, trivial, trivial⟩

/-- A surgery is decoded if its edits are. -/
theorem decode_eq (s : Script) (path : Path) :
    decode path s.json.stored =
      (decodeItems Edit.decode (path.enter (.field "edits")) 0 (s.edits.map (·.json.stored))).map fun edits =>
        { s with edits := edits } := by
  have hstored : storedItems (s.edits.map Edit.json) = s.edits.map (·.json.stored) := by
    rw [storedItems_eq_map, List.map_map]
    rfl
  have hread : decodeFields (readField path) {} path s.json.stored =
      (decodeItems Edit.decode (path.enter (.field "edits")) 0 (s.edits.map (·.json.stored))).map fun edits =>
        { uid := s.uid, pattern := some s.pattern, edits := edits, notes := s.notes, options := s.options } := by
    cases hedits : decodeItems Edit.decode (path.enter (.field "edits")) 0 (s.edits.map (·.json.stored)) <;>
      simp [json, decodeFields, storedFields, stored, hstored, readField, decodeString, decodeBool, decodeList, hedits, bind, Except.bind, pure,
        Except.pure, Except.map]
  unfold decode
  simp only [hread]
  cases decodeItems Edit.decode (path.enter (.field "edits")) 0 (s.edits.map (·.json.stored)) <;> rfl

/-- What is kept of a surgery is decoded, if no weight in it is infinite. -/
theorem decode_json (h : ∀ e ∈ s.edits, e.WellMade) (hfinite : ∀ e ∈ s.edits, ∀ negative, e.weight ≠ .infinite negative)
    (path : Path) : decode path s.json.stored = .ok s := by
  rw [decode_eq, decodeItems_map 0 fun e he path => Edit.decode_json (h e he) (hfinite e he) path]
  rfl

/-- Whether a fault is that of an infinite weight in a script. -/
def FaultsAtWeight (s : Script) (path : Path) (error : DecodeError) : Prop :=
  ∃ (j : Nat) (e : Edit) (negative : Bool), s.edits[j]? = some e ∧ e.weight = .infinite negative ∧
    error = .mismatch "float" "null" (((path.enter (.field "edits")).enter (.item j)).enter (.field "weight"))

/-- A surgery with an infinite weight is refused at such a weight. -/
theorem decode_json_infinite (h : ∀ e ∈ s.edits, e.WellMade) (hinfinite : ∃ e ∈ s.edits, ∃ negative, e.weight = .infinite negative)
    (path : Path) : ∃ error, s.FaultsAtWeight path error ∧ decode path s.json.stored = .error error := by
  have hgood : ∀ e ∈ s.edits, ¬(∃ negative, e.weight = .infinite negative) → ∀ path, Edit.decode path e.json.stored = .ok e :=
    fun e he hfinite path => Edit.decode_json (h e he) (not_exists.1 hfinite) path
  have hbad : ∀ e ∈ s.edits, (∃ negative, e.weight = .infinite negative) → ∀ path, ∃ error,
      ((∃ negative, e.weight = .infinite negative) ∧ error = .mismatch "float" "null" (path.enter (.field "weight"))) ∧
        Edit.decode path e.json.stored = .error error := by
    rintro e he ⟨negative, hweight⟩ path
    exact ⟨_, ⟨⟨negative, hweight⟩, rfl⟩, Edit.decode_json_infinite (h e he) hweight path⟩
  obtain ⟨j, e, error, hj, ⟨⟨negative, hweight⟩, rfl⟩, hfault⟩ := decodeItems_fails 0 _
    (fun e path error => (∃ negative, e.weight = .infinite negative) ∧
      error = .mismatch "float" "null" (path.enter (.field "weight"))) hgood hbad hinfinite
  rw [Nat.zero_add] at hfault
  refine ⟨_, ⟨j, e, negative, hj, hweight, rfl⟩, ?_⟩
  rw [decode_eq, hfault]
  rfl

/-- The scripts of a text that was saved are decoded one after the other. -/
theorem load_save_eq {ss : List Surgery} (hdata : ∀ s ∈ ss, ∀ e ∈ s.edits, e.WellMade) :
    load (save ss) = ((decodeItems decode { inText := true } 0 ((ss.map ofSurgery).map (·.json.stored))).mapError .form >>=
      fun scripts => scripts.mapM surgery) := by
  have hproper : (Json.arr (ss.map fun s => (ofSurgery s).json)).Proper := properItems_of_forall fun v hv => by
    obtain ⟨s, hs, rfl⟩ := List.mem_map.1 hv
    exact proper_json (hdata s hs)
  have hstored : (Json.arr (ss.map fun s => (ofSurgery s).json)).stored = .arr ((ss.map ofSurgery).map (·.json.stored)) := by
    rw [stored, storedItems_eq_map, List.map_map, List.map_map]
    rfl
  unfold load save
  rw [decodeText_text _ hproper, hstored]
  rfl

/-- Surgeries that were saved are loaded as they were, if no weight in them is infinite. -/
theorem load_save {ss : List Surgery} (hmade : ∀ s ∈ ss, s.Made) (hdata : ∀ s ∈ ss, ∀ e ∈ s.edits, e.WellMade)
    (hfinite : ∀ s ∈ ss, ∀ e ∈ s.edits, ∀ negative, e.weight ≠ .infinite negative) : load (save ss) = .ok ss := by
  have hdecoded : decodeItems decode { inText := true } 0 ((ss.map ofSurgery).map (·.json.stored)) = .ok (ss.map ofSurgery) := by
    refine decodeItems_map 0 fun script hscript path => ?_
    obtain ⟨s, hs, rfl⟩ := List.mem_map.1 hscript
    exact decode_json (hdata s hs) (hfinite s hs) path
  have hagain : (ss.map ofSurgery).mapM surgery = .ok ss := by
    rw [List.mapM_map]
    exact (mapM_eq_ok (g := id) fun s hs => (hmade s hs).surgery_ofSurgery).trans (by rw [List.map_id])
  rw [load_save_eq hdata, hdecoded]
  exact hagain

/-- Surgeries that were saved are refused at an infinite weight. -/
theorem load_save_fails {ss : List Surgery} (hdata : ∀ s ∈ ss, ∀ e ∈ s.edits, e.WellMade)
    (hinfinite : ∃ s ∈ ss, ∃ e ∈ s.edits, ∃ negative, e.weight = .infinite negative) :
    ∃ i s error, ss[i]? = some s ∧ (ofSurgery s).FaultsAtWeight ⟨[.item i], true⟩ error ∧
      load (save ss) = .error (.form error) := by
  have hgood : ∀ script ∈ ss.map ofSurgery, ¬(∃ e ∈ script.edits, ∃ negative, e.weight = .infinite negative) →
      ∀ path, decode path script.json.stored = .ok script := by
    intro script hscript hnone path
    obtain ⟨s, hs, rfl⟩ := List.mem_map.1 hscript
    exact decode_json (hdata s hs) (fun e he negative hweight => hnone ⟨e, he, negative, hweight⟩) path
  have hbad : ∀ script ∈ ss.map ofSurgery, (∃ e ∈ script.edits, ∃ negative, e.weight = .infinite negative) →
      ∀ path, ∃ error, script.FaultsAtWeight path error ∧ decode path script.json.stored = .error error := by
    intro script hscript hsome path
    obtain ⟨s, hs, rfl⟩ := List.mem_map.1 hscript
    exact decode_json_infinite (hdata s hs) hsome path
  have hsome : ∃ script ∈ ss.map ofSurgery, ∃ e ∈ script.edits, ∃ negative, e.weight = .infinite negative := by
    obtain ⟨s, hs, hweight⟩ := hinfinite
    exact ⟨ofSurgery s, List.mem_map_of_mem hs, hweight⟩
  obtain ⟨i, script, error, hi, hfault, hdecoded⟩ : ∃ (i : Nat) (script : Script) (error : DecodeError),
      (ss.map ofSurgery)[i]? = some script ∧ script.FaultsAtWeight (Path.enter { inText := true } (.item (0 + i))) error ∧
        decodeItems decode { inText := true } 0 ((ss.map ofSurgery).map (·.json.stored)) = .error error :=
    decodeItems_fails 0 _ _ hgood hbad hsome
  rw [List.getElem?_map] at hi
  obtain ⟨s, hs, rfl⟩ := Option.map_eq_some_iff.1 hi
  rw [Nat.zero_add] at hfault
  refine ⟨i, s, error, hs, hfault, ?_⟩
  rw [load_save_eq hdata, hdecoded]
  rfl

/-- Surgeries that were saved are loaded as they were exactly if no weight in them is infinite; otherwise they are refused at such a
weight. -/
theorem load_save_iff (ss : List Surgery) (hmade : ∀ s ∈ ss, s.Made) (hdata : ∀ s ∈ ss, ∀ e ∈ s.edits, e.WellMade) :
    (load (save ss) = .ok ss ↔ ∀ s ∈ ss, ∀ e ∈ s.edits, ∀ negative, e.weight ≠ .infinite negative) ∧
      ((∃ s ∈ ss, ∃ e ∈ s.edits, ∃ negative, e.weight = .infinite negative) →
        ∃ i s error, ss[i]? = some s ∧ (ofSurgery s).FaultsAtWeight ⟨[.item i], true⟩ error ∧
          load (save ss) = .error (.form error)) := by
  refine ⟨⟨fun hload s hs e he negative hweight => ?_, load_save hmade hdata⟩, load_save_fails hdata⟩
  obtain ⟨i, s', error, -, -, herror⟩ := load_save_fails hdata ⟨s, hs, e, he, negative, hweight⟩
  rw [hload] at herror
  cases herror

/-- A surgery where a token governs another one, with edits of the two. -/
theorem exists_made (edits : List Edit) (h : Edit.checkNames ["a", "b"] [] edits = .ok ()) :
    ∃ s : Surgery, s.edits = edits ∧ s.Made := by
  obtain ⟨p, hp, hnames⟩ := exists_ok_of_map_toOption (x := Pattern.ofText {} "\x7b\x7d=a > \x7b\x7d=b")
    (g := fun p => (p.nodeNames, p.edgeNames)) (b := (["a", "b"], [])) (by decide +kernel)
  obtain ⟨hnodes, hedges⟩ := Prod.mk.inj hnames
  refine ⟨{ pattern := p, edits := edits }, rfl, {}, _, p, hp, ?_⟩
  unfold Surgery.ofParts
  rw [hnodes, hedges, h]
  rfl

/-- So it is with a token put in, that hangs on half a weight, and an edge taken out. -/
theorem load_save_iff_half :
    let edits : List Edit :=
      [.addDependent "a" "x" [("word", "\"\u0007\"")] (some "c") (.finite false (2 ^ 52) (-53)),
       .removeEdge { governor := some "a", dependent := some "b", targeted := by decide }]
    ∃ s : Surgery, s.edits = edits ∧ s.Made ∧ (∀ e ∈ s.edits, e.WellMade) ∧
      (∀ e ∈ s.edits, ∀ negative, e.weight ≠ .infinite negative) ∧ load (save [s]) = .ok [s] := by
  intro edits
  obtain ⟨s, hs, hmade⟩ := exists_made edits (by decide)
  have hdata : ∀ e ∈ s.edits, e.WellMade := by
    rw [hs]
    decide
  have hfinite : ∀ e ∈ s.edits, ∀ negative, e.weight ≠ .infinite negative := by
    rw [hs]
    decide
  refine ⟨s, hs, hmade, hdata, hfinite, (load_save_iff [s] ?_ ?_).1.2 ?_⟩
  · exact List.forall_mem_singleton.2 hmade
  · exact List.forall_mem_singleton.2 hdata
  · exact List.forall_mem_singleton.2 hfinite

/-- An edge with an infinite weight is written and then refused. -/
theorem load_save_infinite :
    ∃ s : Surgery, s.edits = [.addEdge "a" "b" "x" (.infinite false) false] ∧ s.Made ∧ (∀ e ∈ s.edits, e.WellMade) ∧
      load (save [s]) = .error (.form (.mismatch "float" "null" ⟨[.field "weight", .item 0, .field "edits", .item 0], true⟩)) := by
  obtain ⟨s, hs, hmade⟩ := exists_made [.addEdge "a" "b" "x" (.infinite false) false] (by decide)
  have hdata : ∀ e ∈ s.edits, e.WellMade := by
    rw [hs]
    decide
  have hall : ∀ s' ∈ [s], ∀ e ∈ s'.edits, e.WellMade := List.forall_mem_singleton.2 hdata
  have hinfinite : ∃ e ∈ s.edits, ∃ negative, e.weight = .infinite negative := by
    rw [hs]
    exact ⟨_, List.mem_cons_self .., false, rfl⟩
  obtain ⟨i, s', error, hi, ⟨j, e, negative, hj, -, rfl⟩, hload⟩ := load_save_fails hall ⟨s, List.mem_cons_self .., hinfinite⟩
  obtain ⟨rfl, rfl⟩ : i = 0 ∧ s = s' := by simpa [List.getElem?_singleton] using hi
  obtain rfl : j = 0 := by
    have hedits : (ofSurgery s).edits = [.addEdge "a" "b" "x" (.infinite false) false] := hs
    rw [hedits] at hj
    exact (by simpa [List.getElem?_singleton] using hj : j = 0 ∧ _).1
  exact ⟨s, hs, hmade, hdata, hload⟩

end Script

end Treebank

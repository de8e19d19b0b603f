import Treebank.Proofs.Except
import Treebank.Proofs.Graph.Anchored

/-!
# Checked reading of the compact form

Reading attaches each token to a token that was made before, which it takes to be there. A checked reader fails where it is not. It never
does: it reads what the reader reads, and fails for the text alone (`checkedOfCompact_eq`). What is read is an anchored graph with a root,
and a fault stands within the text (`ofCompact_anchored_or_fault`).
-/

open Relation

namespace Treebank.Graph

/-- Why a checked reader fails. -/
inductive ReadFailure where
  | format (error : CompactError)
  | graph (error : GraphError)
  deriving DecidableEq, Repr

/-- Makes the token that a label means and attaches it; `opens` tells whether a bracket opens before it. -/
def Draft.checkedPlace (d : Draft) (place : Attachment) (label : List Char) (opens : Bool) : Except GraphError Draft := do
  let (g, index) := d.graph.vertex label
  return ⟨← g.checkedAttach index place, if opens then index :: d.opened else d.opened⟩

/-- Reads a word and attaches its token; what it is attached to has to be there. -/
def checkedTakeVertex (size : Nat) (d : Draft) (place : Attachment) (cs : List Char) : Except ReadFailure (Draft × List Char) :=
  match Text.trimStart cs with
  | '[' :: inner => do
    let (label, rest) ← (takeName size inner).mapError .format
    return (← (d.checkedPlace place label true).mapError .graph, rest)
  | text => do
    let (label, rest) ← (takeName size text).mapError .format
    return (← (d.checkedPlace place label false).mapError .graph, rest)

variable {size : Nat} {d d' : Draft} {place : Attachment} {cs rest : List Char}

/-- The draft with the token that a label means; `opens` tells whether a bracket opens before it. -/
def Draft.placed (d : Draft) (place : Attachment) (label : List Char) (opens : Bool) : Draft :=
  ⟨(d.graph.vertex label).1.attach (d.graph.vertex label).2 place,
    if opens then (d.graph.vertex label).2 :: d.opened else d.opened⟩

/-- A bracket may open before a word that is read; checked or not, its name is read and its token is placed. -/
theorem exists_takeVertex_eq (size : Nat) (d : Draft) (place : Attachment) (cs : List Char) :
    ∃ (opens : Bool) (text : List Char), text.length ≤ cs.length ∧
      takeVertex size d place cs = (takeName size text).map (fun p => (d.placed place p.1 opens, p.2)) ∧
      checkedTakeVertex size d place cs = (do
        let (label, rest) ← (takeName size text).mapError .format
        return (← (d.checkedPlace place label opens).mapError .graph, rest)) := by
  have hle := length_trimStart_le cs
  have hplaced : ∀ (opens : Bool) (text : List Char), (do
      let (label, rest) ← takeName size text
      let (g, index) := d.graph.vertex label
      return ((⟨g.attach index place, if opens then index :: d.opened else d.opened⟩ : Draft), rest)) =
        (takeName size text).map (fun p => (d.placed place p.1 opens, p.2)) := by
    intro opens text
    cases takeName size text <;> rfl
  by_cases hopen : ∃ inner, Text.trimStart cs = '[' :: inner
  · obtain ⟨inner, htext⟩ := hopen
    rw [htext] at hle
    refine ⟨true, inner, Nat.le_of_succ_le hle, ?_, ?_⟩
    · rw [takeVertex, htext]
      exact hplaced true inner
    · simp only [checkedTakeVertex, htext]
  · refine ⟨false, Text.trimStart cs, hle, ?_, ?_⟩
    · unfold takeVertex
      split
      · exact absurd ⟨_, ‹_›⟩ hopen
      · exact hplaced false _
    · unfold checkedTakeVertex
      split
      · exact absurd ⟨_, ‹_›⟩ hopen
      · rfl

/-- A word takes up some of the text. -/
theorem length_lt_of_checkedTakeVertex (h : checkedTakeVertex size d place cs = .ok (d', rest)) : rest.length < cs.length := by
  obtain ⟨opens, text, hle, -, hchecked⟩ := exists_takeVertex_eq size d place cs
  rw [hchecked] at h
  obtain ⟨⟨label, after⟩, hname, h⟩ := bind_eq_ok_iff.1 h
  obtain ⟨d, -, h⟩ := bind_eq_ok_iff.1 h
  cases h
  exact Nat.lt_of_lt_of_le (length_lt_of_takeName (mapError_eq_ok_iff.1 hname)) hle

/-- Reads what follows, as `takeItems` does; what a token is attached to has to be there. -/
def checkedTakeItems (size : Nat) (d : Draft) (cs : List Char) : Except ReadFailure Graph :=
  have := length_trimStart_le cs
  match d.opened, _ht : Text.trimStart cs with
  | [], [] => .ok d.graph
  | [], c :: text =>
    match h : checkedTakeVertex size d none (c :: text) with
    | .error e => .error e
    | .ok (d, rest) =>
      have := length_lt_of_checkedTakeVertex h
      checkedTakeItems size d rest
  | _ :: _, [] => .error (.format ⟨.unclosed, size⟩)
  | governor :: outer, c :: text =>
    if c = ']' then checkedTakeItems size { d with opened := outer } text
    else
      match hn : takeName size (c :: text) with
      | .error e => .error (.format e)
      | .ok (relation, '>' :: after) =>
        match h : checkedTakeVertex size d (some (governor, String.ofList relation)) after with
        | .error e => .error e
        | .ok (d, rest) =>
          have := length_lt_of_takeName hn
          have := length_lt_of_checkedTakeVertex h
          checkedTakeItems size d rest
      | .ok (relation, after) => .error (.format ⟨.arrowMissing (String.ofList relation), size - after.length⟩)
termination_by cs.length
decreasing_by all_goals grind

/-- Reading one thing and going on, checked. -/
theorem checkedTakeItems_eq (size : Nat) (d : Draft) (cs : List Char) :
    checkedTakeItems size d cs =
      match d.opened, Text.trimStart cs with
      | [], [] => .ok d.graph
      | [], c :: text => checkedTakeVertex size d none (c :: text) >>= fun p => checkedTakeItems size p.1 p.2
      | _ :: _, [] => .error (.format ⟨.unclosed, size⟩)
      | governor :: outer, c :: text =>
        if c = ']' then checkedTakeItems size { d with opened := outer } text
        else (takeName size (c :: text)).mapError .format >>= fun p =>
          match p.2 with
          | '>' :: after =>
            checkedTakeVertex size d (some (governor, String.ofList p.1)) after >>= fun p => checkedTakeItems size p.1 p.2
          | after => .error (.format ⟨.arrowMissing (String.ofList p.1), size - after.length⟩) := by
  rw [checkedTakeItems]
  simp only
  split
  · rename_i hopened htext
    rw [hopened, htext]
  · rename_i hopened htext
    rw [hopened, htext]
    simp only
    split <;> rename_i hread <;> rw [hread] <;> rfl
  · rename_i hopened htext
    rw [hopened, htext]
  · rename_i hopened htext
    rw [hopened, htext]
    simp only
    split
    · rfl
    · split <;> rename_i hname <;> rw [hname]
      · rfl
      · simp only [bind, Except.bind, Except.mapError]
        split <;> rename_i hread <;> rw [hread]
      · simp only [bind, Except.bind, Except.mapError]

/-- A draft on the way: its graph is anchored, and the open brackets belong to tokens of it. -/
structure Draft.Anchored (d : Draft) : Prop where
  graph : d.graph.Anchored
  opened : ∀ i ∈ d.opened, i ∈ d.graph.indices

/-- A token is placed in a draft, which stays anchored. -/
theorem Draft.Anchored.placed (h : d.Anchored) (hplace : ∀ p ∈ place, p.1 ∈ d.graph.indices) (label : List Char) (opens : Bool) :
    d.checkedPlace place label opens = .ok (d.placed place label opens) ∧ (d.placed place label opens).Anchored ∧
      (d.placed place label opens).graph.indices ≠ [] := by
  obtain ⟨hok, hanchored, hindices⟩ := h.graph.attach_vertex label hplace
  refine ⟨bind_eq_ok_iff.2 ⟨_, hok, rfl⟩, ⟨hanchored, fun i hi => (hindices i).2 ?_⟩, List.ne_nil_of_mem ((hindices _).2 (.inl rfl))⟩
  cases opens with
  | true => exact (List.mem_cons.1 hi).imp id (h.opened i)
  | false => exact .inr (h.opened i hi)

/-- A word that is read is placed in the draft. -/
theorem Draft.Anchored.takeVertex (h : d.Anchored) (hplace : ∀ p ∈ place, p.1 ∈ d.graph.indices) (size : Nat) (cs : List Char) :
    checkedTakeVertex size d place cs = (takeVertex size d place cs).mapError .format ∧
      ∀ d' rest, takeVertex size d place cs = .ok (d', rest) → d'.Anchored ∧ d'.graph.indices ≠ [] := by
  obtain ⟨opens, text, -, hread, hchecked⟩ := exists_takeVertex_eq size d place cs
  rw [hread, hchecked]
  cases takeName size text with
  | error e =>
    constructor
    · rfl
    · intro d' rest hok
      cases hok
  | ok p =>
    obtain ⟨hok, hanchored, hne⟩ := h.placed hplace p.1 opens
    refine ⟨bind_eq_ok_iff.2 ⟨p, rfl, bind_eq_ok_iff.2 ⟨_, by rw [hok]; rfl, rfl⟩⟩, fun d' rest hok' => ?_⟩
    cases hok'
    exact ⟨hanchored, hne⟩

/-! ## Reading -/

/-- A fault of a name stands within the text. -/
theorem position_takeName {e : CompactError} (h : takeName size cs = .error e) : e.position ≤ size := by
  unfold takeName at h
  simp only at h
  split at h
  · cases h
    exact Nat.sub_le size cs.length
  · cases h

/-- What reading does with a draft on the way, checked or not: it is done, it finds a fault, it closes the innermost bracket, or it takes
a word, which hangs from an open bracket if from anything, and goes on. -/
inductive Turn (size : Nat) (d : Draft) (cs : List Char) : Prop where
  | done (htext : Text.trimStart cs = []) (hread : takeItems size d cs = .ok d.graph)
      (hchecked : checkedTakeItems size d cs = .ok d.graph)
  | fault (e : CompactError) (hposition : e.position ≤ size) (hread : takeItems size d cs = .error e)
      (hchecked : checkedTakeItems size d cs = .error (.format e))
  | close (governor : Int) (outer : List Int) (text : List Char) (hopened : d.opened = governor :: outer)
      (hlength : text.length < cs.length) (hread : takeItems size d cs = takeItems size { d with opened := outer } text)
      (hchecked : checkedTakeItems size d cs = checkedTakeItems size { d with opened := outer } text)
  | word (place : Attachment) (text : List Char) (hplace : ∀ p ∈ place, p.1 ∈ d.opened) (hlength : text.length ≤ cs.length)
      (hread : takeItems size d cs = takeVertex size d place text >>= fun p => takeItems size p.1 p.2)
      (hchecked : checkedTakeItems size d cs = checkedTakeVertex size d place text >>= fun p => checkedTakeItems size p.1 p.2)

/-- Reading does one of these. -/
theorem turn (size : Nat) (d : Draft) (cs : List Char) : Turn size d cs := by
  have hread := takeItems_eq size d cs
  have hchecked := checkedTakeItems_eq size d cs
  have hle := length_trimStart_le cs
  cases hopened : d.opened with
  | nil =>
    cases htext : Text.trimStart cs with
    | nil =>
      rw [hopened, htext] at hread hchecked
      exact .done htext hread hchecked
    | cons c text =>
      rw [hopened, htext] at hread hchecked
      refine .word none (c :: text) ?_ (htext ▸ hle) hread hchecked
      intro p hp
      cases hp
  | cons governor outer =>
    cases htext : Text.trimStart cs with
    | nil =>
      rw [hopened, htext] at hread hchecked
      exact .fault ⟨.unclosed, size⟩ (Nat.le_refl size) hread hchecked
    | cons c text =>
      rw [hopened, htext] at hread hchecked
      rw [htext, List.length_cons] at hle
      by_cases hc : c = ']'
      · simp only [hc, if_true] at hread hchecked
        exact .close governor outer text hopened hle hread hchecked
      · simp only [hc, if_false] at hread hchecked
        cases hname : takeName size (c :: text) with
        | error e =>
          rw [hname] at hread hchecked
          exact .fault e (position_takeName hname) hread hchecked
        | ok p =>
          obtain ⟨relation, rest⟩ := p
          rw [hname] at hread hchecked
          simp only [mapError_ok, bind_ok] at hread hchecked
          by_cases harrow : ∃ after, rest = '>' :: after
          · obtain ⟨after, rfl⟩ := harrow
            have hlt := length_lt_of_takeName hname
            simp only [List.length_cons] at hlt
            refine .word (some (governor, String.ofList relation)) after ?_ (by omega) hread hchecked
            rintro p ⟨rfl⟩
            exact hopened ▸ List.mem_cons_self ..
          · refine .fault ⟨.arrowMissing (String.ofList relation), size - rest.length⟩ (Nat.sub_le ..) ?_ ?_
            · rw [hread]
              split
              · exact absurd ⟨_, rfl⟩ harrow
              · rfl
            · rw [hchecked]
              split
              · exact absurd ⟨_, rfl⟩ harrow
              · rfl

/-- Reading a draft on the way attaches what it reads, and comes to an anchored graph; this one has a token, unless there was none, and
nothing is left to read. -/
theorem Draft.Anchored.takeItems (h : d.Anchored) (size : Nat) (cs : List Char) :
    checkedTakeItems size d cs = (takeItems size d cs).mapError .format ∧
      ∀ g, takeItems size d cs = .ok g → g.Anchored ∧ (g.indices = [] → d.graph.indices = [] ∧ Text.trimStart cs = []) := by
  induction hn : cs.length using Nat.strongRecOn generalizing d cs with
  | ind n ih =>
    subst hn
    cases turn size d cs with
    | done htext hread hchecked =>
      rw [hread, hchecked]
      refine ⟨rfl, fun g hg => ?_⟩
      cases hg
      exact ⟨h.graph, fun hnone => ⟨hnone, htext⟩⟩
    | fault e _ hread hchecked =>
      rw [hread, hchecked]
      refine ⟨rfl, fun g hg => ?_⟩
      cases hg
    | close governor outer text hopened hlength hread hchecked =>
      have hgovernor : governor ∈ d.graph.indices := h.opened governor (hopened ▸ List.mem_cons_self ..)
      have houter : ∀ i ∈ outer, i ∈ d.graph.indices := fun i hi => h.opened i (hopened ▸ List.mem_cons_of_mem governor hi)
      have hclosed : Draft.Anchored { d with opened := outer } := ⟨h.graph, houter⟩
      obtain ⟨hrest, hgraph⟩ := ih _ hlength hclosed text rfl
      rw [hread, hchecked]
      exact ⟨hrest, fun g hg => ⟨(hgraph g hg).1, fun hnone => absurd ((hgraph g hg).2 hnone).1 (List.ne_nil_of_mem hgovernor)⟩⟩
    | word place text hplace hlength hread hchecked =>
      obtain ⟨hword, hkeeps⟩ := h.takeVertex (fun p hp => h.opened p.1 (hplace p hp)) size text
      rw [hread, hchecked, hword]
      cases htake : Graph.takeVertex size d place text with
      | error e =>
        refine ⟨rfl, fun g hg => ?_⟩
        cases hg
      | ok p =>
        obtain ⟨hd, hne⟩ := hkeeps p.1 p.2 htake
        obtain ⟨hrest, hgraph⟩ := ih _ (Nat.lt_of_lt_of_le (length_lt_of_takeVertex htake) hlength) hd p.2 rfl
        exact ⟨hrest, fun g hg => ⟨(hgraph g hg).1, fun hnone => absurd ((hgraph g hg).2 hnone).1 hne⟩⟩

end Treebank.Graph

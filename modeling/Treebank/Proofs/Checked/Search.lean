import Treebank.Match.Search
import Treebank.Proofs.Checked.Candidate
import Treebank.Proofs.Pattern.Named

/-!
# Checked searches

A search takes it that a token that it comes to is there, and that it has followed an edge where it has a name for one. A checked search
fails where that is not so. In a sound graph a search of a pattern that names only edges that are followed comes to the same, checked or
not (`checkedAll_eq`).
-/

namespace Treebank

/-- What is missing where a search takes it to be there. -/
inductive Lapse where
  | graph (error : GraphError)
  /-- There is a name for an edge, but no edge was followed. -/
  | edgeless (name : String)
  deriving DecidableEq, Repr

namespace Pattern

open Scope

/-! ## Checked constraints -/

/-- Binds the name of an edge, if it has one; there has to be an edge then. -/
def Bindings.checkedBindEdge (b : Bindings) (name : Option String) (edge : Option Edge) : Except Lapse (Option Bindings) :=
  match name, edge with
  | some name, none => .error (.edgeless name)
  | name, edge => .ok (b.bindEdge name edge)

/-- Fills a place with a token, which has to be there. -/
def Place.checkedFill (p : Place) (s : Scope) (index : Int) (b : Bindings) : Except Lapse (Option Bindings) := do
  let t ← (s.graph.token index).mapError .graph
  return if p.description.accepts s.ignoreCase (s.graph.isRoot index) t then b.bindNode p.name index else none

/-- Binds the name of the edge to a candidate, and fills a place with the candidate. -/
def Place.checkedReach (p : Place) (s : Scope) (b : Bindings) (edgeName : Option String) (c : Candidate) :
    Except Lapse (List Bindings) := do
  match ← b.checkedBindEdge edgeName c.2 with
  | none => return []
  | some b => return (← p.checkedFill s c.1 b).toList

mutual
/-- The ways to satisfy a constraint on a token; all that is looked at has to be there. -/
def Constraint.checkedSolve (s : Scope) (index : Int) (b : Bindings) : Constraint → Except Lapse (List Bindings)
  | .relation mode operator target none => do
    let candidates ← (s.checkedCandidates operator index).mapError .graph
    let solutions ← candidates.mapM (target.checkedReach s b operator.edgeName)
    return mode.select b solutions.flatten
  | .relation mode operator target (some inner) => do
    let candidates ← (s.checkedCandidates operator index).mapError .graph
    let solutions ← candidates.mapM fun c => do
      let reached ← target.checkedReach s b operator.edgeName c
      return (← reached.mapM fun b => inner.checkedSolve s c.1 b).flatten
    return mode.select b solutions.flatten
  | .all mode children => do return mode.select b (← checkedSolveAll s index b children)
  | .any mode children => do return mode.select b (← checkedSolveAny s index b children)

/-- The ways to satisfy all of some constraints; all that is looked at has to be there. -/
def checkedSolveAll (s : Scope) (index : Int) (b : Bindings) : List Constraint → Except Lapse (List Bindings)
  | [] => .ok [b]
  | c :: cs => do
    let solutions ← c.checkedSolve s index b
    return (← solutions.mapM fun b => checkedSolveAll s index b cs).flatten

/-- The ways to satisfy any of some constraints; all that is looked at has to be there. -/
def checkedSolveAny (s : Scope) (index : Int) (b : Bindings) : List Constraint → Except Lapse (List Bindings)
  | [] => .ok []
  | c :: cs => do
    let solutions ← c.checkedSolve s index b
    return solutions ++ (← checkedSolveAny s index b cs)
end

/-- The ways to satisfy what may be on a token. -/
def checkedSolveOption (s : Scope) (index : Int) (b : Bindings) : Option Constraint → Except Lapse (List Bindings)
  | none => .ok [b]
  | some c => c.checkedSolve s index b

/-- The ways to fill a part, the token at its top being given. -/
def Part.checkedSolveAt (p : Part) (s : Scope) (b : Bindings) (index : Int) : Except Lapse (List Bindings) := do
  let filled ← p.place.checkedFill s index b
  return (← filled.toList.mapM fun b => checkedSolveOption s index b p.constraint).flatten

/-- The ways to fill a part, each with the token at its top. -/
def Part.checkedSolve (p : Part) (s : Scope) (b : Bindings) : Except Lapse (List (Int × Bindings)) := do
  let solutions ← s.graph.indices.mapM fun index => do return (← p.checkedSolveAt s b index).map (index, ·)
  return solutions.flatten

/-- The ways to fill parts one after the other. -/
def checkedSolveParts (s : Scope) (b : Bindings) : List Part → Except Lapse (List Bindings)
  | [] => .ok [b]
  | p :: ps => do
    let solutions ← p.checkedSolve s b
    return (← solutions.mapM fun (_, b) => checkedSolveParts s b ps).flatten

end Pattern

/-- All matches; all that is looked at has to be there. -/
def Matcher.checkedAll (m : Matcher) : Except Lapse (List Match) :=
  match m.pattern.parts with
  | [] => .ok []
  | p :: ps => do
    let solutions ← p.checkedSolve m.scope { nodes := m.initial }
    let found ← solutions.mapM fun (root, b) => do
      return (← Pattern.checkedSolveParts m.scope b ps).map fun b => ({ root := root, bindings := b } : Match)
    return found.flatten

namespace Pattern

open Scope

/-! ## Nothing is missing -/

variable {s : Scope} {index : Int} {b : Bindings}

theorem checkedFill_eq (hi : s.graph.hasToken index) (p : Place) (b : Bindings) :
    p.checkedFill s index b = .ok (p.fill s index b) := by
  obtain ⟨t, ht, hok⟩ := token_eq_ok hi
  rw [Place.checkedFill, Place.fill, hok, ht]
  rfl

/-- Followed edges can be bound, and lead to tokens. -/
theorem checkedReach_eq (hs : s.graph.Sound) (hi : s.graph.hasToken index) {o : Operator} (ho : o.namesFollowed) {c : Candidate}
    (hc : c ∈ s.candidates o index) (p : Place) (b : Bindings) :
    p.checkedReach s b o.edgeName c = .ok ((b.bindEdge o.edgeName c.2).bind (p.fill s c.1)).toList := by
  have hbind : b.checkedBindEdge o.edgeName c.2 = .ok (b.bindEdge o.edgeName c.2) := by
    cases hname : o.edgeName with
    | none => rfl
    | some name =>
      have hfollows : o.kind.followsEdges := by simpa [Operator.namesFollowed, hname] using ho
      obtain ⟨e, he⟩ := Option.isSome_iff_exists.1 (isSome_of_mem_candidates hfollows hc)
      rw [he]
      rfl
  rw [Place.checkedReach, hbind]
  cases hb : b.bindEdge o.edgeName c.2 with
  | none => rfl
  | some b' =>
    have hfill := checkedFill_eq (hasToken_of_mem_candidates hs hi hc) p b'
    exact bind_eq_ok_iff.2 ⟨_, rfl, bind_eq_ok_iff.2 ⟨_, hfill, rfl⟩⟩

mutual
/-- At a token of a sound graph a constraint is solved alike, checked or not. -/
theorem checkedSolve_eq (hs : s.graph.Sound) {c : Constraint} (hc : c.namesFollowed) {index : Int} (hi : s.graph.hasToken index)
    (b : Bindings) : c.checkedSolve s index b = .ok (c.solve s index b) := by
  match c with
  | .relation mode operator target none =>
    have ho : operator.namesFollowed := by simpa [Constraint.namesFollowed] using hc
    have hcandidates := checkedCandidates_eq hs hi operator
    have hreach := mapM_eq_ok (l := s.candidates operator index) fun c hm => checkedReach_eq hs hi ho hm target b
    rw [Constraint.checkedSolve, Constraint.solve, hcandidates]
    exact bind_eq_ok_iff.2 ⟨_, rfl, bind_eq_ok_iff.2 ⟨_, hreach, rfl⟩⟩
  | .relation mode operator target (some inner) =>
    obtain ⟨ho, hinner⟩ : operator.namesFollowed ∧ inner.namesFollowed := by simpa [Constraint.namesFollowed] using hc
    have hcandidates := checkedCandidates_eq hs hi operator
    have hsolutions := mapM_eq_ok (l := s.candidates operator index) (f := fun c => do
        let reached ← target.checkedReach s b operator.edgeName c
        return (← reached.mapM fun b => inner.checkedSolve s c.1 b).flatten) fun c hm =>
      bind_eq_ok_iff.2 ⟨_, checkedReach_eq hs hi ho hm target b,
        flatten_mapM_eq_ok fun b _ => checkedSolve_eq hs hinner (hasToken_of_mem_candidates hs hi hm) b⟩
    rw [Constraint.checkedSolve, Constraint.solve, hcandidates]
    exact bind_eq_ok_iff.2 ⟨_, rfl, bind_eq_ok_iff.2 ⟨_, hsolutions, rfl⟩⟩
  | .all mode children =>
    rw [Constraint.checkedSolve, Constraint.solve]
    exact bind_eq_ok_iff.2 ⟨_, checkedSolveAll_eq hs hc hi b, rfl⟩
  | .any mode children =>
    rw [Constraint.checkedSolve, Constraint.solve]
    exact bind_eq_ok_iff.2 ⟨_, checkedSolveAny_eq hs hc hi b, rfl⟩

/-- At a token of a sound graph constraints are solved alike, checked or not. -/
theorem checkedSolveAll_eq (hs : s.graph.Sound) {cs : List Constraint} (hcs : nameFollowed cs) {index : Int}
    (hi : s.graph.hasToken index) (b : Bindings) : checkedSolveAll s index b cs = .ok (solveAll s index b cs) := by
  match cs with
  | [] => rw [checkedSolveAll, solveAll]
  | c :: cs =>
    obtain ⟨hc, hcs⟩ : c.namesFollowed ∧ nameFollowed cs := by simpa [nameFollowed] using hcs
    rw [checkedSolveAll, solveAll]
    exact bind_eq_ok_iff.2 ⟨_, checkedSolve_eq hs hc hi b, flatten_mapM_eq_ok fun b _ => checkedSolveAll_eq hs hcs hi b⟩

/-- At a token of a sound graph alternatives are solved alike, checked or not. -/
theorem checkedSolveAny_eq (hs : s.graph.Sound) {cs : List Constraint} (hcs : nameFollowed cs) {index : Int}
    (hi : s.graph.hasToken index) (b : Bindings) : checkedSolveAny s index b cs = .ok (solveAny s index b cs) := by
  match cs with
  | [] => rw [checkedSolveAny, solveAny]
  | c :: cs =>
    obtain ⟨hc, hcs⟩ : c.namesFollowed ∧ nameFollowed cs := by simpa [nameFollowed] using hcs
    rw [checkedSolveAny, solveAny]
    exact bind_eq_ok_iff.2 ⟨_, checkedSolve_eq hs hc hi b, bind_eq_ok_iff.2 ⟨_, checkedSolveAny_eq hs hcs hi b, rfl⟩⟩
end

/-- In a sound graph a part is solved alike, checked or not. -/
theorem checkedSolve_part_eq (hs : s.graph.Sound) {p : Part} (hp : p.namesFollowed) (b : Bindings) :
    p.checkedSolve s b = .ok (p.solve s b) := by
  have hat : ∀ index, s.graph.hasToken index → p.checkedSolveAt s b index = .ok (p.solveAt s b index) := by
    intro index hi
    refine bind_eq_ok_iff.2 ⟨_, checkedFill_eq hi p.place b, flatten_mapM_eq_ok fun b _ => ?_⟩
    unfold Part.namesFollowed at hp
    cases hc : p.constraint with
    | none => rfl
    | some c =>
      rw [hc] at hp
      exact checkedSolve_eq hs hp hi b
  exact flatten_mapM_eq_ok fun index hm => bind_eq_ok_iff.2 ⟨_, hat index (Graph.hasToken_iff.2 hm), rfl⟩

/-- In a sound graph parts are solved alike, checked or not. -/
theorem checkedSolveParts_eq (hs : s.graph.Sound) {ps : List Part} (hps : ∀ p ∈ ps, p.namesFollowed) (b : Bindings) :
    checkedSolveParts s b ps = .ok (solveParts s b ps) := by
  induction ps generalizing b with
  | nil => rfl
  | cons p ps ih =>
    exact bind_eq_ok_iff.2 ⟨_, checkedSolve_part_eq hs (hps p (List.mem_cons_self ..)) b,
      flatten_mapM_eq_ok fun q _ => ih (fun p hp => hps p (List.mem_cons_of_mem _ hp)) q.2⟩

end Pattern

/-- In a sound graph a pattern that names only edges that are followed has the same matches, checked or not. -/
theorem Matcher.checkedAll_eq {m : Matcher} (hs : m.scope.graph.Sound) (hp : m.pattern.namesFollowed) :
    m.checkedAll = .ok m.all := by
  unfold Pattern.namesFollowed at hp
  unfold Matcher.checkedAll Matcher.all
  cases hparts : m.pattern.parts with
  | nil => rfl
  | cons p ps =>
    rw [hparts] at hp
    have hp := List.all_eq_true.1 hp
    exact bind_eq_ok_iff.2 ⟨_, Pattern.checkedSolve_part_eq hs (hp p (List.mem_cons_self ..)) _,
      flatten_mapM_eq_ok fun q _ => bind_eq_ok_iff.2
        ⟨_, Pattern.checkedSolveParts_eq hs (fun p hm => hp p (List.mem_cons_of_mem _ hm)) q.2, rfl⟩⟩

end Treebank

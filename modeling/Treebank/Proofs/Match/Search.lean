import Treebank.Proofs.Match.Assignment
import Mathlib.Data.List.Basic

/-!
# Searches by assignments

The solvers of constraints, and with them a matcher, make the choices of the search that extends assignments place by place.
-/

namespace Treebank.Pattern

open Scope

/-! ## Extending assignments -/

/-- Searching some places and then others. -/
theorem search_append (s : Scope) (os os' : List Occurrence) (a : Assignment) (b : Bindings) :
    search s (os ++ os') a b = (search s os a b).flatMap fun (a, b) => search s os' a b := by
  induction os generalizing a b with
  | nil => simp [search]
  | cons o os ih => simp only [List.cons_append, search, ih, List.flatMap_assoc]

/-- A search extends the assignment from which it starts, by a choice for each place. -/
theorem eq_append_of_mem_search {s : Scope} {os : List Occurrence} {a : Assignment} {b : Bindings}
    {p : Assignment × Bindings} (hp : p ∈ search s os a b) : ∃ cs, cs.length = os.length ∧ p.1 = a ++ cs := by
  induction os generalizing a b with
  | nil =>
    rw [search, List.mem_singleton] at hp
    exact ⟨[], rfl, by simp [hp]⟩
  | cons o os ih =>
    simp only [search, List.mem_flatMap] at hp
    obtain ⟨c, -, b', -, hp⟩ := hp
    obtain ⟨cs, hl, he⟩ := ih hp
    exact ⟨c :: cs, by simp [hl], by simp [he]⟩

/-- What has been chosen stays chosen. -/
theorem getElem?_of_mem_search {s : Scope} {os : List Occurrence} {a : Assignment} {b : Bindings} {p : Assignment × Bindings}
    (hp : p ∈ search s os a b) {k : Nat} {c : Candidate} (hk : a[k]? = some c) : p.1[k]? = some c := by
  obtain ⟨cs, -, he⟩ := eq_append_of_mem_search hp
  rw [he, List.getElem?_append_left (List.getElem?_eq_some_iff.1 hk).1, hk]

/-- The length of what a search comes to. -/
theorem length_of_mem_search {s : Scope} {os : List Occurrence} {a : Assignment} {b : Bindings} {p : Assignment × Bindings}
    (hp : p ∈ search s os a b) : p.1.length = a.length + os.length := by
  obtain ⟨cs, hl, he⟩ := eq_append_of_mem_search hp
  rw [he, List.length_append, hl]

/-- The bindings of a search that begins with one place: each choice, then the search of what follows. -/
theorem map_search_cons (s : Scope) (o : Occurrence) (os : List Occurrence) (a : Assignment) (b : Bindings) :
    (search s (o :: os) a b).map (·.2) =
      (o.choices s a).flatMap fun c => (o.bind s b c).toList.flatMap fun b => (search s os (a ++ [c]) b).map (·.2) := by
  simp only [search, List.map_flatMap]

/-! ## Constraints -/

/-- The choices for a place that hangs from another one. -/
theorem choices_link {s : Scope} {a : Assignment} {owner : Nat} {index : Int} {edge : Option Edge}
    (h : a[owner]? = some (index, edge)) (target : Place) (operator : Operator) :
    (Occurrence.mk target (some (owner, operator))).choices s a = s.candidates operator index := by
  unfold Occurrence.choices
  simp only [h]

mutual
/-- Solving a positive constraint is searching its places. -/
theorem solve_eq_search (s : Scope) {c : Constraint} (hc : c.isPositive) {a : Assignment} {owner : Nat} {index : Int}
    {edge : Option Edge} (h : a[owner]? = some (index, edge)) (b : Bindings) :
    c.solve s index b = (search s (c.occurrences owner a.length) a b).map (·.2) := by
  match c with
  | .relation mode operator target none =>
    obtain rfl : mode = .plain := by simpa [Constraint.isPositive] using hc
    rw [Constraint.solve, Constraint.occurrences, map_search_cons, choices_link h]
    simp only [Mode.select, search, List.map_cons, List.map_nil, List.flatMap_singleton']
    rfl
  | .relation mode operator target (some inner) =>
    obtain ⟨rfl, hi⟩ : mode = .plain ∧ inner.isPositive := by simpa [Constraint.isPositive] using hc
    rw [Constraint.solve, Constraint.occurrences, map_search_cons, choices_link h]
    refine List.flatMap_congr fun c _ => List.flatMap_congr fun b' _ => ?_
    have howner : (a ++ [c])[a.length]? = some (c.1, c.2) := by simp
    have := solve_eq_search s hi howner b'
    rwa [List.length_append, List.length_singleton] at this
  | .all mode children =>
    obtain ⟨rfl, hi⟩ : mode = .plain ∧ arePositive children := by simpa [Constraint.isPositive] using hc
    rw [Constraint.solve, Constraint.occurrences]
    exact solveAll_eq_search s hi h b
  | .any mode children => simp [Constraint.isPositive] at hc

/-- Solving positive constraints one after the other is searching their places. -/
theorem solveAll_eq_search (s : Scope) {cs : List Constraint} (hcs : arePositive cs) {a : Assignment} {owner : Nat}
    {index : Int} {edge : Option Edge} (h : a[owner]? = some (index, edge)) (b : Bindings) :
    solveAll s index b cs = (search s (occurrencesOf owner a.length cs) a b).map (·.2) := by
  match cs with
  | [] => simp [solveAll, occurrencesOf, search]
  | c :: cs =>
    obtain ⟨hc, hcs⟩ : c.isPositive ∧ arePositive cs := by simpa [arePositive] using hcs
    rw [solveAll, occurrencesOf, search_append, solve_eq_search s hc h b, List.flatMap_map, List.map_flatMap]
    refine List.flatMap_congr fun p hp => ?_
    have := solveAll_eq_search s hcs (getElem?_of_mem_search hp h) p.2
    rwa [length_of_mem_search hp] at this
end

/-! ## Parts -/

/-- The places of a part below its top. -/
def Part.inner (next : Nat) (p : Part) : List Occurrence := (p.constraint.map (·.occurrences next (next + 1))).getD []

/-- Filling a positive part with a token at its top is searching its other places. -/
theorem solveAt_eq_search (s : Scope) {p : Part} (hp : p.isPositive) (a : Assignment) (b : Bindings) (index : Int) :
    p.solveAt s b index =
      (p.place.fill s index b).toList.flatMap fun b =>
        (search s (p.inner a.length) (a ++ [(index, none)]) b).map (·.2) := by
  refine List.flatMap_congr fun b' _ => ?_
  unfold Part.isPositive at hp
  unfold Part.inner
  cases hc : p.constraint with
  | none => rfl
  | some c =>
    rw [hc] at hp
    have howner : (a ++ [(index, none)])[a.length]? = some ((index, none) : Candidate) := by simp
    have := solve_eq_search s (c := c) hp howner b'
    rwa [List.length_append, List.length_singleton] at this

/-- A search that begins with a part chooses the token at its top first. -/
theorem search_part (s : Scope) (p : Part) (os : List Occurrence) (a : Assignment) (b : Bindings) :
    search s (p.occurrences a.length ++ os) a b =
      s.graph.indices.flatMap fun index => (p.place.fill s index b).toList.flatMap fun b =>
        (search s (p.inner a.length) (a ++ [(index, none)]) b).flatMap fun (a, b) => search s os a b := by
  simp only [Part.occurrences, List.cons_append, search, search_append, Occurrence.choices, List.flatMap_map]
  rfl

/-- Going on from the ways to fill a positive part is going on from the search of its places. -/
theorem flatMap_solveAt (s : Scope) {β : Type} {p : Part} (hp : p.isPositive) (a : Assignment) (b : Bindings) (index : Int)
    (f : Bindings → List β) :
    (p.solveAt s b index).flatMap f =
      (p.place.fill s index b).toList.flatMap fun b =>
        (search s (p.inner a.length) (a ++ [(index, none)]) b).flatMap fun (_, b) => f b := by
  rw [solveAt_eq_search s hp a b index, List.flatMap_assoc]
  simp only [List.flatMap_map]

/-- Filling positive parts one after the other is searching their places. -/
theorem solveParts_eq_search (s : Scope) {ps : List Part} (hps : ps.all (·.isPositive)) (a : Assignment) (b : Bindings) :
    solveParts s b ps = (search s (partsOccurrences a.length ps) a b).map (·.2) := by
  induction ps generalizing a b with
  | nil => simp [solveParts, partsOccurrences, search]
  | cons p ps ih =>
    obtain ⟨hp, hps⟩ : p.isPositive ∧ ps.all (·.isPositive) := by simpa using hps
    rw [solveParts, partsOccurrences, search_part, Part.solve, List.flatMap_assoc, List.map_flatMap]
    refine List.flatMap_congr fun index _ => ?_
    rw [List.flatMap_map, flatMap_solveAt s hp a, List.map_flatMap]
    refine List.flatMap_congr fun b' _ => ?_
    rw [List.map_flatMap]
    refine List.flatMap_congr fun q hq => ?_
    have := ih hps q.1 q.2
    rwa [length_of_mem_search hq, List.length_append, List.length_singleton, Nat.add_assoc, Nat.add_comm 1] at this

end Pattern

/-- The matches of a positive pattern are those of the assignments that the search of its places comes to. -/
theorem Matcher.all_eq_search {m : Matcher} (hm : m.pattern.isPositive) (hparts : m.pattern.parts ≠ []) :
    m.all = (Pattern.search m.scope m.pattern.occurrences [] { nodes := m.initial }).map fun (a, b) =>
      { root := (a.head?.map (·.1)).getD 0, bindings := b } := by
  unfold Matcher.all Pattern.occurrences
  unfold Pattern.isPositive at hm
  cases hps : m.pattern.parts with
  | nil => exact absurd hps hparts
  | cons p ps =>
    rw [hps] at hm
    obtain ⟨hp, hps⟩ : p.isPositive ∧ ps.all (·.isPositive) := by simpa using hm
    have hsearch := Pattern.search_part m.scope p (Pattern.partsOccurrences (0 + (p.occurrences 0).length) ps) []
      { nodes := m.initial }
    simp only [List.length_nil, List.nil_append] at hsearch
    simp only [Pattern.partsOccurrences]
    rw [hsearch, Pattern.Part.solve, List.flatMap_assoc, List.map_flatMap]
    refine List.flatMap_congr fun index _ => ?_
    rw [List.flatMap_map, Pattern.flatMap_solveAt m.scope hp [], List.map_flatMap]
    refine List.flatMap_congr fun b _ => ?_
    rw [List.map_flatMap]
    refine List.flatMap_congr ?_
    rintro ⟨a, b'⟩ hq
    have hrest := Pattern.solveParts_eq_search m.scope hps a b'
    have hlength : a.length = 0 + (p.occurrences 0).length := by
      rw [Pattern.length_of_mem_search hq, Nat.zero_add, Nat.add_comm]
      rfl
    rw [hlength] at hrest
    simp only [hrest, List.map_map]
    refine List.map_congr_left fun r hr => ?_
    have hhead : r.1[0]? = some (index, none) := Pattern.getElem?_of_mem_search hr (Pattern.getElem?_of_mem_search hq rfl)
    rw [← List.head?_eq_getElem?] at hhead
    simp only [Function.comp, hhead, Option.map_some, Option.getD_some]

end Treebank

import Treebank.Proofs.Match.Bracket

/-!
# A further conjunct

A constraint that is added behind all others on the token at the top of the last part goes on from where a search of the pattern ends.
What it adds there depends on the token and the bindings alone, so its three modes split the ends of the search between them: plain,
it goes on from those to which it adds something; negated, it keeps the others as they are; optional, it does both
(`modes_partition`).
-/

namespace Treebank

namespace Pattern

/-! ## Bindings only grow -/

/-- Whether bindings hold everything that others hold, in the same order, and possibly more behind it. -/
def Bindings.Extends (b' b : Bindings) : Prop := b.nodes <+: b'.nodes ∧ b.edges <+: b'.edges

theorem Bindings.Extends.refl (b : Bindings) : b.Extends b := ⟨List.prefix_refl _, List.prefix_refl _⟩

theorem Bindings.Extends.trans {b b' b'' : Bindings} (h : b''.Extends b') (h' : b'.Extends b) : b''.Extends b :=
  ⟨h'.1.trans h.1, h'.2.trans h.2⟩

variable {s : Scope} {index : Int} {b b' : Bindings}

theorem extends_bindNode {name : Option String} (h : b.bindNode name index = some b') : b'.Extends b := by
  unfold Bindings.bindNode at h
  split at h
  · cases h
    exact .refl b
  · split at h
    · cases h
      exact ⟨List.prefix_append _ _, List.prefix_refl _⟩
    · split at h <;> cases h
      exact .refl b

theorem extends_bindEdge {name : Option String} {edge : Option Edge} (h : b.bindEdge name edge = some b') : b'.Extends b := by
  unfold Bindings.bindEdge at h
  split at h
  · split at h
    · cases h
      exact ⟨List.prefix_refl _, List.prefix_append _ _⟩
    · split at h <;> cases h
      exact .refl b
  · cases h
    exact .refl b

theorem extends_fill {p : Place} (h : p.fill s index b = some b') : b'.Extends b := by
  unfold Place.fill at h
  split at h
  · cases h
  · split at h
    · exact extends_bindNode h
    · cases h

/-- A place is reached over an edge: what its names are bound to comes behind. -/
theorem extends_bind {name : Option String} {edge : Option Edge} {p : Place}
    (h : b' ∈ ((b.bindEdge name edge).bind (p.fill s index)).toList) : b'.Extends b := by
  obtain ⟨b₁, he, hf⟩ := Option.bind_eq_some_iff.1 (Option.mem_toList.1 h)
  exact (extends_fill hf).trans (extends_bindEdge he)

/-! ## What a search keeps -/

section Keeps

variable {P : Bindings → Prop}

/-- A mode brings in no bindings but those it was given. -/
theorem keeps_select {mode : Mode} {solutions : List Bindings} (hb : P b) (hs : ∀ b' ∈ solutions, P b')
    (h : b' ∈ mode.select b solutions) : P b' := by
  cases mode with
  | plain => exact hs b' h
  | negated =>
    simp only [Mode.select] at h
    split at h
    · rw [List.mem_singleton.1 h]
      exact hb
    · cases h
  | optional =>
    simp only [Mode.select] at h
    split at h
    · rw [List.mem_singleton.1 h]
      exact hb
    · exact hs b' h

/-- What goes on to hold of bindings when a place is reached. -/
def KeptByReach (s : Scope) (P : Bindings → Prop) : Prop :=
  ∀ {index : Int} {operator : Operator} {target : Place} {c : Scope.Candidate} {b b' : Bindings},
    c ∈ s.candidates operator index → P b → b' ∈ ((b.bindEdge operator.edgeName c.2).bind (target.fill s c.1)).toList → P b'

mutual
/-- What holds of bindings, and goes on to hold when a place is reached, holds of the solutions of a constraint. -/
theorem keeps_solve (hreach : KeptByReach s P) {c : Constraint} {index : Int} {b b' : Bindings} (hb : P b)
    (h : b' ∈ c.solve s index b) : P b' := by
  match c with
  | .relation mode operator target none =>
    rw [Constraint.solve] at h
    refine keeps_select hb (fun b' h => ?_) h
    obtain ⟨c, hc, h⟩ := List.mem_flatMap.1 h
    exact hreach hc hb h
  | .relation mode operator target (some inner) =>
    rw [Constraint.solve] at h
    refine keeps_select hb (fun b' h => ?_) h
    obtain ⟨c, hc, h⟩ := List.mem_flatMap.1 h
    obtain ⟨b₁, h₁, h⟩ := List.mem_flatMap.1 h
    exact keeps_solve hreach (hreach hc hb h₁) h
  | .all mode children =>
    rw [Constraint.solve] at h
    exact keeps_select hb (fun b' h => keeps_solveAll hreach hb h) h
  | .any mode children =>
    rw [Constraint.solve] at h
    exact keeps_select hb (fun b' h => keeps_solveAny hreach hb h) h

/-- So it is for constraints one after the other. -/
theorem keeps_solveAll (hreach : KeptByReach s P) {cs : List Constraint} {index : Int} {b b' : Bindings} (hb : P b)
    (h : b' ∈ solveAll s index b cs) : P b' := by
  match cs with
  | [] =>
    rw [solveAll, List.mem_singleton] at h
    rw [h]
    exact hb
  | c :: cs =>
    rw [solveAll] at h
    obtain ⟨b₁, h₁, h⟩ := List.mem_flatMap.1 h
    exact keeps_solveAll hreach (keeps_solve hreach hb h₁) h

/-- So it is for alternatives. -/
theorem keeps_solveAny (hreach : KeptByReach s P) {cs : List Constraint} {index : Int} {b b' : Bindings} (hb : P b)
    (h : b' ∈ solveAny s index b cs) : P b' := by
  match cs with
  | [] => simp [solveAny] at h
  | c :: cs =>
    rw [solveAny] at h
    rcases List.mem_append.1 h with h | h
    · exact keeps_solve hreach hb h
    · exact keeps_solveAny hreach hb h
end

variable (hreach : KeptByReach s P)
  (hfill : ∀ {index : Int} {place : Place} {b b' : Bindings}, P b → place.fill s index b = some b' → P b')
include hreach hfill

/-- So it is for a part. -/
theorem keeps_part {p : Part} {q : Int × Bindings} (hb : P b) (h : q ∈ p.solve s b) : P q.2 := by
  obtain ⟨index, -, hq⟩ := List.mem_flatMap.1 h
  obtain ⟨b', hb', rfl⟩ := List.mem_map.1 hq
  obtain ⟨b₁, h₁, h⟩ := List.mem_flatMap.1 hb'
  rw [solveOption_eq_solveAll] at h
  exact keeps_solveAll hreach (hfill hb (Option.mem_toList.1 h₁)) h

/-- So it is for parts one after the other. -/
theorem keeps_solveParts {ps : List Part} (hb : P b) (h : b' ∈ solveParts s b ps) : P b' := by
  induction ps generalizing b with
  | nil =>
    rw [solveParts, List.mem_singleton] at h
    rw [h]
    exact hb
  | cons p ps ih =>
    rw [solveParts] at h
    obtain ⟨q, hq, h⟩ := List.mem_flatMap.1 h
    exact ih (keeps_part hreach hfill hb hq) h

end Keeps

/-- A constraint leaves what is bound. -/
theorem extends_solve {c : Constraint} (h : b' ∈ c.solve s index b) : b'.Extends b :=
  keeps_solve (P := (·.Extends b)) (fun _ hb h => (extends_bind h).trans hb) (.refl b) h

/-- So do constraints one after the other. -/
theorem extends_solveAll {cs : List Constraint} (h : b' ∈ solveAll s index b cs) : b'.Extends b :=
  keeps_solveAll (P := (·.Extends b)) (fun _ hb h => (extends_bind h).trans hb) (.refl b) h

/-- So do parts one after the other. -/
theorem extends_solveParts {ps : List Part} (h : b' ∈ solveParts s b ps) : b'.Extends b :=
  keeps_solveParts (P := (·.Extends b)) (fun _ hb h => (extends_bind h).trans hb) (fun hb h => (extends_fill h).trans hb) (.refl b) h

/-! ## Ends of a search -/

/-- Where a search of some parts has come to: the tokens at the top of the first and of the last of them, and the bindings. -/
structure State where
  root : Int
  top : Int
  bindings : Bindings
  deriving DecidableEq, Repr

/-- The match of a state at the end of a search. -/
def State.found (st : State) : Match := { root := st.root, bindings := st.bindings }

/-- A state with other bindings. -/
def State.withBindings (st : State) (b : Bindings) : State := { st with bindings := b }

/-- Where a search comes to from a state, after some more parts. -/
def statesAfter (s : Scope) (st : State) : List Part → List State
  | [] => [st]
  | p :: ps => (p.solve s st.bindings).flatMap fun (index, b) => statesAfter s { st with top := index, bindings := b } ps

/-- The states at the end of a search of some parts. -/
def states (s : Scope) (initial : List (String × Int)) : List Part → List State
  | [] => []
  | p :: ps => (p.solve s { nodes := initial }).flatMap fun (index, b) => statesAfter s ⟨index, index, b⟩ ps

/-- Solving parts passes through the states of a search, and forgets their tops. -/
theorem map_found_statesAfter (s : Scope) (st : State) (ps : List Part) :
    (statesAfter s st ps).map State.found = (solveParts s st.bindings ps).map fun b => { root := st.root, bindings := b } := by
  induction ps generalizing st with
  | nil => rfl
  | cons p ps ih =>
    simp only [statesAfter, solveParts, List.map_flatMap]
    exact List.flatMap_congr fun q _ => ih { st with top := q.1, bindings := q.2 }

/-! ## A further conjunct -/

/-- A constraint, if there is one, and a further one behind it. -/
def conjoin (c : Constraint) : Option Constraint → Constraint
  | none => c
  | some (.all .plain children) => .all .plain (children ++ [c])
  | some k => .all .plain [k, c]

/-- A part with a further constraint on the token at its top. -/
def Part.conjoin (c : Constraint) (p : Part) : Part := { p with constraint := some (Pattern.conjoin c p.constraint) }

/-- Parts of which the last one has a further constraint on the token at its top. -/
def conjoinLast (c : Constraint) : List Part → List Part
  | [] => []
  | [p] => [p.conjoin c]
  | p :: ps => p :: conjoinLast c ps

/-- The further constraint is solved after the ones before it. -/
theorem solve_conjoin (s : Scope) (index : Int) (b : Bindings) (c : Constraint) (k : Option Constraint) :
    (conjoin c k).solve s index b = (solveOption s index b k).flatMap fun b => c.solve s index b := by
  unfold conjoin
  split
  · simp [solveOption]
  · simp [solveOption, Constraint.solve, Mode.select, solveAll_append, solveAll]
  · simp [solveOption, Constraint.solve, Mode.select, solveAll]

theorem solve_part_conjoin (s : Scope) (b : Bindings) (c : Constraint) (p : Part) :
    (p.conjoin c).solve s b = (p.solve s b).flatMap fun (index, b) => (c.solve s index b).map (index, ·) := by
  unfold Part.solve
  rw [List.flatMap_assoc]
  refine List.flatMap_congr fun index _ => ?_
  have hat : (p.conjoin c).solveAt s b index = (p.solveAt s b index).flatMap fun b => c.solve s index b := by
    unfold Part.solveAt
    rw [List.flatMap_assoc]
    exact List.flatMap_congr fun b _ => solve_conjoin s index b c p.constraint
  rw [hat, List.map_flatMap, List.flatMap_map]

/-- The states to which a constraint leads on from a state, at the token at its top. -/
def State.next (s : Scope) (c : Constraint) (st : State) : List State :=
  (c.solve s st.top st.bindings).map st.withBindings

/-- A conjunct on the last of some more parts goes on from where the search after these parts ends. -/
theorem statesAfter_conjoinLast (s : Scope) (c : Constraint) (st : State) {ps : List Part} (hps : ps ≠ []) :
    statesAfter s st (conjoinLast c ps) = (statesAfter s st ps).flatMap (State.next s c) := by
  induction ps generalizing st with
  | nil => exact absurd rfl hps
  | cons p ps ih =>
    cases ps with
    | nil =>
      simp only [conjoinLast, statesAfter, solve_part_conjoin, List.flatMap_assoc, List.flatMap_map, List.flatMap_singleton]
      refine List.flatMap_congr fun q _ => ?_
      rw [State.next, List.map_eq_flatMap]
      rfl
    | cons p' ps =>
      rw [conjoinLast, statesAfter, statesAfter, List.flatMap_assoc]
      · exact List.flatMap_congr fun q _ => ih _ (List.cons_ne_nil _ _)
      · exact List.cons_ne_nil _ _

/-- A conjunct on the last part goes on from where the search ends. -/
theorem states_conjoinLast (s : Scope) (initial : List (String × Int)) (c : Constraint) (ps : List Part) :
    states s initial (conjoinLast c ps) = (states s initial ps).flatMap (State.next s c) := by
  match ps with
  | [] => rfl
  | [p] =>
    simp only [conjoinLast, states, statesAfter, solve_part_conjoin, List.flatMap_assoc, List.flatMap_map, List.flatMap_singleton]
    refine List.flatMap_congr fun q _ => ?_
    rw [State.next, List.map_eq_flatMap]
    rfl
  | p :: p' :: ps =>
    rw [conjoinLast, states, states, List.flatMap_assoc]
    · exact List.flatMap_congr fun q _ => statesAfter_conjoinLast s c _ (List.cons_ne_nil _ _)
    · exact List.cons_ne_nil _ _

/-! ## Modes -/

/-- A constraint with the given mode in place of its own. -/
def Constraint.withMode (mode : Mode) : Constraint → Constraint
  | .relation _ operator target inner => .relation mode operator target inner
  | .all _ children => .all mode children
  | .any _ children => .any mode children

/-- A mode selects from what the constraint without a mark comes to. -/
theorem solve_withMode (s : Scope) (index : Int) (b : Bindings) (mode : Mode) (c : Constraint) :
    (c.withMode mode).solve s index b = mode.select b ((c.withMode .plain).solve s index b) := by
  cases c with
  | relation _ operator target inner => cases inner <;> simp only [Constraint.withMode, Constraint.solve, Mode.select]
  | all _ children => simp only [Constraint.withMode, Constraint.solve, Mode.select]
  | any _ children => simp only [Constraint.withMode, Constraint.solve, Mode.select]

end Pattern

open Pattern

/-- The matches of a pattern are those of the states at the end of its search. -/
theorem Matcher.all_eq_states (m : Matcher) : m.all = (states m.scope m.initial m.pattern.parts).map State.found := by
  unfold Matcher.all
  cases m.pattern.parts with
  | nil => rfl
  | cons p ps =>
    simp only [states, List.map_flatMap]
    exact List.flatMap_congr fun q _ => (map_found_statesAfter m.scope ⟨q.1, q.1, q.2⟩ ps).symm

/-- A further conjunct on the top of the last part, plain, negated and optional. What it extends bindings to depends on the token there
and on the bindings alone, whatever the pattern. Plain, the conjunct goes on from every state to the extensions; negated, it keeps the
states that have none, and changes nothing in them; optional, it goes on to the extensions where there are any, and keeps the state
where there are none. Matches are found in the order of the states. -/
theorem Pattern.modes_partition (s : Scope) (c : Constraint) :
    ∃ ext : Int → Bindings → List Bindings,
      (∀ top b, ∀ b' ∈ ext top b, b'.Extends b) ∧
      ∀ (initial : List (String × Int)) (ps : List Part),
        states s initial (conjoinLast (c.withMode .plain) ps) =
            (states s initial ps).flatMap (fun st => (ext st.top st.bindings).map st.withBindings) ∧
          states s initial (conjoinLast (c.withMode .negated) ps) =
            (states s initial ps).filter (fun st => (ext st.top st.bindings).isEmpty) ∧
          states s initial (conjoinLast (c.withMode .optional) ps) =
            (states s initial ps).flatMap (fun st =>
              if (ext st.top st.bindings).isEmpty then [st] else (ext st.top st.bindings).map st.withBindings) ∧
          ∀ (p : Pattern) (sink : Sink),
            ((Matcher.mk p s initial).findAll.run sink).1 = (states s initial p.parts).map State.found := by
  refine ⟨(c.withMode .plain).solve s, fun top b b' hb => extends_solve hb, fun initial ps =>
    ⟨states_conjoinLast s initial _ ps, ?_, ?_, fun p sink => Matcher.all_eq_states ⟨p, s, initial⟩⟩⟩
  · rw [states_conjoinLast, ← flatMap_ite_eq_filter]
    refine List.flatMap_congr fun st _ => ?_
    rw [State.next, solve_withMode, Mode.select]
    split <;> rfl
  · rw [states_conjoinLast]
    refine List.flatMap_congr fun st _ => ?_
    rw [State.next, solve_withMode, Mode.select]
    split <;> rfl

end Treebank

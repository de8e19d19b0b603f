import Treebank.Match.Search
import Treebank.Proofs.Pattern.Bracket

/-!
# Matches of brackets

Constraints behind a node expression match as they do in a bracket, and a negated bracket keeps the matches of the node expression to
which the constraints add none: but if the constraints are nothing but a group, its own mark gets lost in the bracket.
-/

namespace Treebank

namespace Pattern

variable {s : Scope} {index : Int} {b : Bindings} {k : Constraint} {items added : List Constraint}

/-! ## Solutions of lists of constraints -/

/-- Solving constraints and then others. -/
theorem solveAll_append (s : Scope) (index : Int) (b : Bindings) (cs cs' : List Constraint) :
    solveAll s index b (cs ++ cs') = (solveAll s index b cs).flatMap fun b => solveAll s index b cs' := by
  induction cs generalizing b with
  | nil => simp [solveAll]
  | cons c cs ih => simp only [List.cons_append, solveAll, ih, List.flatMap_assoc]

/-- What may be on a token is solved as a list of it alone. -/
theorem solveOption_eq_solveAll (s : Scope) (index : Int) (b : Bindings) (k : Option Constraint) :
    solveOption s index b k = solveAll s index b k.toList := by
  cases k <;> simp [solveOption, solveAll]

/-- Constraints as one are solved one after the other. -/
theorem solveOption_conjunction? (s : Scope) (index : Int) (b : Bindings) (items : List Constraint) :
    solveOption s index b (conjunction? items) = solveAll s index b items.reverse := by
  unfold conjunction?
  split
  · simp [solveOption, solveAll]
  · simp [solveOption, solveAll]
  · simp [solveOption, Constraint.solve, Mode.select]

/-! ## Groups -/

/-- A constraint as a group of one branch: its mode and its members. A relation, or alternatives, are a group of themselves. -/
def Constraint.asGroup : Constraint → Mode × List Constraint
  | .all mode children => (mode, children)
  | c => (.plain, [c])

theorem Constraint.solve_asGroup (s : Scope) (index : Int) (b : Bindings) (k : Constraint) :
    k.solve s index b = k.asGroup.1.select b (solveAll s index b k.asGroup.2) := by
  cases k with
  | all mode children => rfl
  | relation mode operator target inner => simp [asGroup, Mode.select, solveAll]
  | any mode children => simp [asGroup, Mode.select, solveAll]

/-- A bracket has the members of the group within it, but not its mode. -/
theorem bracket_singleton (mode : Mode) (k : Constraint) : bracket mode [k] = .all mode k.asGroup.2 := by
  cases k <;> rfl

end Pattern

open Pattern

/-! ## Matches that are added -/

/-- The matches that a constraint on the token at the top adds to a match. -/
def Match.extend (s : Scope) (k : Constraint) (m : Match) : List Match :=
  (k.solve s m.root m.bindings).map fun b => { m with bindings := b }

/-- The matches that the members of a group add to a match. -/
def Match.extendByMembers (s : Scope) (k : Constraint) (m : Match) : List Match :=
  (solveAll s m.root m.bindings k.asGroup.2).map fun b => { m with bindings := b }

namespace Pattern

/-- What a mode makes of the matches that are added to a match. -/
def Mode.added (mode : Mode) (m : Match) (found : List Match) : List Match :=
  match mode with
  | .plain => found
  | .negated => if found.isEmpty then [m] else []
  | .optional => if found.isEmpty then [m] else found

/-- Whether a mode makes nothing else of the matches that are added than no mark does. -/
def Mode.Idle (mode : Mode) (found : List Match) : Prop :=
  match mode with
  | .plain => True
  | .negated => False
  | .optional => found.isEmpty = false

/-- Whether the mark of a group makes no difference at a match: an exclamation mark always does, a question mark does where the
members of the group add nothing. -/
def Constraint.MarkIdle (s : Scope) (k : Constraint) (m : Match) : Prop := k.asGroup.1.Idle (m.extendByMembers s k)

/-- The matches that a constraint adds are what its mode makes of those that its members add. -/
theorem extend_eq (s : Scope) (k : Constraint) (m : Match) : m.extend s k = k.asGroup.1.added m (m.extendByMembers s k) := by
  unfold Match.extend Match.extendByMembers Mode.added
  rw [Constraint.solve_asGroup]
  cases k.asGroup.1 with
  | plain => rfl
  | negated =>
    simp only [Mode.select, List.isEmpty_map]
    split <;> rfl
  | optional =>
    simp only [Mode.select, List.isEmpty_map]
    split <;> rfl

/-- A bracket adds what its own mode makes of the matches that the members of the group within it add. -/
theorem extend_bracket (s : Scope) (mode : Mode) (k : Constraint) (m : Match) :
    m.extend s (bracket mode [k]) = mode.added m (m.extendByMembers s k) := by
  rw [extend_eq, bracket_singleton]
  rfl

/-- Constraints that are a group with a mark, as one, are nothing but that group. -/
theorem eq_singleton_of_mark (hk : conjunction? added = some k) (hmode : k.asGroup.1 ≠ .plain) : added = [k] := by
  unfold conjunction? at hk
  split at hk
  · cases hk
  · cases hk
    rfl
  · cases hk
    exact absurd rfl hmode

theorem mode_of_asGroup {k : Constraint} {mode : Mode} (hmode : k.asGroup.1 = mode) (hmark : mode ≠ .plain) : k.mode = mode := by
  cases k with
  | all mode' children => exact hmode
  | relation mode' operator target inner => exact absurd hmode.symm hmark
  | any mode' children => exact absurd hmode.symm hmark

/-! ## Matches of node expressions -/

variable {pn p : Pattern} {place : Place}

/-- The matches of a node expression with further constraints. -/
theorem all_behind (hk : conjunction? added = some k) (hn : pn.parts = [⟨place, conjunction? items⟩])
    (hp : p.parts = [⟨place, conjunction? (added ++ items)⟩]) (s : Scope) (initial : List (String × Int)) :
    Matcher.all ⟨p, s, initial⟩ = (Matcher.all ⟨pn, s, initial⟩).flatMap (Match.extend s k) := by
  have hsolve : ∀ index b, solveAll s index b added.reverse = k.solve s index b := by
    intro index b
    rw [← solveOption_conjunction?, hk]
    rfl
  unfold Matcher.all
  rw [hn, hp]
  simp only [Part.solve, Part.solveAt, solveParts, solveOption_conjunction?, List.reverse_append, solveAll_append, hsolve,
    List.flatMap_assoc, Match.extend, List.flatMap_singleton, List.map_eq_flatMap]

/-- The matches of a node expression with a bracket. -/
theorem all_bracket {mode : Mode} (hn : pn.parts = [⟨place, conjunction? items⟩])
    (hp : p.parts = [⟨place, conjunction? (bracket mode [k] :: items)⟩]) (s : Scope) (initial : List (String × Int)) :
    Matcher.all ⟨p, s, initial⟩ =
      (Matcher.all ⟨pn, s, initial⟩).flatMap fun m => mode.added m (m.extendByMembers s k) := by
  rw [all_behind (rfl : conjunction? [bracket mode [k]] = _) hn hp]
  exact List.flatMap_congr fun m _ => extend_bracket s mode k m

/-! ## Lists of matches -/

section Lists

variable {α : Type}

/-- Keeping each member or nothing is filtering. -/
theorem flatMap_ite_eq_filter (p : α → Bool) (l : List α) : (l.flatMap fun a => if p a then [a] else []) = l.filter p := by
  induction l with
  | nil => rfl
  | cons a l ih =>
    rw [List.flatMap_cons, ih, List.filter_cons]
    split <;> rfl

/-- What is kept by a condition is what is kept by its negation only if there is nothing. -/
theorem filter_eq_filter_not_iff (p : α → Bool) (l : List α) : l.filter p = l.filter (fun a => !p a) ↔ l = [] := by
  constructor
  · intro h
    refine List.eq_nil_iff_forall_not_mem.2 fun a ha => ?_
    by_cases hp : p a = true
    · have hmem := List.mem_filter.2 ⟨ha, hp⟩
      rw [h] at hmem
      simpa [hp] using (List.mem_filter.1 hmem).2
    · have hmem : a ∈ l.filter fun a => !p a := List.mem_filter.2 ⟨ha, by simpa using hp⟩
      rw [← h] at hmem
      exact hp (List.mem_filter.1 hmem).2
  · rintro rfl
    rfl

/-- A member in the place of nothing makes a list longer. -/
theorem length_flatMap_le_ite (f : α → List α) (l : List α) :
    (l.flatMap f).length ≤ (l.flatMap fun a => if (f a).isEmpty then [a] else f a).length := by
  induction l with
  | nil => exact Nat.le_refl _
  | cons a l ih =>
    simp only [List.flatMap_cons, List.length_append]
    refine Nat.add_le_add ?_ ih
    split
    · rename_i h
      rw [List.isEmpty_iff.1 h]
      exact Nat.zero_le _
    · exact Nat.le_refl _

/-- A member in the place of nothing makes no difference exactly if there is something in every place. -/
theorem flatMap_eq_flatMap_ite_iff (f : α → List α) (l : List α) :
    l.flatMap f = (l.flatMap fun a => if (f a).isEmpty then [a] else f a) ↔ ∀ a ∈ l, (f a).isEmpty = false := by
  induction l with
  | nil => simp
  | cons a l ih =>
    simp only [List.flatMap_cons, List.forall_mem_cons]
    cases h : (f a).isEmpty with
    | true =>
      have hle := length_flatMap_le_ite f l
      simp only [List.isEmpty_iff.1 h, if_true, List.nil_append, Bool.true_eq_false, false_and, iff_false]
      intro e
      have := congrArg List.length e
      simp only [List.singleton_append, List.length_cons] at this
      omega
    | false => simp only [Bool.false_eq_true, if_false, List.append_cancel_left_eq, ih, true_and]

end Lists

/-- When two lists of matches are the same, and two others if `P` holds: those that some matches add, and those that a mode makes of
them; the matches to which nothing is added, and those to which the mode adds nothing. -/
theorem mode_idle_iff {P : Prop} {mode : Mode} (hP : mode = .negated → P) (f : Match → List Match) (l : List Match) :
    (l.flatMap f = (l.flatMap fun m => mode.added m (f m)) ∧
        (P → (l.filter fun m => (f m).isEmpty) = l.filter fun m => (mode.added m (f m)).isEmpty)) ↔
      ∀ m ∈ l, mode.Idle (f m) := by
  cases mode with
  | plain => simp only [Mode.added, Mode.Idle, implies_true, and_self]
  | negated =>
    have hempty : ∀ m, (Mode.negated.added m (f m)).isEmpty = !(f m).isEmpty := by
      intro m
      simp only [Mode.added]
      cases (f m).isEmpty <;> rfl
    simp only [hempty, filter_eq_filter_not_iff, hP rfl, true_imp_iff, Mode.Idle]
    constructor
    · rintro ⟨-, rfl⟩ m hm
      cases hm
    · intro hnone
      obtain rfl := List.eq_nil_iff_forall_not_mem.2 hnone
      exact ⟨rfl, rfl⟩
  | optional =>
    have hempty : ∀ m, (Mode.optional.added m (f m)).isEmpty = false := by
      intro m
      simp only [Mode.added]
      cases hm : (f m).isEmpty with
      | true => rfl
      | false => exact hm
    simp only [hempty]
    simp only [Mode.added, flatMap_eq_flatMap_ite_iff, Mode.Idle]
    constructor
    · exact fun h => h.1
    · exact fun hsome => ⟨hsome, fun _ => List.filter_congr hsome⟩

end Pattern

/-- A bracket around constraints behind a node expression changes nothing, and a negated one keeps the matches of the node expression
to which the constraints add none, exactly if the constraints are not a group with a mark of its own that makes a difference. -/
theorem Pattern.brackets_group_iff {o : PatternOptions} {n c : String} {pn p q : Pattern} (hn : ofText o n = .ok pn)
    (hone : pn.parts.length = 1) (hp : ofText o (n ++ " " ++ c) = .ok p) (hq : ofText o (n ++ " [" ++ c ++ "]") = .ok q) :
    ∃ place items added k, conjunction? added = some k ∧ pn.parts = [⟨place, conjunction? items⟩] ∧
      p.parts = [⟨place, conjunction? (added ++ items)⟩] ∧
      ∀ (s : Scope) (initial : List (String × Int)),
        Matcher.all ⟨p, s, initial⟩ = (Matcher.all ⟨pn, s, initial⟩).flatMap (Match.extend s k) ∧
        ((Matcher.all ⟨q, s, initial⟩ = Matcher.all ⟨p, s, initial⟩ ∧
            (p.nodeNames = pn.nodeNames ∧ p.edgeNames = pn.edgeNames → ∃ r, ofText o (n ++ " ![" ++ c ++ "]") = .ok r ∧
              Matcher.all ⟨r, s, initial⟩ = (Matcher.all ⟨pn, s, initial⟩).filter fun m => (m.extend s k).isEmpty)) ↔
          ∀ m ∈ Matcher.all ⟨pn, s, initial⟩, k.MarkIdle s m) := by
  obtain ⟨place, items, added, k, h, hnegated, hnames⟩ := bracketing_of_ofText hn hone hp hq
  refine ⟨place, items, added, k, h.whole, h.node, h.behind, fun s initial => ⟨all_behind h.whole h.node h.behind s initial, ?_⟩⟩
  -- Constraints that are a negated group bring in no name.
  have hgroup : k.asGroup.1 = .negated → p.nodeNames = pn.nodeNames ∧ p.edgeNames = pn.edgeNames := by
    intro hmode
    refine hnegated fun c hc => ?_
    rw [eq_singleton_of_mark h.whole (by rw [hmode]; decide), List.mem_singleton] at hc
    rw [hc]
    exact mode_of_asGroup hmode (by decide)
  have hnegation : (p.nodeNames = pn.nodeNames ∧ p.edgeNames = pn.edgeNames → ∃ r, ofText o (n ++ " ![" ++ c ++ "]") = .ok r ∧
      Matcher.all ⟨r, s, initial⟩ = (Matcher.all ⟨pn, s, initial⟩).filter fun m => (m.extend s k).isEmpty) ↔
      (p.nodeNames = pn.nodeNames ∧ p.edgeNames = pn.edgeNames →
        ((Matcher.all ⟨pn, s, initial⟩).filter fun m => (m.extendByMembers s k).isEmpty) =
          (Matcher.all ⟨pn, s, initial⟩).filter fun m => (m.extend s k).isEmpty) := by
    refine forall_congr' fun hsame => ?_
    obtain ⟨r, hr, hparts⟩ := hnames hsame.1 hsame.2
    have hall := all_bracket h.node hparts s initial
    simp only [Mode.added, flatMap_ite_eq_filter] at hall
    simp only [hr, Except.ok.injEq, exists_eq_left', hall]
  rw [hnegation, all_behind h.whole h.node h.behind, all_bracket h.node h.within]
  simp only [funext (extend_eq s k)]
  exact mode_idle_iff hgroup (Match.extendByMembers s k) _

/-- So it is for a token with a parent, and an optional group with a name and a negation in it. -/
theorem Pattern.brackets_group_optional :
    let n := "\x7b\x7d=a < \x7b\x7d"
    let c := "?[> \x7b\x7d=b !. \x7b\x7d]"
    ∃ pn p q : Pattern, ofText {} n = .ok pn ∧ pn.parts.length = 1 ∧ ofText {} (n ++ " " ++ c) = .ok p ∧
      ofText {} (n ++ " [" ++ c ++ "]") = .ok q ∧
      ∃ place items added k, conjunction? added = some k ∧ pn.parts = [⟨place, conjunction? items⟩] ∧
        p.parts = [⟨place, conjunction? (added ++ items)⟩] ∧
        ∀ (s : Scope) (initial : List (String × Int)),
          Matcher.all ⟨p, s, initial⟩ = (Matcher.all ⟨pn, s, initial⟩).flatMap (Match.extend s k) ∧
          ((Matcher.all ⟨q, s, initial⟩ = Matcher.all ⟨p, s, initial⟩ ∧
              (p.nodeNames = pn.nodeNames ∧ p.edgeNames = pn.edgeNames → ∃ r, ofText {} (n ++ " ![" ++ c ++ "]") = .ok r ∧
                Matcher.all ⟨r, s, initial⟩ = (Matcher.all ⟨pn, s, initial⟩).filter fun m => (m.extend s k).isEmpty)) ↔
            ∀ m ∈ Matcher.all ⟨pn, s, initial⟩, k.MarkIdle s m) := by
  intro n c
  obtain ⟨pn, hn, hone⟩ := exists_ok_of_map_toOption (x := ofText {} n) (g := fun p => p.parts.length) (b := 1)
    (by decide +kernel)
  obtain ⟨p, hp, -⟩ := exists_ok_of_map_toOption (x := ofText {} (n ++ " " ++ c)) (g := fun p => p.parts.length) (b := 1)
    (by decide +kernel)
  obtain ⟨q, hq, -⟩ := exists_ok_of_map_toOption (x := ofText {} (n ++ " [" ++ c ++ "]")) (g := fun p => p.parts.length) (b := 1)
    (by decide +kernel)
  exact ⟨pn, p, q, hn, hone, hp, hq, Pattern.brackets_group_iff hn hone hp hq⟩

/-- In a bracket a negated group is no longer negated: it then matches the token with a dependent in the place of the one without,
and a negated bracket around it matches the latter in the place of the former. -/
theorem Pattern.bracket_loses_mark :
    let graph : Graph :=
      { tokens := [(1, { index := 1 }), (2, { index := 2 })]
        arcs := [⟨0, { governor := 1, dependent := 2, relation := "obj" }⟩]
        fresh := 1 }
    let roots (text : String) : Option (List Int) :=
      (ofText {} text).toOption.map fun p => (Matcher.plain p graph).all.map (·.root)
    roots "\x7b\x7d=a" = some [1, 2] ∧
      roots ("\x7b\x7d=a" ++ " " ++ "![> \x7b\x7d]") = some [2] ∧
      roots ("\x7b\x7d=a" ++ " [" ++ "![> \x7b\x7d]" ++ "]") = some [1] ∧
      roots ("\x7b\x7d=a" ++ " ![" ++ "![> \x7b\x7d]" ++ "]") = some [2] := by
  decide +kernel

end Treebank

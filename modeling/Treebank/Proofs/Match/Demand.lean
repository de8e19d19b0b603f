import Treebank.Match.Search
import Treebank.Proofs.Pairs
import Mathlib.Data.Multiset.Bind

/-!
# Demands

A way to satisfy constraints demands of some names that they be bound to certain data: to a token, or to an edge with a certain label.
Which demands the ways make depends on the graph alone, not on what is bound before: a constraint without negated or optional ones in
it is solved, from any bindings, by the ways whose demands these bindings can meet (`view_solve`). Ways and demands are multisets, so
that conjuncts and alternatives, and what they demand, have no order.
-/

namespace Treebank

namespace Pattern

open Scope

/-! ## What bindings say -/

/-- A name of a place, or of an edge. -/
inductive Name where
  | node (name : String)
  | edge (name : String)
  deriving DecidableEq, Repr

/-- What a name is bound to, as far as a search compares it: a token, or the label of an edge. -/
inductive Datum where
  | token (index : Int)
  | label (relation : String)
  deriving DecidableEq, Repr

/-- What names are bound to. -/
abbrev View := Name → Option Datum

/-- What bindings say. -/
def Bindings.view (b : Bindings) : View
  | .node name => (b.nodes.lookup name).map .token
  | .edge name => (b.edges.lookup name).map fun e => .label e.relation

/-- What has to be bound to what. -/
abbrev Demand := Name × Datum

/-- Meets a demand, if the name is bound to nothing else. -/
def View.meet (v : View) (d : Demand) : Option View :=
  match v d.1 with
  | none => some (Function.update v d.1 (some d.2))
  | some x => if x = d.2 then some v else none

theorem View.meet_eq_some_iff {v v' : View} {d : Demand} :
    v.meet d = some v' ↔ (v d.1 = none ∨ v d.1 = some d.2) ∧ v' = Function.update v d.1 (some d.2) := by
  unfold View.meet
  cases h : v d.1 with
  | none => simp [eq_comm]
  | some x =>
    by_cases hx : x = d.2
    · subst hx
      simp [← h, eq_comm]
    · simp [hx]

/-- Two demands can be met in either order, with the same outcome. -/
theorem View.meet_comm (v : View) (d e : Demand) : ((v.meet d).bind fun v => v.meet e) = (v.meet e).bind fun v => v.meet d := by
  ext w
  simp only [Option.bind_eq_some_iff, View.meet_eq_some_iff]
  by_cases hname : d.1 = e.1
  · -- Demands of one name can both be met only if they demand the same.
    obtain ⟨name, x⟩ := d
    obtain ⟨name', y⟩ := e
    obtain rfl : name = name' := hname
    constructor
    · rintro ⟨v₁, ⟨h, rfl⟩, h', rfl⟩
      obtain rfl : x = y := by simpa using h'
      exact ⟨_, ⟨h, rfl⟩, by simp, rfl⟩
    · rintro ⟨v₁, ⟨h, rfl⟩, h', rfl⟩
      obtain rfl : y = x := by simpa using h'
      exact ⟨_, ⟨h, rfl⟩, by simp, rfl⟩
  · constructor
    · rintro ⟨v₁, ⟨h, rfl⟩, h', rfl⟩
      rw [Function.update_of_ne (Ne.symm hname)] at h'
      refine ⟨_, ⟨h', rfl⟩, ?_, Function.update_comm hname _ _ _⟩
      rwa [Function.update_of_ne hname]
    · rintro ⟨v₁, ⟨h, rfl⟩, h', rfl⟩
      rw [Function.update_of_ne hname] at h'
      refine ⟨_, ⟨h', rfl⟩, ?_, Function.update_comm (Ne.symm hname) _ _ _⟩
      rwa [Function.update_of_ne (Ne.symm hname)]

instance : LeftCommutative fun (d : Demand) (v : Option View) => v.bind fun v => v.meet d where
  left_comm d e v := by
    cases v with
    | none => rfl
    | some v => exact View.meet_comm v e d

/-! ## Several demands -/

/-- Meets several demands. -/
def View.meetAll (v : View) (ds : Multiset Demand) : Option View := ds.foldr (fun d v => v.bind fun v => v.meet d) (some v)

@[simp] theorem View.meetAll_zero (v : View) : v.meetAll 0 = some v := rfl

@[simp] theorem View.meetAll_singleton (v : View) (d : Demand) : v.meetAll {d} = v.meet d := rfl

/-- Meeting some demands and then others. -/
theorem View.meetAll_add (v : View) (ds es : Multiset Demand) :
    v.meetAll (ds + es) = (v.meetAll ds).bind fun v => v.meetAll es := by
  have hstart : ∀ o : Option View, es.foldr (fun d v => v.bind fun v => v.meet d) o = o.bind fun v => v.meetAll es := by
    intro o
    cases o with
    | some v => rfl
    | none =>
      induction es using Multiset.induction with
      | empty => rfl
      | cons d es ih =>
        rw [Multiset.foldr_cons, ih]
        rfl
  rw [add_comm, View.meetAll, Multiset.foldr_add, hstart]
  rfl

/-- What there is after several demands, if they can be met. -/
def View.after (v : View) (ds : Multiset Demand) : Multiset View := ((v.meetAll ds).toList : Multiset View)

/-- After some demands and then others. -/
theorem View.after_add (v : View) (ds es : Multiset Demand) : v.after (ds + es) = (v.after ds).bind fun v => v.after es := by
  unfold View.after
  rw [View.meetAll_add]
  cases v.meetAll ds with
  | none => rfl
  | some v => simp

/-- After each of some ways to go on from each of others: from all that these come to. -/
theorem View.bind_after_add (v : View) (ds : Multiset Demand) (ways : Multiset (Multiset Demand)) :
    (ways.bind fun es => v.after (ds + es)) = (v.after ds).bind fun v => ways.bind v.after := by
  simp only [View.after_add]
  exact Multiset.bind_bind ways (v.after ds)

/-! ## What constraints demand -/

/-- What a place demands of its name. -/
def nodeDemands (name : Option String) (index : Int) : Multiset Demand :=
  match name with
  | none => 0
  | some name => {(.node name, .token index)}

/-- What an edge demands of its name. -/
def edgeDemands (name : Option String) (edge : Option Edge) : Multiset Demand :=
  match name, edge with
  | some name, some edge => {(.edge name, .label edge.relation)}
  | _, _ => 0

/-- The ways to fill a place with a token: one, or none if the token does not fit. -/
def Place.ways (p : Place) (s : Scope) (index : Int) : Multiset (Multiset Demand) :=
  match s.graph.token? index with
  | none => 0
  | some t => if p.description.accepts s.ignoreCase (s.graph.isRoot index) t then {nodeDemands p.name index} else 0

mutual
/-- The ways to satisfy a constraint on a token, each by what it demands. -/
def Constraint.ways (s : Scope) (index : Int) : Constraint → Multiset (Multiset Demand)
  | .relation _ operator target none =>
    (s.candidates operator index : Multiset Candidate).bind fun c =>
      (target.ways s c.1).map fun ds => edgeDemands operator.edgeName c.2 + ds
  | .relation _ operator target (some inner) =>
    (s.candidates operator index : Multiset Candidate).bind fun c =>
      (target.ways s c.1).bind fun ds => (inner.ways s c.1).map fun es => edgeDemands operator.edgeName c.2 + ds + es
  | .all _ children => waysAll s index children
  | .any _ children => waysAny s index children

/-- The ways to satisfy all of some constraints. -/
def waysAll (s : Scope) (index : Int) : List Constraint → Multiset (Multiset Demand)
  | [] => {0}
  | c :: cs => (c.ways s index).bind fun ds => (waysAll s index cs).map fun es => ds + es

/-- The ways to satisfy any of some constraints. -/
def waysAny (s : Scope) (index : Int) : List Constraint → Multiset (Multiset Demand)
  | [] => 0
  | c :: cs => c.ways s index + waysAny s index cs
end

mutual
/-- Whether neither a constraint nor one below it is negated or optional. -/
def Constraint.isAffirmative : Constraint → Bool
  | .relation mode _ _ none => mode == .plain
  | .relation mode _ _ (some inner) => mode == .plain && inner.isAffirmative
  | .all mode children => mode == .plain && areAffirmative children
  | .any mode children => mode == .plain && areAffirmative children

/-- Whether some constraints are affirmative. -/
def areAffirmative : List Constraint → Bool
  | [] => true
  | c :: cs => c.isAffirmative && areAffirmative cs
end

/-! ## Solving is meeting demands -/

variable {s : Scope} {index : Int} {b : Bindings}

/-- Binding the name of a place meets its demand. -/
theorem view_bindNode (b : Bindings) (name : Option String) (index : Int) :
    (b.bindNode name index).map Bindings.view = b.view.meetAll (nodeDemands name index) := by
  unfold Bindings.bindNode nodeDemands
  cases name with
  | none => rfl
  | some name =>
    simp only [View.meetAll_singleton, View.meet, Bindings.view]
    cases h : b.nodes.lookup name with
    | none =>
      simp only [Option.map_none, Option.map_some, Option.some.injEq]
      funext x
      cases x with
      | edge name' => simp [Bindings.view]
      | node name' =>
        by_cases hx : name' = name
        · subst hx
          simp [Bindings.view, List.lookup_append, h]
        · simp [Bindings.view, List.lookup_append, Pairs.lookup_cons_eq, hx]
    | some bound => by_cases hb : bound = index <;> simp [hb]

/-- Binding the name of an edge meets its demand. -/
theorem view_bindEdge (b : Bindings) (name : Option String) (edge : Option Edge) :
    (b.bindEdge name edge).map Bindings.view = b.view.meetAll (edgeDemands name edge) := by
  unfold Bindings.bindEdge edgeDemands
  cases name with
  | none => rfl
  | some name =>
    cases edge with
    | none => rfl
    | some e =>
      simp only [View.meetAll_singleton, View.meet, Bindings.view]
      cases h : b.edges.lookup name with
      | none =>
        simp only [Option.map_none, Option.map_some, Option.some.injEq]
        funext x
        cases x with
        | node name' => simp [Bindings.view]
        | edge name' =>
          by_cases hx : name' = name
          · subst hx
            simp [Bindings.view, List.lookup_append, h]
          · simp [Bindings.view, List.lookup_append, Pairs.lookup_cons_eq, hx]
      | some bound => by_cases hb : bound.relation = e.relation <;> simp [hb]

/-- Some bindings at most, as views. -/
theorem coe_map_toList (o : Option Bindings) :
    ((o.toList.map Bindings.view : List View) : Multiset View) = ((o.map Bindings.view).toList : Multiset View) := by
  cases o <;> rfl

/-- Filling a place meets what its ways demand. -/
theorem view_fill (p : Place) (s : Scope) (index : Int) (b : Bindings) :
    (((p.fill s index b).map Bindings.view).toList : Multiset View) = (p.ways s index).bind b.view.after := by
  unfold Place.fill Place.ways
  cases s.graph.token? index with
  | none => rfl
  | some t =>
    by_cases h : p.description.accepts s.ignoreCase (s.graph.isRoot index) t
    · simp only [h, if_true, Multiset.singleton_bind, View.after, view_bindNode]
    · simp [h]

/-- Reaching a place over an edge meets what both demand. -/
theorem view_bind (p : Place) (s : Scope) (c : Candidate) (name : Option String) (b : Bindings) :
    ((((b.bindEdge name c.2).bind (p.fill s c.1)).map Bindings.view).toList : Multiset View) =
      (p.ways s c.1).bind fun ds => b.view.after (edgeDemands name c.2 + ds) := by
  rw [View.bind_after_add, View.after, ← view_bindEdge]
  cases b.bindEdge name c.2 with
  | none => rfl
  | some b' => simpa using view_fill p s c.1 b'

/-- Going on, from bindings, with what depends on their views alone. -/
theorem bind_view {α : Type} (bs : List Bindings) (f : View → Multiset α) :
    ((bs : Multiset Bindings).bind fun b => f b.view) = ((bs.map Bindings.view : List View) : Multiset View).bind f := by
  rw [← Multiset.map_coe, Multiset.bind_map]

mutual
/-- What the solutions of an affirmative constraint say is what there is after its ways. -/
theorem view_solve (s : Scope) {c : Constraint} (hc : c.isAffirmative) (index : Int) (b : Bindings) :
    (((c.solve s index b).map Bindings.view : List View) : Multiset View) = (c.ways s index).bind b.view.after := by
  match c with
  | .relation mode operator target none =>
    obtain rfl : mode = .plain := by simpa [Constraint.isAffirmative] using hc
    rw [Constraint.solve, Constraint.ways, Mode.select, List.map_flatMap, ← Multiset.coe_bind, Multiset.bind_assoc]
    refine Multiset.bind_congr fun c _ => ?_
    rw [Multiset.bind_map, coe_map_toList]
    exact view_bind target s c operator.edgeName b
  | .relation mode operator target (some inner) =>
    obtain ⟨rfl, hi⟩ : mode = .plain ∧ inner.isAffirmative := by simpa [Constraint.isAffirmative] using hc
    rw [Constraint.solve, Constraint.ways, Mode.select, List.map_flatMap, ← Multiset.coe_bind, Multiset.bind_assoc]
    refine Multiset.bind_congr fun c _ => ?_
    simp only [List.map_flatMap, ← Multiset.coe_bind, view_solve s hi c.1]
    rw [bind_view _ fun v => (inner.ways s c.1).bind v.after, coe_map_toList, view_bind, Multiset.bind_assoc, Multiset.bind_assoc]
    refine Multiset.bind_congr fun ds _ => ?_
    rw [Multiset.bind_map, View.bind_after_add]
  | .all mode children =>
    obtain ⟨rfl, hi⟩ : mode = .plain ∧ areAffirmative children := by simpa [Constraint.isAffirmative] using hc
    rw [Constraint.solve, Constraint.ways]
    exact view_solveAll s hi index b
  | .any mode children =>
    obtain ⟨rfl, hi⟩ : mode = .plain ∧ areAffirmative children := by simpa [Constraint.isAffirmative] using hc
    rw [Constraint.solve, Constraint.ways]
    exact view_solveAny s hi index b

/-- What the solutions of several affirmative constraints say. -/
theorem view_solveAll (s : Scope) {cs : List Constraint} (hcs : areAffirmative cs) (index : Int) (b : Bindings) :
    (((solveAll s index b cs).map Bindings.view : List View) : Multiset View) = (waysAll s index cs).bind b.view.after := by
  match cs with
  | [] => rfl
  | c :: cs =>
    obtain ⟨hc, hcs⟩ : c.isAffirmative ∧ areAffirmative cs := by simpa [areAffirmative] using hcs
    rw [solveAll, waysAll, List.map_flatMap, ← Multiset.coe_bind]
    simp only [view_solveAll s hcs index]
    rw [bind_view _ fun v => (waysAll s index cs).bind v.after, view_solve s hc, Multiset.bind_assoc, Multiset.bind_assoc]
    refine Multiset.bind_congr fun ds _ => ?_
    rw [Multiset.bind_map, View.bind_after_add]

/-- What the solutions of affirmative alternatives say. -/
theorem view_solveAny (s : Scope) {cs : List Constraint} (hcs : areAffirmative cs) (index : Int) (b : Bindings) :
    (((solveAny s index b cs).map Bindings.view : List View) : Multiset View) = (waysAny s index cs).bind b.view.after := by
  match cs with
  | [] => rfl
  | c :: cs =>
    obtain ⟨hc, hcs⟩ : c.isAffirmative ∧ areAffirmative cs := by simpa [areAffirmative] using hcs
    rw [solveAny, waysAny, List.map_append, ← Multiset.coe_add, view_solve s hc, view_solveAny s hcs, Multiset.add_bind]
end

/-! ## Parts -/

/-- Whether a part is affirmative. -/
def Part.isAffirmative (p : Part) : Bool := p.constraint.all (·.isAffirmative)

/-- The ways to satisfy what may be on a token. -/
def optionWays (s : Scope) (index : Int) : Option Constraint → Multiset (Multiset Demand)
  | none => {0}
  | some c => c.ways s index

/-- The ways to fill a part, each with the token at its top. -/
def Part.ways (p : Part) (s : Scope) : Multiset (Int × Multiset Demand) :=
  (s.graph.indices : Multiset Int).bind fun index =>
    (p.place.ways s index).bind fun ds => (optionWays s index p.constraint).map fun es => (index, ds + es)

/-- The ways to fill some parts. -/
def partsWays (s : Scope) : List Part → Multiset (Multiset Demand)
  | [] => {0}
  | p :: ps => (p.ways s).bind fun q => (partsWays s ps).map fun es => q.2 + es

/-- What the solutions of an affirmative part say, each with the token at its top. -/
theorem view_part {p : Part} (hp : p.isAffirmative) (s : Scope) (b : Bindings) {α : Type} (f : Int → View → Multiset α) :
    ((p.solve s b : Multiset (Int × Bindings)).bind fun q => f q.1 q.2.view) =
      (p.ways s).bind fun q => (b.view.after q.2).bind (f q.1) := by
  have hoption : ∀ index b, (((solveOption s index b p.constraint).map Bindings.view : List View) : Multiset View) =
      (optionWays s index p.constraint).bind b.view.after := by
    intro index b
    unfold Part.isAffirmative at hp
    cases hc : p.constraint with
    | none => rfl
    | some c =>
      rw [hc] at hp
      exact view_solve s hp index b
  unfold Part.solve Part.ways Part.solveAt
  simp only [List.map_flatMap, ← Multiset.coe_bind, ← Multiset.map_coe, Multiset.bind_assoc, Multiset.bind_map]
  refine Multiset.bind_congr fun index _ => ?_
  simp only [bind_view, hoption, Multiset.bind_assoc, View.after_add]
  have := bind_view (p.place.fill s index b).toList fun v =>
    (optionWays s index p.constraint).bind fun ds => (v.after ds).bind (f index)
  rw [this, coe_map_toList, view_fill, Multiset.bind_assoc]
  exact Multiset.bind_congr fun ds _ => Multiset.bind_bind _ _

/-- What the solutions of affirmative parts say. -/
theorem view_solveParts {ps : List Part} (hps : ∀ p ∈ ps, p.isAffirmative) (s : Scope) (b : Bindings) :
    (((solveParts s b ps).map Bindings.view : List View) : Multiset View) = (partsWays s ps).bind b.view.after := by
  induction ps generalizing b with
  | nil => rfl
  | cons p ps ih =>
    rw [solveParts, partsWays, List.map_flatMap, ← Multiset.coe_bind]
    simp only [ih fun p hp => hps p (List.mem_cons_of_mem _ hp)]
    have := view_part (hps p (List.mem_cons_self ..)) s b fun _ v => (partsWays s ps).bind v.after
    rw [this, Multiset.bind_assoc]
    refine Multiset.bind_congr fun q _ => ?_
    rw [Multiset.bind_map, View.bind_after_add]

end Pattern

end Treebank

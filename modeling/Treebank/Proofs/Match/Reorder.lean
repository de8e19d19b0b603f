import Treebank.Proofs.Match.Demand
import Mathlib.Logic.Relation

/-!
# Patterns in another order

In a pattern without negated or optional constraints the order of conjuncts, of alternatives and of parts shows in the order of the
matches alone: what its matches bind the names to, each counted as often as it is found, is what the matches of the pattern in any
other order bind them to (`findAll_reordered`).
-/

namespace Treebank

namespace Pattern

/-! ## Other orders -/

/-- The children of one conjunction or disjunction in a constraint, at any depth, put into another order. -/
inductive Constraint.Reorders : Constraint → Constraint → Prop where
  | all {mode : Mode} {children children' : List Constraint} :
    children.Perm children' → Reorders (.all mode children) (.all mode children')
  | any {mode : Mode} {children children' : List Constraint} :
    children.Perm children' → Reorders (.any mode children) (.any mode children')
  | inner {mode : Mode} {operator : Operator} {target : Place} {c c' : Constraint} :
    Reorders c c' → Reorders (.relation mode operator target (some c)) (.relation mode operator target (some c'))
  | inAll {mode : Mode} {before after : List Constraint} {c c' : Constraint} :
    Reorders c c' → Reorders (.all mode (before ++ c :: after)) (.all mode (before ++ c' :: after))
  | inAny {mode : Mode} {before after : List Constraint} {c c' : Constraint} :
    Reorders c c' → Reorders (.any mode (before ++ c :: after)) (.any mode (before ++ c' :: after))

/-- The children of one conjunction or disjunction in some parts put into another order. -/
inductive PartsReorder : List Part → List Part → Prop where
  | inPart {before after : List Part} {place : Place} {c c' : Constraint} :
    c.Reorders c' → PartsReorder (before ++ ⟨place, some c⟩ :: after) (before ++ ⟨place, some c'⟩ :: after)

/-! ## Lists of children -/

variable {s : Scope} {index : Int} {c c' : Constraint} {cs cs' : List Constraint}

theorem areAffirmative_eq (cs : List Constraint) : areAffirmative cs = cs.all (·.isAffirmative) := by
  induction cs with
  | nil => rfl
  | cons c cs ih => rw [areAffirmative, ih, List.all_cons]

/-- The ways of alternatives are those of each of them together. -/
theorem waysAny_eq (s : Scope) (index : Int) (cs : List Constraint) :
    waysAny s index cs = (cs.map (·.ways s index)).sum := by
  induction cs with
  | nil => rfl
  | cons c cs ih => rw [waysAny, ih, List.map_cons, List.sum_cons]

/-- Two conjuncts can be satisfied in either order. -/
theorem ways_swap (ways ways' rest : Multiset (Multiset Demand)) :
    (ways.bind fun ds => (ways'.bind fun es => rest.map fun fs => es + fs).map fun es => ds + es) =
      ways'.bind fun ds => (ways.bind fun es => rest.map fun fs => es + fs).map fun es => ds + es := by
  simp only [Multiset.map_bind, Multiset.map_map]
  rw [Multiset.bind_bind]
  refine Multiset.bind_congr fun ds _ => Multiset.bind_congr fun es _ => Multiset.map_congr rfl fun fs _ => ?_
  exact add_left_comm es ds fs

theorem waysAll_perm (h : cs.Perm cs') : waysAll s index cs = waysAll s index cs' := by
  induction h with
  | nil => rfl
  | cons c _ ih => rw [waysAll, waysAll, ih]
  | swap c d cs => exact ways_swap (d.ways s index) (c.ways s index) (waysAll s index cs)
  | trans _ _ ih ih' => exact ih.trans ih'

theorem waysAll_append_congr (h : c.ways s index = c'.ways s index) (before after : List Constraint) :
    waysAll s index (before ++ c :: after) = waysAll s index (before ++ c' :: after) := by
  induction before with
  | nil => simp only [List.nil_append, waysAll, h]
  | cons d before ih => simp only [List.cons_append, waysAll, ih]

/-! ## Constraints -/

/-- Another order of children demands the same. -/
theorem ways_reorders (h : c.Reorders c') (s : Scope) (index : Int) : c.ways s index = c'.ways s index := by
  induction h generalizing index with
  | all h => exact waysAll_perm h
  | any h =>
    simp only [Constraint.ways, waysAny_eq]
    exact (h.map _).sum_eq
  | inner _ ih => simp only [Constraint.ways, ih]
  | inAll _ ih =>
    simp only [Constraint.ways]
    exact waysAll_append_congr (ih index) _ _
  | inAny _ ih => simp only [Constraint.ways, waysAny_eq, List.map_append, List.map_cons, ih]

/-- Another order of children leaves a constraint affirmative. -/
theorem isAffirmative_reorders (h : c.Reorders c') : c.isAffirmative = c'.isAffirmative := by
  induction h with
  | all h => simp only [Constraint.isAffirmative, areAffirmative_eq, h.all_eq]
  | any h => simp only [Constraint.isAffirmative, areAffirmative_eq, h.all_eq]
  | inner _ ih => simp only [Constraint.isAffirmative, ih]
  | inAll _ ih => simp only [Constraint.isAffirmative, areAffirmative_eq, List.all_append, List.all_cons, ih]
  | inAny _ ih => simp only [Constraint.isAffirmative, areAffirmative_eq, List.all_append, List.all_cons, ih]

/-! ## Parts -/

/-- The ways to fill the parts of a pattern, each with the token at the top of the first part. -/
def matchWays (s : Scope) : List Part → Multiset (Int × Multiset Demand)
  | [] => 0
  | p :: ps => (p.ways s).bind fun q => (partsWays s ps).map fun es => (q.1, q.2 + es)

variable {ps ps' : List Part}

theorem part_ways_reorders (h : c.Reorders c') (s : Scope) (place : Place) :
    Part.ways ⟨place, some c⟩ s = Part.ways ⟨place, some c'⟩ s := by
  simp only [Part.ways, optionWays, ways_reorders h]

theorem partsWays_append_congr {p p' : Part} (h : p.ways s = p'.ways s) (before after : List Part) :
    partsWays s (before ++ p :: after) = partsWays s (before ++ p' :: after) := by
  induction before with
  | nil => simp only [List.nil_append, partsWays, h]
  | cons q before ih => simp only [List.cons_append, partsWays, ih]

/-- Another order of children in the parts demands the same, with the same token at the top. -/
theorem matchWays_reorder (h : PartsReorder ps ps') (s : Scope) : matchWays s ps = matchWays s ps' := by
  obtain ⟨h⟩ := h
  rename_i before after place c c'
  have hpart := part_ways_reorders h s place
  cases before with
  | nil => simp only [List.nil_append, matchWays, hpart]
  | cons q before => simp only [List.cons_append, matchWays, partsWays_append_congr hpart]

/-- Another order of children in the parts leaves them affirmative. -/
theorem isAffirmative_reorder (h : PartsReorder ps ps') : ps.all (·.isAffirmative) = ps'.all (·.isAffirmative) := by
  obtain ⟨h⟩ := h
  simp only [List.all_append, List.all_cons, Part.isAffirmative, Option.all_some, isAffirmative_reorders h]

/-- So it is for any number of such changes. -/
theorem matchWays_reorders (h : Relation.ReflTransGen PartsReorder ps ps') (s : Scope) :
    matchWays s ps = matchWays s ps' ∧ ps.all (·.isAffirmative) = ps'.all (·.isAffirmative) := by
  induction h with
  | refl => exact ⟨rfl, rfl⟩
  | tail _ h ih => exact ⟨ih.1.trans (matchWays_reorder h s), ih.2.trans (isAffirmative_reorder h)⟩

/-- Parts in another order demand the same. -/
theorem partsWays_perm (h : ps.Perm ps') (s : Scope) : partsWays s ps = partsWays s ps' := by
  induction h with
  | nil => rfl
  | cons p _ ih => rw [partsWays, partsWays, ih]
  | swap p q ps =>
    have hswap := ways_swap ((q.ways s).map (·.2)) ((p.ways s).map (·.2)) (partsWays s ps)
    simp only [Multiset.bind_map] at hswap
    exact hswap
  | trans _ _ ih ih' => exact ih.trans ih'

/-- Without the tokens at the top, the ways of a pattern are those of its parts. -/
theorem map_snd_matchWays (s : Scope) (hps : ps ≠ []) : (matchWays s ps).map (·.2) = partsWays s ps := by
  cases ps with
  | nil => exact absurd rfl hps
  | cons p ps => simp only [matchWays, partsWays, Multiset.map_bind, Multiset.map_map, Function.comp_def]

end Pattern

open Pattern

/-- Whether no constraint of a pattern is negated or optional. -/
def Pattern.isAffirmative (p : Pattern) : Bool := p.parts.all (·.isAffirmative)

/-- A match as it is read by its names: the token at its top, the tokens of the names of places, and the labels of the names of
edges. -/
def Match.reading (m : Match) : Int × (String → Option Int) × (String → Option String) :=
  (m.root, m.node?, fun name => m.relations.lookup name)

namespace Pattern

/-- What a view says, by the kinds of names. -/
def View.reading (v : View) : (String → Option Int) × (String → Option String) :=
  (fun name => (v (.node name)).bind fun | .token index => some index | .label _ => none,
    fun name => (v (.edge name)).bind fun | .label relation => some relation | .token _ => none)

/-- A match reads as its bindings do. -/
theorem reading_eq (m : Match) : m.reading = (m.root, m.bindings.view.reading) := by
  have hnodes : m.node? = m.bindings.view.reading.1 := by
    funext name
    simp only [Match.node?, View.reading, Bindings.view]
    cases m.bindings.nodes.lookup name <;> rfl
  have hedges : (fun name => m.relations.lookup name) = m.bindings.view.reading.2 := by
    funext name
    have hlookup := Pairs.lookup_map m.bindings.edges (fun _ e => e.relation) name
    simp only [Match.relations, View.reading, Bindings.view]
    rw [hlookup]
    cases m.bindings.edges.lookup name <;> rfl
  rw [Match.reading, hnodes, hedges]

/-- The matches of an affirmative pattern, as they are read, are what there is after the ways to fill its parts. -/
theorem reading_all {m : Matcher} (hm : m.pattern.isAffirmative) :
    ((m.all.map Match.reading : List _) : Multiset _) =
      (matchWays m.scope m.pattern.parts).bind fun q =>
        (Bindings.view { nodes := m.initial } |>.after q.2).map fun v => (q.1, v.reading) := by
  unfold Matcher.all matchWays
  unfold Pattern.isAffirmative at hm
  cases hparts : m.pattern.parts with
  | nil => rfl
  | cons p ps =>
    rw [hparts, List.all_cons, Bool.and_eq_true] at hm
    have hrest : ∀ q : Int × Bindings,
        ((((solveParts m.scope q.2 ps).map fun b => ({ root := q.1, bindings := b } : Match)).map Match.reading : List _) :
            Multiset _) =
          ((partsWays m.scope ps).bind q.2.view.after).map fun v => (q.1, v.reading) := by
      intro q
      rw [← view_solveParts (fun p hp => List.all_eq_true.1 hm.2 p hp), Multiset.map_coe, List.map_map, List.map_map]
      exact congrArg _ (List.map_congr_left fun b _ => reading_eq _)
    simp only [List.map_flatMap, ← Multiset.coe_bind, hrest]
    rw [view_part hm.1 m.scope _ fun root v => ((partsWays m.scope ps).bind v.after).map fun v => (root, v.reading),
      Multiset.bind_assoc]
    refine Multiset.bind_congr fun q _ => ?_
    rw [Multiset.bind_map, ← Multiset.map_bind, ← View.bind_after_add, Multiset.map_bind]

/-- Without the tokens at the top they are what there is after the ways of its parts, if there are parts. -/
theorem reading_all_snd {m : Matcher} (hm : m.pattern.isAffirmative) :
    ((m.all.map fun found => found.reading.2 : List _) : Multiset _) =
      if m.pattern.parts.isEmpty then 0
      else (partsWays m.scope m.pattern.parts).bind fun ds => (Bindings.view { nodes := m.initial } |>.after ds).map View.reading := by
  have hall := congrArg (Multiset.map Prod.snd) (reading_all hm)
  rw [Multiset.map_coe, List.map_map, Multiset.map_bind] at hall
  refine hall.trans ?_
  cases hparts : m.pattern.parts with
  | nil => rfl
  | cons p ps =>
    rw [if_neg (by simp), ← map_snd_matchWays m.scope (List.cons_ne_nil p ps), Multiset.bind_map]
    simp only [Multiset.map_map, Function.comp_def]

end Pattern

/-- Putting the conjuncts and the alternatives of an affirmative pattern into another order, at any depth and any number of times, leaves
what its matches bind the names to and the tokens at their tops, each as often as it was found; putting its parts into another order
leaves what its matches bind the names to. -/
theorem Matcher.findAll_reordered {m : Matcher} (hm : m.pattern.isAffirmative) (sink : Sink) :
    (∀ p : Pattern, Relation.ReflTransGen PartsReorder m.pattern.parts p.parts →
        (((Matcher.mk p m.scope m.initial).findAll.run sink).1.map Match.reading).Perm
          ((m.findAll.run sink).1.map Match.reading)) ∧
      ∀ p : Pattern, m.pattern.parts.Perm p.parts →
        (((Matcher.mk p m.scope m.initial).findAll.run sink).1.map fun found => found.reading.2).Perm
          ((m.findAll.run sink).1.map fun found => found.reading.2) := by
  constructor
  · intro p hp
    obtain ⟨hways, haffirmative⟩ := matchWays_reorders hp m.scope
    have hreading := reading_all (m := ⟨p, m.scope, m.initial⟩) (haffirmative.symm.trans hm)
    refine Multiset.coe_eq_coe.1 (hreading.trans ?_)
    rw [← hways]
    exact (reading_all hm).symm
  · intro p hp
    have hreading := reading_all_snd (m := ⟨p, m.scope, m.initial⟩) (hp.all_eq.symm.trans hm)
    refine Multiset.coe_eq_coe.1 (hreading.trans ?_)
    rw [← partsWays_perm hp m.scope, ← hp.isEmpty_eq]
    exact (reading_all_snd hm).symm

/-- So it is for a node with two conjuncts and for two parts, in a graph of three tokens. -/
theorem findAll_reordered_two_conjuncts :
    let child (name : String) : Pattern.Constraint := .relation .plain { kind := .child } { description := {}, name := some name } none
    let node (name : String) (cs : List Pattern.Constraint) : Pattern.Part :=
      ⟨{ description := {}, name := some name }, some (.all .plain cs)⟩
    let pattern (parts : List Pattern.Part) : Pattern :=
      { source := "\x7b\x7d=a > \x7b\x7d=b > \x7b\x7d=c : \x7b\x7d=b"
        parts := parts
        nodeNames := ["a", "b", "c"]
        edgeNames := []
        options := {} }
    let graph : Graph :=
      { tokens := [(1, { index := 1 }), (2, { index := 2 }), (3, { index := 3 })]
        arcs := [⟨0, { governor := 1, dependent := 2, relation := "nsubj" }⟩, ⟨1, { governor := 1, dependent := 3, relation := "obj" }⟩]
        fresh := 2 }
    let found (parts : List Pattern.Part) : List Match := ((Matcher.mk (pattern parts) { graph := graph } []).findAll.run {}).1
    (found [node "a" [child "b", child "c"], node "b" []]).length = 4 ∧
      ((found [node "a" [child "c", child "b"], node "b" []]).map Match.reading).Perm
          ((found [node "a" [child "b", child "c"], node "b" []]).map Match.reading) ∧
        ((found [node "b" [], node "a" [child "b", child "c"]]).map fun m => m.reading.2).Perm
          ((found [node "a" [child "b", child "c"], node "b" []]).map fun m => m.reading.2) := by
  intro child node pattern graph found
  have hreordered := Matcher.findAll_reordered
    (m := ⟨pattern [node "a" [child "b", child "c"], node "b" []], { graph := graph }, []⟩) (by decide) {}
  refine ⟨by decide, hreordered.1 (pattern [node "a" [child "c", child "b"], node "b" []]) (.single ?_),
    hreordered.2 (pattern [node "b" [], node "a" [child "b", child "c"]]) (.swap ..)⟩
  exact @Pattern.PartsReorder.inPart [] [node "b" []] _ _ _ (.all (.swap ..))

end Treebank

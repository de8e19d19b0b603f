import Treebank.Proofs.Checked.Candidate
import Treebank.Proofs.Match.Conjunct
import Treebank.Proofs.Match.Demand
import Treebank.Proofs.Pattern.Named
import Treebank.Proofs.Pattern.WellFormed

/-!
# What a match binds

A search binds no other names than the pattern mentions, and it binds all names that are mentioned outside of negations, of optional
constraints and of alternatives (`captures_all`). In a pattern that was read, with conjunctions and negations alone, these are all
names (`certain_of_conjunctive`). What is bound is there: tokens of the graph, and edges between such tokens (`grounded_all`).
-/

namespace Treebank

namespace Pattern

open Scope

/-! ## Names that are certain to be bound -/

/-- What is certain of a constraint, given what is without its mode. -/
def Mode.certain (mode : Mode) (ms : Mentions) : Mentions := if mode = .plain then ms else []

mutual
/-- What a constraint mentions outside of negations, of optional constraints and of alternatives. -/
def Constraint.certain : Constraint → Mentions
  | .relation mode operator target none => mode.certain (operator.mentions ++ target.mentions)
  | .relation mode operator target (some inner) => mode.certain (operator.mentions ++ target.mentions ++ inner.certain)
  | .all mode children => mode.certain (certainOf children)
  | .any _ _ => []

/-- What constraints mention outside of negations, of optional constraints and of alternatives. -/
def certainOf : List Constraint → Mentions
  | [] => []
  | c :: cs => c.certain ++ certainOf cs
end

/-- What a part mentions outside of negations, of optional constraints and of alternatives. -/
def Part.certain (p : Part) : Mentions := p.place.mentions ++ certainOf p.constraint.toList

end Pattern

/-- What a pattern mentions outside of negations, of optional constraints and of alternatives. -/
def Pattern.certain (p : Pattern) : Pattern.Mentions := p.parts.flatMap Pattern.Part.certain

namespace Pattern

open Scope

/-! ## Bound names -/

variable {s : Scope} {index : Int} {b b' b₁ b₂ : Bindings} {ms ms' : Mentions} {n : Name} {x : String}

/-- Whether a name is bound. -/
def Bindings.Binds (b : Bindings) (n : Name) : Prop := (b.view n).isSome

theorem binds_node : b.Binds (.node x) ↔ x ∈ Pairs.keys b.nodes := by
  rw [Bindings.Binds, Bindings.view, Option.isSome_map, Pairs.isSome_lookup_iff, Pairs.keys]

theorem binds_edge : b.Binds (.edge x) ↔ x ∈ Pairs.keys b.edges := by
  rw [Bindings.Binds, Bindings.view, Option.isSome_map, Pairs.isSome_lookup_iff, Pairs.keys]

/-- The name that is mentioned, as one of a token or of an edge. -/
def Mention.kindred : Mention → Name
  | edge name => .edge name
  | node name _ => .node name

/-- The names that are mentioned. -/
def namesOf (ms : Mentions) : List Name := ms.map (·.2.kindred)

theorem namesOf_append : namesOf (ms ++ ms') = namesOf ms ++ namesOf ms' := List.map_append

theorem namesOf_under (u : Bool) (ms : Mentions) : namesOf (under u ms) = namesOf ms := by
  rw [namesOf, under, List.map_map]
  rfl

theorem mem_namesOf_node : .node x ∈ namesOf ms ↔ x ∈ nodesOf ms := by
  rw [mem_nodesOf, namesOf, List.mem_map]
  constructor
  · rintro ⟨⟨u, m⟩, hm, hx⟩
    cases m with
    | edge y => cases hx
    | node y d =>
      cases hx
      exact ⟨u, d, hm⟩
  · rintro ⟨u, d, hm⟩
    exact ⟨_, hm, rfl⟩

theorem mem_namesOf_edge : .edge x ∈ namesOf ms ↔ x ∈ edgesOf ms := by
  rw [mem_edgesOf, namesOf, List.mem_map]
  constructor
  · rintro ⟨⟨u, m⟩, hm, hx⟩
    cases m with
    | edge y =>
      cases hx
      exact ⟨u, hm⟩
    | node y d => cases hx
  · rintro ⟨u, hm⟩
    exact ⟨_, hm, rfl⟩

theorem mem_namesOf_placeMentions {p : Place} : n ∈ namesOf p.mentions ↔ ∃ x ∈ p.name, n = .node x := by
  unfold namesOf Place.mentions
  cases p.name <;> simp [Mention.kindred]

theorem mem_namesOf_operatorMentions {o : Operator} : n ∈ namesOf o.mentions ↔ ∃ x ∈ o.edgeName, n = .edge x := by
  unfold namesOf Operator.mentions
  cases o.edgeName <;> simp [Mention.kindred]

/-! ## What one place binds -/

/-- Meeting demands binds the names of which something is demanded. -/
theorem isSome_of_meetAll {v v' : View} {ds : Multiset Demand} (h : v.meetAll ds = some v') (n : Name) :
    (v' n).isSome ↔ (v n).isSome ∨ ∃ d ∈ ds, d.1 = n := by
  induction ds using Multiset.induction generalizing v with
  | empty =>
    obtain rfl : v = v' := by simpa using h
    simp
  | cons d ds ih =>
    rw [← Multiset.singleton_add, View.meetAll_add] at h
    obtain ⟨v₁, hd, hds⟩ := Option.bind_eq_some_iff.1 h
    rw [View.meetAll_singleton, View.meet_eq_some_iff] at hd
    rw [ih hds, hd.2, Function.update_apply]
    by_cases hn : n = d.1
    · simp [hn]
    · simp [hn, Ne.symm hn]

theorem binds_bindNode {name : Option String} (h : b.bindNode name index = some b') (n : Name) :
    b'.Binds n ↔ b.Binds n ∨ ∃ x ∈ name, n = .node x := by
  have hview := view_bindNode b name index
  rw [h, Option.map_some] at hview
  refine (isSome_of_meetAll hview.symm n).trans (or_congr Iff.rfl ?_)
  cases name with
  | none => simp [nodeDemands]
  | some name => simpa [nodeDemands] using eq_comm

/-- Binding an edge binds its name, if there is an edge wherever there is a name. -/
theorem binds_bindEdge {name : Option String} {edge : Option Edge} (hedge : name.isSome → edge.isSome)
    (h : b.bindEdge name edge = some b') (n : Name) : b'.Binds n ↔ b.Binds n ∨ ∃ x ∈ name, n = .edge x := by
  have hview := view_bindEdge b name edge
  rw [h, Option.map_some] at hview
  refine (isSome_of_meetAll hview.symm n).trans (or_congr Iff.rfl ?_)
  cases name with
  | none => simp [edgeDemands]
  | some name =>
    obtain ⟨e, rfl⟩ := Option.isSome_iff_exists.1 (hedge rfl)
    simpa [edgeDemands] using eq_comm

theorem binds_fill {p : Place} (h : p.fill s index b = some b') (n : Name) : b'.Binds n ↔ b.Binds n ∨ n ∈ namesOf p.mentions := by
  rw [mem_namesOf_placeMentions]
  unfold Place.fill at h
  split at h
  · cases h
  · split at h
    · exact binds_bindNode h n
    · cases h

/-- Reaching a place by an operator binds the names of both. -/
theorem binds_reach {o : Operator} {p : Place} {c : Candidate} (ho : o.namesFollowed) (hc : c ∈ s.candidates o index)
    (h : b' ∈ ((b.bindEdge o.edgeName c.2).bind (p.fill s c.1)).toList) (n : Name) :
    b'.Binds n ↔ b.Binds n ∨ n ∈ namesOf (o.mentions ++ p.mentions) := by
  have hedge : o.edgeName.isSome → c.2.isSome := by
    intro hname
    obtain ⟨name, hname⟩ := Option.isSome_iff_exists.1 hname
    exact isSome_of_mem_candidates (by simpa [Operator.namesFollowed, hname] using ho) hc
  obtain ⟨b₁, he, hf⟩ := Option.bind_eq_some_iff.1 (Option.mem_toList.1 h)
  rw [binds_fill hf, binds_bindEdge hedge he, namesOf_append, List.mem_append, mem_namesOf_operatorMentions, or_assoc]

/-! ## What a search binds -/

/-- What comes to be bound: no name but those that `may` mentions, all that `must` mentions, and what was bound before. -/
structure Captures (b b' : Bindings) (may must : Mentions) : Prop where
  only : ∀ n, b'.Binds n → b.Binds n ∨ n ∈ namesOf may
  sure : ∀ n ∈ namesOf must, b'.Binds n
  kept : ∀ n, b.Binds n → b'.Binds n

variable {may may' must must' : Mentions}

/-- Nothing comes to be bound. -/
theorem captures_refl (b : Bindings) (may : Mentions) : Captures b b may [] := ⟨fun _ h => .inl h, by simp [namesOf], fun _ h => h⟩

/-- What comes to be bound is what is mentioned. -/
theorem captures_of_iff (h : ∀ n, b'.Binds n ↔ b.Binds n ∨ n ∈ namesOf ms) : Captures b b' ms ms :=
  ⟨fun n => (h n).1, fun n hn => (h n).2 (.inr hn), fun n hn => (h n).2 (.inl hn)⟩

/-- First some names come to be bound, then others. -/
theorem Captures.trans (h : Captures b b₁ may must) (h' : Captures b₁ b₂ may' must') :
    Captures b b₂ (may ++ may') (must ++ must') := by
  refine ⟨fun n hn => ?_, fun n hn => ?_, fun n hn => h'.kept n (h.kept n hn)⟩
  · rw [namesOf_append, List.mem_append]
    rcases h'.only n hn with hn | hn
    · exact (h.only n hn).imp_right .inl
    · exact .inr (.inr hn)
  · rw [namesOf_append, List.mem_append] at hn
    rcases hn with hn | hn
    · exact h'.kept n (h.sure n hn)
    · exact h'.sure n hn

/-- What may come to be bound may do so together with something else. -/
theorem Captures.weaken (h : Captures b b' may must) (hmay : ∀ n ∈ namesOf may, n ∈ namesOf may') : Captures b b' may' [] :=
  ⟨fun n hn => (h.only n hn).imp_right (hmay n), by simp [namesOf], h.kept⟩

/-- What a mode makes of solutions binds what is certain, given the mode. -/
theorem captures_select {mode : Mode} {solutions : List Bindings} (hs : ∀ b' ∈ solutions, Captures b b' may must)
    (h : b' ∈ mode.select b solutions) : Captures b b' (under (mode == .negated) may) (mode.certain must) := by
  have hmay : ∀ n ∈ namesOf may, n ∈ namesOf (under (mode == .negated) may) := by simp [namesOf_under]
  cases mode with
  | plain =>
    change Captures b b' (under false may) must
    rw [under_false]
    exact hs b' h
  | negated =>
    simp only [Mode.select] at h
    split at h
    · rw [List.mem_singleton.1 h]
      exact captures_refl b _
    · cases h
  | optional =>
    simp only [Mode.select] at h
    split at h
    · rw [List.mem_singleton.1 h]
      exact captures_refl b _
    · exact (hs b' h).weaken hmay

mutual
/-- What solving a constraint binds. -/
theorem captures_solve {c : Constraint} (hc : c.namesFollowed) {index : Int} {b b' : Bindings} (h : b' ∈ c.solve s index b) :
    Captures b b' c.mentions c.certain := by
  match c with
  | .relation mode operator target none =>
    have ho : operator.namesFollowed := by simpa [Constraint.namesFollowed] using hc
    rw [Constraint.solve] at h
    refine captures_select (fun b' h => ?_) h
    obtain ⟨c, hcandidate, h⟩ := List.mem_flatMap.1 h
    exact captures_of_iff (binds_reach ho hcandidate h)
  | .relation mode operator target (some inner) =>
    obtain ⟨ho, hinner⟩ : operator.namesFollowed ∧ inner.namesFollowed := by simpa [Constraint.namesFollowed] using hc
    rw [Constraint.solve] at h
    refine captures_select (fun b' h => ?_) h
    obtain ⟨c, hcandidate, h⟩ := List.mem_flatMap.1 h
    obtain ⟨b₁, h₁, h⟩ := List.mem_flatMap.1 h
    exact (captures_of_iff (binds_reach ho hcandidate h₁)).trans (captures_solve hinner h)
  | .all mode children =>
    rw [Constraint.solve] at h
    exact captures_select (fun b' h => captures_solveAll hc h) h
  | .any mode children =>
    rw [Constraint.solve] at h
    have := captures_select (fun b' h => captures_solveAny hc h) h
    rwa [Mode.certain, ite_self] at this

/-- What solving constraints one after the other binds. -/
theorem captures_solveAll {cs : List Constraint} (hcs : nameFollowed cs) {index : Int} {b b' : Bindings}
    (h : b' ∈ solveAll s index b cs) : Captures b b' (mentioned cs) (certainOf cs) := by
  match cs with
  | [] =>
    rw [solveAll, List.mem_singleton] at h
    rw [h]
    exact captures_refl b []
  | c :: cs =>
    obtain ⟨hc, hcs⟩ : c.namesFollowed ∧ nameFollowed cs := by simpa [nameFollowed] using hcs
    rw [solveAll] at h
    obtain ⟨b₁, h₁, h⟩ := List.mem_flatMap.1 h
    exact (captures_solve hc h₁).trans (captures_solveAll hcs h)

/-- What solving alternatives binds. -/
theorem captures_solveAny {cs : List Constraint} (hcs : nameFollowed cs) {index : Int} {b b' : Bindings}
    (h : b' ∈ solveAny s index b cs) : Captures b b' (mentioned cs) [] := by
  match cs with
  | [] => simp [solveAny] at h
  | c :: cs =>
    obtain ⟨hc, hcs⟩ : c.namesFollowed ∧ nameFollowed cs := by simpa [nameFollowed] using hcs
    rw [solveAny] at h
    rcases List.mem_append.1 h with h | h
    · exact (captures_solve hc h).weaken fun n hn => by simp [mentioned, namesOf_append, hn]
    · exact (captures_solveAny hcs h).weaken fun n hn => by simp [mentioned, namesOf_append, hn]
end

theorem nameFollowed_toList {p : Part} (hp : p.namesFollowed) : nameFollowed p.constraint.toList := by
  unfold Part.namesFollowed at hp
  cases hc : p.constraint with
  | none => rfl
  | some c => simpa [hc, nameFollowed] using hp

/-- What filling a part binds. -/
theorem captures_part {p : Part} (hp : p.namesFollowed) {q : Int × Bindings} (h : q ∈ p.solve s b) :
    Captures b q.2 p.mentions p.certain := by
  obtain ⟨index, -, hq⟩ := List.mem_flatMap.1 h
  obtain ⟨b', hb', rfl⟩ := List.mem_map.1 hq
  obtain ⟨b₁, h₁, h⟩ := List.mem_flatMap.1 hb'
  rw [solveOption_eq_solveAll] at h
  exact (captures_of_iff (binds_fill (Option.mem_toList.1 h₁))).trans (captures_solveAll (nameFollowed_toList hp) h)

/-- What filling parts one after the other binds. -/
theorem captures_solveParts {ps : List Part} (hps : ps.all Part.namesFollowed) (h : b' ∈ solveParts s b ps) :
    Captures b b' (ps.flatMap Part.mentions) (ps.flatMap Part.certain) := by
  induction ps generalizing b with
  | nil =>
    rw [solveParts, List.mem_singleton] at h
    rw [h]
    exact captures_refl b []
  | cons p ps ih =>
    obtain ⟨hp, hps⟩ : p.namesFollowed ∧ ps.all Part.namesFollowed := by simpa using hps
    rw [solveParts] at h
    obtain ⟨q, hq, h⟩ := List.mem_flatMap.1 h
    exact (captures_part hp hq).trans (ih hps h)

/-- What a match binds. -/
theorem captures_all {m : Matcher} (hm : m.pattern.namesFollowed) {found : Match} (h : found ∈ m.all) :
    Captures { nodes := m.initial } found.bindings m.pattern.mentions m.pattern.certain := by
  unfold Pattern.namesFollowed at hm
  unfold Pattern.mentions Pattern.certain
  unfold Matcher.all at h
  cases hparts : m.pattern.parts with
  | nil =>
    rw [hparts] at h
    cases h
  | cons p ps =>
    rw [hparts] at h hm
    obtain ⟨hp, hps⟩ : p.namesFollowed ∧ ps.all Part.namesFollowed := by simpa using hm
    obtain ⟨q, hq, h⟩ := List.mem_flatMap.1 h
    obtain ⟨b, hb, rfl⟩ := List.mem_map.1 h
    exact (captures_part hp hq).trans (captures_solveParts hps hb)

/-- What is bound from the start are names of the pattern. -/
theorem mem_nodeNames_of_ofPattern {p : Pattern} {g : Graph} {initial : List (String × Int)} {o : Matcher.Overrides}
    {m : Matcher} (h : Matcher.ofPattern p g initial o = .ok m) :
    m.pattern = p ∧ m.initial = initial ∧ ∀ x ∈ Pairs.keys initial, x ∈ p.nodeNames := by
  unfold Matcher.ofPattern at h
  split at h
  · cases h
  · rename_i hnone
    cases h
    refine ⟨rfl, rfl, fun x hx => ?_⟩
    obtain ⟨entry, hentry, rfl⟩ := List.mem_map.1 hx
    have hfine := List.findSome?_eq_none_iff.1 hnone entry hentry
    unfold Matcher.refusal? at hfine
    split at hfine
    · cases hfine
    · rename_i hknown
      simpa using hknown

/-! ## What is bound is there -/

/-- Bindings to tokens of a graph, and to edges between such tokens. -/
structure Bindings.Grounded (b : Bindings) (g : Graph) : Prop where
  nodes : ∀ entry ∈ b.nodes, g.hasToken entry.2
  edges : ∀ entry ∈ b.edges, g.hasToken entry.2.governor ∧ g.hasToken entry.2.dependent

/-- What holds of all stored edges holds of those by which candidates are found. -/
theorem forall_edge_of_mem_candidates {q : Edge → Prop} (hq : ∀ a ∈ s.graph.arcs, q a.edge) {o : Operator} {c : Candidate}
    (hc : c ∈ s.candidates o index) : ∀ e ∈ c.2, q e := by
  have hnext : ∀ d : Direction, ∀ i, ∀ e ∈ d.edges s.graph i, q e := by
    intro d i e he
    cases d with
    | down =>
      obtain ⟨a, ha, rfl⟩ := List.mem_map.1 (Order.mem_sortBy.1 he)
      exact hq a (List.mem_of_mem_filter ha)
    | up =>
      obtain ⟨a, ha, rfl⟩ := List.mem_map.1 (Order.mem_sortBy.1 he)
      exact hq a (List.mem_of_mem_filter ha)
  have hneighbours : ∀ {d}, c ∈ s.neighbours o d index → ∀ e ∈ c.2, q e := by
    intro d hc e he
    obtain ⟨e', he', rfl⟩ := List.mem_map.1 hc
    obtain rfl : e' = e := Option.some.inj he
    exact hnext d index e' (mem_of_mem_firstOfEach (List.mem_of_mem_filter he'))
  have hreached : ∀ {d}, c ∈ s.reached o d index → ∀ e ∈ c.2, q e := by
    intro d hc e he
    obtain ⟨e', he', rfl⟩ := List.mem_map.1 hc
    obtain rfl : e' = e := Option.some.inj he
    split at he'
    · exact forall_mem_descendWithin (hnext d) _ _ _ _ (hnext d index) e' he'
    · exact forall_mem_descend (hnext d) _ _ _ e' he'
  have hnone : ∀ {α : Type} {l : List (Int × α)}, c ∈ l.map (fun p => ((p.1, none) : Candidate)) → ∀ e ∈ c.2, q e := by
    intro α l hc e he
    obtain ⟨p, -, rfl⟩ := List.mem_map.1 hc
    cases he
  unfold candidates at hc
  cases hk : o.kind <;> rw [hk] at hc <;> simp only at hc
  case child => exact hneighbours hc
  case parent => exact hneighbours hc
  case descendant => exact hreached hc
  case ancestor => exact hreached hc
  case same =>
    rw [List.mem_singleton.1 hc]
    rintro e ⟨⟩
  all_goals exact hnone hc

theorem grounded_fill {p : Place} (hb : b.Grounded s.graph) (h : p.fill s index b = some b') : b'.Grounded s.graph := by
  unfold Place.fill at h
  split at h
  · cases h
  rename_i t ht
  split at h
  · unfold Bindings.bindNode at h
    split at h
    · cases h
      exact hb
    · split at h
      · cases h
        refine ⟨List.forall_mem_append.2 ⟨hb.nodes, ?_⟩, hb.edges⟩
        rintro entry hentry
        rw [List.mem_singleton.1 hentry]
        exact Option.isSome_of_mem ht
      · split at h <;> cases h
        exact hb
  · cases h

theorem grounded_reach (hs : s.graph.Sound) {o : Operator} {p : Place} {c : Candidate} (hc : c ∈ s.candidates o index)
    (hb : b.Grounded s.graph) (h : b' ∈ ((b.bindEdge o.edgeName c.2).bind (p.fill s c.1)).toList) : b'.Grounded s.graph := by
  obtain ⟨b₁, he, hf⟩ := Option.bind_eq_some_iff.1 (Option.mem_toList.1 h)
  refine grounded_fill ?_ hf
  have hends := forall_edge_of_mem_candidates (q := fun e => s.graph.hasToken e.governor ∧ s.graph.hasToken e.dependent) hs.ends hc
  unfold Bindings.bindEdge at he
  split at he
  · rename_i name e _ hedge
    split at he
    · cases he
      refine ⟨hb.nodes, List.forall_mem_append.2 ⟨hb.edges, ?_⟩⟩
      intro entry hentry
      rw [List.mem_singleton.1 hentry]
      exact hends e hedge
    · split at he <;> cases he
      exact hb
  · cases he
    exact hb

/-- What a match binds is there, if what is bound from the start is. -/
theorem grounded_all {m : Matcher} (hs : m.scope.graph.Sound) (hinitial : ∀ entry ∈ m.initial, m.scope.graph.hasToken entry.2)
    {found : Match} (h : found ∈ m.all) : found.bindings.Grounded m.scope.graph := by
  unfold Matcher.all at h
  split at h
  · cases h
  · obtain ⟨q, hq, h⟩ := List.mem_flatMap.1 h
    obtain ⟨b, hb, rfl⟩ := List.mem_map.1 h
    have hpart := keeps_part (P := (·.Grounded m.scope.graph)) (grounded_reach hs) grounded_fill ⟨hinitial, by simp⟩ hq
    exact keeps_solveParts (P := (·.Grounded m.scope.graph)) (grounded_reach hs) grounded_fill hpart hb

/-! ## Conjunctions -/

/-- Whether a constraint is an optional one, or one of alternatives. -/
def Constraint.isOptionalOrAny : Constraint → Bool
  | any _ _ => true
  | c => c.mode == .optional

end Pattern

/-- Whether a pattern has no optional constraint and no alternatives, at any depth. -/
def Pattern.isConjunctive (p : Pattern) : Bool := p.constraints.all (!·.isOptionalOrAny)

namespace Pattern

variable {s : Scope} {m : Mention}

theorem mem_under_iff {u : Bool} {ms : Mentions} : (false, m) ∈ under u ms ↔ u = false ∧ (false, m) ∈ ms := by
  unfold under
  cases u <;> simp

/-- A constraint with nothing optional in it is not optional itself. -/
theorem Constraint.mode_ne_optional {c : Constraint} (hc : ∀ d ∈ c.nested, d.isOptionalOrAny = false) : c.mode ≠ .optional := by
  cases c with
  | relation mode operator target inner =>
    cases inner with
    | none => simpa [nested, isOptionalOrAny, Constraint.mode] using hc
    | some inner =>
      rw [nested, List.forall_mem_cons] at hc
      simpa [isOptionalOrAny, Constraint.mode] using hc.1
  | all mode children =>
    rw [nested, List.forall_mem_cons] at hc
    simpa [isOptionalOrAny, Constraint.mode] using hc.1
  | any mode children =>
    rw [nested, List.forall_mem_cons] at hc
    cases hc.1

theorem mem_certain_of_mode {mode : Mode} (hmode : mode ≠ .optional) {ms ms' : Mentions}
    (hms : (false, m) ∈ ms → (false, m) ∈ ms') (h : (false, m) ∈ under (mode == .negated) ms) :
    (false, m) ∈ mode.certain ms' := by
  obtain ⟨hnegated, hm⟩ := mem_under_iff.1 h
  cases mode with
  | plain => exact hms hm
  | negated => cases hnegated
  | optional => exact absurd rfl hmode

mutual
/-- In a conjunctive constraint all is certain that is outside of negations. -/
theorem mem_certain {c : Constraint} (hc : ∀ d ∈ c.nested, d.isOptionalOrAny = false) (h : (false, m) ∈ c.mentions) :
    (false, m) ∈ c.certain := by
  match c with
  | .relation mode operator target none => exact mem_certain_of_mode (Constraint.mode_ne_optional hc) id h
  | .relation mode operator target (some inner) =>
    refine mem_certain_of_mode (Constraint.mode_ne_optional hc) (fun h => ?_) h
    rw [Constraint.nested, List.forall_mem_cons] at hc
    rcases List.mem_append.1 h with h | h
    · exact List.mem_append_left _ h
    · exact List.mem_append_right _ (mem_certain hc.2 h)
  | .all mode children =>
    have hmode : mode ≠ .optional := Constraint.mode_ne_optional hc
    rw [Constraint.nested, List.forall_mem_cons] at hc
    exact mem_certain_of_mode hmode (mem_certainOf hc.2) h
  | .any mode children =>
    rw [Constraint.nested, List.forall_mem_cons] at hc
    cases hc.1

/-- So it is for conjunctive constraints. -/
theorem mem_certainOf {cs : List Constraint} (hcs : ∀ d ∈ nestedIn cs, d.isOptionalOrAny = false) (h : (false, m) ∈ mentioned cs) :
    (false, m) ∈ certainOf cs := by
  match cs with
  | [] => cases h
  | c :: cs =>
    rw [nestedIn, List.forall_mem_append] at hcs
    rcases List.mem_append.1 h with h | h
    · exact List.mem_append_left _ (mem_certain hcs.1 h)
    · exact List.mem_append_right _ (mem_certainOf hcs.2 h)
end

/-- So it is for a part of conjunctive constraints. -/
theorem mem_certain_part {p : Part} (hp : ∀ d ∈ nestedIn p.constraint.toList, d.isOptionalOrAny = false)
    (h : (false, m) ∈ p.mentions) : (false, m) ∈ p.certain := by
  rcases List.mem_append.1 h with h | h
  · exact List.mem_append_left _ h
  · exact List.mem_append_right _ (mem_certainOf hp h)

/-- The constraints of a conjunctive pattern, part by part. -/
theorem forall_nestedIn_of_conjunctive {p : Pattern} (hp : p.isConjunctive) :
    ∀ part ∈ p.parts, ∀ d ∈ nestedIn part.constraint.toList, d.isOptionalOrAny = false := by
  intro part hpart d hd
  simpa using List.all_eq_true.1 hp d (List.mem_flatMap.2 ⟨part, hpart, hd⟩)

/-- In a conjunctive pattern all is certain that is outside of negations. -/
theorem mem_certain_of_conjunctive {p : Pattern} (hp : p.isConjunctive) (h : (false, m) ∈ p.mentions) : (false, m) ∈ p.certain := by
  obtain ⟨part, hpart, h⟩ := List.mem_flatMap.1 h
  exact List.mem_flatMap.2 ⟨part, hpart, mem_certain_part (forall_nestedIn_of_conjunctive hp part hpart) h⟩

/-- All names of a conjunctive pattern that was read are certain to be bound. -/
theorem certain_of_conjunctive {o : PatternOptions} {text : String} {p : Pattern} (h : ofText o text = .ok p) (hp : p.isConjunctive) :
    (∀ x ∈ p.nodeNames, x ∈ nodesOf p.certain) ∧ ∀ x ∈ p.edgeNames, x ∈ edgesOf p.certain := by
  obtain ⟨names, htracks, hnodes, hedges⟩ := tracks_ofText h
  constructor
  · intro x hx
    rw [hnodes, htracks.mem_nodes_iff] at hx
    obtain ⟨d, hd⟩ := htracks.exists_node hx
    exact mem_nodesOf.2 ⟨false, d, mem_certain_of_conjunctive hp hd⟩
  · intro x hx
    rw [hedges, htracks.mem_edges_iff] at hx
    exact mem_edgesOf.2 ⟨false, mem_certain_of_conjunctive hp (htracks.exists_edge hx)⟩

end Pattern

end Treebank

import Treebank.Proofs.Edit.Rooted
import Treebank.Proofs.Edit.Shape
import Treebank.Proofs.Edit.Steps

/-!
# What edits leave alone

Each kind of edit changes what it is for, and nothing else: `Effect` says for each what the workspace is like after it, given what it was
like before. Done step by step, an edit either fails for a name and leaves the workspace as it was, or succeeds with its effect
(`steps_fail_or_effect`).
-/

namespace Treebank

namespace Graph

variable {g : Graph} {a b : Arc} {e : Edge}

/-! ## Graphs without edges -/

/-- At most one stored edge is equal to an edge. -/
theorem Sound.same_iff_eq (hg : g.Sound) (ha : a ∈ g.arcs) (hs : a.edge.same e) (hb : b ∈ g.arcs) : b.edge.same e ↔ b = a := by
  constructor
  · exact fun hs' => hg.eq_of_same hb ha (Edge.same_trans hs' ((Edge.same_comm _ _).1 hs))
  · rintro rfl
    exact hs

/-- Without a stored edge a graph has the others. -/
theorem Sound.withoutEdge_eq_erase (hg : g.Sound) (ha : a ∈ g.arcs) (hs : a.edge.same e) :
    (g.withoutEdge e).Sound ∧ ∃ free, g.withoutEdge e = { g with arcs := g.arcs.erase a, free := free } := by
  obtain ⟨hok, hsound, -⟩ := removeEdge_succeeds hg (List.any_eq_true.2 ⟨a, ha, hs⟩)
  obtain ⟨b, hb, hs', heq⟩ := removeEdge_eq_ok hok
  obtain rfl := (hg.same_iff_eq ha hs hb).1 hs'
  have harcs : g.arcs.filter (·.slot != b.slot) = g.arcs.erase b := by
    rw [(List.Nodup.of_map _ hg.slots.nodup_used).erase_eq_filter]
    refine List.filter_congr fun c hc => ?_
    rw [bne, bne, Bool.not_inj_iff, Bool.eq_iff_iff, beq_iff_eq, beq_iff_eq]
    exact ⟨hg.eq_of_slot hc hb, congrArg _⟩
  exact ⟨hsound, _, harcs ▸ heq⟩

/-- What is left of a sound graph without an edge, stored or not. -/
theorem Sound.withoutEdge_eq_filter (hg : g.Sound) (e : Edge) :
    (g.withoutEdge e).Sound ∧ ∃ free, g.withoutEdge e = { g with arcs := g.arcs.filter fun a => !a.edge.same e, free := free } := by
  by_cases hstored : ∃ a ∈ g.arcs, a.edge.same e
  · obtain ⟨a, ha, hs⟩ := hstored
    have harcs : g.arcs.erase a = g.arcs.filter fun b => !b.edge.same e := by
      rw [(List.Nodup.of_map _ hg.slots.nodup_used).erase_eq_filter]
      refine List.filter_congr fun b hb => ?_
      rw [bne, Bool.not_inj_iff, Bool.eq_iff_iff, beq_iff_eq, hg.same_iff_eq ha hs hb]
    exact harcs ▸ hg.withoutEdge_eq_erase ha hs
  · have hnone : ∀ a ∈ g.arcs, ¬ a.edge.same e := fun a ha hs => hstored ⟨a, ha, hs⟩
    rw [withoutEdge_eq_self hnone, List.filter_eq_self.2 fun a ha => by simpa using hnone a ha]
    exact ⟨hg, g.free, rfl⟩

/-- What is left of a sound graph without some edges. -/
theorem Sound.withoutEdges_eq_filter (hg : g.Sound) (es : List Edge) :
    (g.withoutEdges es).Sound ∧ ∃ free, g.withoutEdges es = { g with arcs := g.arcs.filter fun a => !es.any a.edge.same, free := free } := by
  induction es generalizing g with
  | nil => exact ⟨hg, g.free, by simp [withoutEdges]⟩
  | cons e es ih =>
    obtain ⟨hsound, free, heq⟩ := hg.withoutEdge_eq_filter e
    obtain ⟨hsound', free', heq'⟩ := ih hsound
    refine ⟨hsound', free', ?_⟩
    rw [show g.withoutEdges (e :: es) = (g.withoutEdge e).withoutEdges es from rfl, heq', heq]
    simp only [List.filter_filter, List.any_cons, Bool.not_or, Bool.and_comm]

/-- Without the edges into a token a graph has those into others. -/
theorem Sound.withoutEdges_incoming_eq (hg : g.Sound) (index : Int) : (g.withoutEdges (g.incoming index)).Sound ∧
    ∃ free, g.withoutEdges (g.incoming index) = { g with arcs := g.arcs.filter fun a => a.edge.dependent != index, free := free } := by
  have harcs : (g.arcs.filter fun a => !(g.incoming index).any a.edge.same) = g.arcs.filter fun a => a.edge.dependent != index := by
    refine List.filter_congr fun a ha => ?_
    rw [bne, Bool.not_inj_iff, Bool.eq_iff_iff, beq_iff_eq, List.any_eq_true]
    constructor
    · rintro ⟨e, he, hs⟩
      obtain ⟨b, hb, rfl⟩ := List.mem_map.1 (Order.mem_sortBy.1 he)
      rw [(Edge.ends_of_same hs).2]
      exact eq_of_beq (List.mem_filter.1 hb).2
    · rintro rfl
      exact ⟨a.edge, Order.mem_sortBy.2 (List.mem_map_of_mem (List.mem_filter.2 ⟨ha, beq_self_eq_true _⟩)), Edge.same_refl _⟩
  exact harcs ▸ hg.withoutEdges_eq_filter (g.incoming index)

/-- The query for the edges with the ends and the relation of an edge. -/
def EdgeQuery.like (e : Edge) : EdgeQuery := { governor := e.governor, dependent := e.dependent, relation := some e.relation }

theorem EdgeQuery.asks_like (e : Edge) : (EdgeQuery.like e).asks e := by
  simp [EdgeQuery.asks, EdgeQuery.accepts, EdgeQuery.like]

end Graph

namespace Edit

open Treebank.Graph

variable {w w' w'' : Workspace} {r : Removal} {governor dependent : String}

/-! ## Edges -/

/-- A workspace with other edges, in whatever slots are free then, and nothing else changed. -/
def Workspace.Relinked (w : Workspace) (arcs : List Arc) (w' : Workspace) : Prop :=
  ∃ free fresh, w' = w.over { w.graph with arcs := arcs, free := free, fresh := fresh }

/-- The names are as they were. -/
theorem Workspace.Relinked.node_eq {arcs : List Arc} (h : w.Relinked arcs w') (name : String) : w'.node name = w.node name := by
  obtain ⟨free, fresh, rfl⟩ := h
  rfl

/-- Edges changed twice. -/
theorem Workspace.Relinked.trans {arcs arcs' : List Arc} (h : w.Relinked arcs w') (h' : w'.Relinked arcs' w'') :
    w.Relinked arcs' w'' := by
  obtain ⟨free, fresh, rfl⟩ := h
  obtain ⟨free', fresh', rfl⟩ := h'
  exact ⟨free', fresh', rfl⟩

/-- Whether a removal asks for an edge: one that is equal to the edge that the name is bound to, or else one between the two tokens, of the
relation if one is named. -/
def Removal.Asks (r : Removal) (w : Workspace) (e : Edge) : Prop :=
  match given? r.edge with
  | some name => ∃ f, w.edge name = .ok f ∧ e.same f
  | none => ∃ i j, w.node (r.governor.getD "") = .ok i ∧ w.node (r.dependent.getD "") = .ok j ∧
    ({ governor := i, dependent := j, relation := r.relation } : EdgeQuery).asks e

/-- One edge that is asked for goes, unless there is none. -/
def Removal.Effect (r : Removal) (w w' : Workspace) : Prop :=
  (∀ a ∈ w.graph.arcs, ¬ r.Asks w a.edge) ∧ w' = w ∨ ∃ a ∈ w.graph.arcs, r.Asks w a.edge ∧ w.Relinked (w.graph.arcs.erase a) w'

/-- A stored edge is removed. -/
theorem relinked_withoutEdge (hw : w.graph.Sound) {a : Arc} (ha : a ∈ w.graph.arcs) {e : Edge} (hs : a.edge.same e) :
    w.Relinked (w.graph.arcs.erase a) (w.over (w.graph.withoutEdge e)) := by
  obtain ⟨-, free, heq⟩ := hw.withoutEdge_eq_erase ha hs
  exact ⟨free, w.graph.fresh, congrArg w.over heq⟩

theorem Removal.effect (hw : w.graph.Sound) (h : r.apply w = .ok w') : r.Effect w w' := by
  unfold Removal.apply at h
  unfold Removal.Effect Removal.Asks
  generalize given? r.edge = name at h ⊢
  cases name with
  | some name =>
    obtain ⟨e, he, h⟩ := bind_eq_ok_iff.1 h
    obtain ⟨is, -, h⟩ := bind_eq_ok_iff.1 h
    cases h
    by_cases hstored : ∃ a ∈ w.graph.arcs, a.edge.same e
    · obtain ⟨a, ha, hs⟩ := hstored
      exact .inr ⟨a, ha, ⟨e, he, hs⟩, relinked_withoutEdge hw ha hs⟩
    · have hnone : ∀ a ∈ w.graph.arcs, ¬ a.edge.same e := fun a ha hs => hstored ⟨a, ha, hs⟩
      refine .inl ⟨fun a ha ⟨f, hf, hs⟩ => ?_, congrArg w.over (withoutEdge_eq_self hnone)⟩
      rw [he] at hf
      cases hf
      exact hnone a ha hs
  | none =>
    obtain ⟨i, hi, h⟩ := bind_eq_ok_iff.1 h
    obtain ⟨j, hj, h⟩ := bind_eq_ok_iff.1 h
    cases h
    cases hfind : w.graph.edge? { governor := i, dependent := j, relation := r.relation } with
    | none =>
      refine .inl ⟨?_, ?_⟩
      · rintro a ha ⟨i', j', hi', hj', hasks⟩
        rw [hi] at hi'
        rw [hj] at hj'
        cases hi'
        cases hj'
        exact hw.edge?_eq_none hfind a ha hasks
      · rw [withoutFirst, hfind]
        rfl
    | some e =>
      obtain ⟨⟨a, ha, rfl⟩, hasks, -⟩ := edge?_eq_some hfind
      refine .inr ⟨a, ha, ⟨i, j, hi, hj, hasks⟩, ?_⟩
      rw [withoutFirst, hfind]
      exact relinked_withoutEdge hw ha (Edge.same_refl _)

/-- An edge comes, unless there is one with its ends and its relation. -/
def Joins (w : Workspace) (e : Edge) (w' : Workspace) : Prop :=
  (∃ a ∈ w.graph.arcs, (EdgeQuery.like e).asks a.edge) ∧ w' = w ∨
    (∀ a ∈ w.graph.arcs, ¬ (EdgeQuery.like e).asks a.edge) ∧ ∃ slot, w.Relinked (⟨slot, e⟩ :: w.graph.arcs) w'

/-- After that there is an edge with its ends and its relation. -/
theorem Joins.exists_like {e : Edge} (h : Joins w e w') : ∃ a ∈ w'.graph.arcs, (EdgeQuery.like e).asks a.edge := by
  rcases h with ⟨hold, rfl⟩ | ⟨-, slot, free, fresh, rfl⟩
  · exact hold
  · exact ⟨⟨slot, e⟩, List.mem_cons_self .., EdgeQuery.asks_like e⟩

theorem Joins.node_eq {e : Edge} (h : Joins w e w') (name : String) : w'.node name = w.node name := by
  rcases h with ⟨-, rfl⟩ | ⟨-, slot, hlinked⟩
  · rfl
  · exact hlinked.node_eq name

theorem joins_withRelation (hw : w.graph.Sound) {e : Edge} (hgovernor : w.graph.hasToken e.governor)
    (hdependent : w.graph.hasToken e.dependent) : Joins w e (w.over (w.graph.withRelation e)) := by
  unfold withRelation
  cases hfind : w.graph.edge? (EdgeQuery.like e) with
  | some f =>
    obtain ⟨⟨a, ha, rfl⟩, hasks, -⟩ := edge?_eq_some hfind
    refine .inl ⟨⟨a, ha, hasks⟩, ?_⟩
    rw [EdgeQuery.like] at hfind
    rw [hfind]
    rfl
  | none =>
    have hnone := hw.edge?_eq_none hfind
    have hnew : w.graph.contains e = false := by
      refine List.any_eq_false.2 fun a ha hs => hnone a ha ?_
      exact (EdgeQuery.asks_of_same hs).2 (EdgeQuery.asks_like e)
    obtain ⟨slot, free, fresh, heq⟩ := hw.withEdge_eq_cons hgovernor hdependent hnew
    refine .inr ⟨hnone, slot, free, fresh, ?_⟩
    rw [EdgeQuery.like] at hfind
    rw [hfind, ← heq]
    rfl

/-- Whether a removal is one of an edge with the ends and the relation of a given edge, by whatever names. -/
structure Removal.IsFor (r : Removal) (w : Workspace) (e : Edge) : Prop where
  unnamed : given? r.edge = none
  governor : w.node (r.governor.getD "") = .ok e.governor
  dependent : w.node (r.dependent.getD "") = .ok e.dependent
  relation : r.relation = some e.relation

/-- Such a removal asks for the edges with these ends and this relation. -/
theorem Removal.IsFor.asks_iff {e f : Edge} (hr : r.IsFor w e) : r.Asks w f ↔ (EdgeQuery.like e).asks f := by
  unfold Removal.Asks EdgeQuery.like
  rw [hr.unnamed, hr.governor, hr.dependent, hr.relation]
  constructor
  · rintro ⟨i, j, hi, hj, hasks⟩
    cases hi
    cases hj
    exact hasks
  · exact fun hasks => ⟨_, _, rfl, rfl, hasks⟩

theorem Removal.IsFor.apply_eq {e : Edge} (hr : r.IsFor w e) : r.apply w = .ok (w.over (w.graph.withoutFirst (EdgeQuery.like e))) := by
  unfold Removal.apply EdgeQuery.like
  rw [hr.unnamed, hr.governor, hr.dependent, hr.relation]
  rfl

/-- An edge that came goes again when one with its ends and its relation is removed, if there was none before. -/
theorem Joins.undone {e : Edge} (h : Joins w e w') (hw' : w'.graph.Sound) (habsent : ∀ a ∈ w.graph.arcs, ¬ (EdgeQuery.like e).asks a.edge)
    (hr : r.IsFor w e) : ∃ w'', r.apply w' = .ok w'' ∧ w.Relinked w.graph.arcs w'' := by
  have hr' : r.IsFor w' e := ⟨hr.unnamed, (h.node_eq _).trans hr.governor, (h.node_eq _).trans hr.dependent, hr.relation⟩
  obtain ⟨b, hb, hasks⟩ := h.exists_like
  refine ⟨_, hr'.apply_eq, ?_⟩
  rcases Removal.effect hw' hr'.apply_eq with ⟨hnone, -⟩ | ⟨a, ha, haasks, hlinked⟩
  · exact absurd (hr'.asks_iff.2 hasks) (hnone b hb)
  · rcases h with ⟨⟨c, hc, hcasks⟩, -⟩ | ⟨-, slot, hcame⟩
    · exact absurd hcasks (habsent c hc)
    · -- Of the edges that are there now only the new one is asked for.
      have harcs : w'.graph.arcs = ⟨slot, e⟩ :: w.graph.arcs := by
        obtain ⟨free, fresh, rfl⟩ := hcame
        rfl
      rw [harcs] at ha hlinked
      rcases List.mem_cons.1 ha with rfl | ha
      · rw [List.erase_cons_head] at hlinked
        exact hcame.trans hlinked
      · exact absurd (hr'.asks_iff.1 haasks) (habsent a ha)

/-- What adding an edge does: it comes, unless there is one with its ends and its relation. To add it again changes nothing, and to remove
one with its ends and its relation brings back the edges that were there, if none of them was such an edge. -/
structure Adds (w : Workspace) (governor dependent : String) (e : Edge) (w' : Workspace) : Prop where
  source : w.node governor = .ok e.governor
  target : w.node dependent = .ok e.dependent
  joins : Joins w e w'
  repeated : (addEdge governor dependent e.relation e.weight e.extra).steps.outcome w' = (.ok (), w')
  undone : (∀ a ∈ w.graph.arcs, ¬ (EdgeQuery.like e).asks a.edge) → ∀ r : Removal, r.IsFor w e →
    ∃ w'', (removeEdge r).steps.outcome w' = (.ok (), w'') ∧ w.Relinked w.graph.arcs w''

theorem apply_addEdge {e : Edge} (hgovernor : w.node governor = .ok e.governor) (hdependent : w.node dependent = .ok e.dependent) :
    (addEdge governor dependent e.relation e.weight e.extra).apply w = .ok (w.over (w.graph.withRelation e)) := by
  rw [apply, hgovernor, hdependent]
  rfl

theorem adds_withRelation (hw : w.graph.Sound) {e : Edge} (hgovernor : w.node governor = .ok e.governor)
    (hdependent : w.node dependent = .ok e.dependent) : Adds w governor dependent e (w.over (w.graph.withRelation e)) := by
  have hjoins := joins_withRelation hw (hasToken_of_node hgovernor) (hasToken_of_node hdependent)
  have hw' := (checkedApply_agrees hw _).sound _ (apply_addEdge hgovernor hdependent)
  generalize w.over (w.graph.withRelation e) = w' at hjoins hw'
  have hgovernor' : w'.node governor = .ok e.governor := (hjoins.node_eq governor).trans hgovernor
  have hdependent' : w'.node dependent = .ok e.dependent := (hjoins.node_eq dependent).trans hdependent
  refine ⟨hgovernor, hdependent, hjoins, ?_, fun habsent r hr => ?_⟩
  · obtain ⟨a, ha, hasks⟩ := hjoins.exists_like
    have hagain : w'.over (w'.graph.withRelation e) = w' := by
      rcases joins_withRelation hw' (hasToken_of_node hgovernor') (hasToken_of_node hdependent') with ⟨-, hsame⟩ | ⟨hnone, -⟩
      · exact hsame
      · exact absurd hasks (hnone a ha)
    rw [outcome_steps hw', apply_addEdge hgovernor' hdependent', hagain]
  · obtain ⟨w'', happly, hlinked⟩ := hjoins.undone hw' habsent hr
    have happly : (removeEdge r).apply w' = .ok w'' := happly
    refine ⟨w'', ?_, hlinked⟩
    rw [outcome_steps hw', happly]

/-! ## Tokens -/

/-- A workspace with a token more, under an index that no token has, with the given edges, and with a name for the token, if one is given;
nothing else has changed. -/
def Workspace.Grown (w : Workspace) (t : Token) (arcs : List Arc) (name : Option String) (w' : Workspace) : Prop :=
  w.graph.hasToken t.index = false ∧ ∃ tokens free fresh, tokens.Perm ((t.index, t) :: w.graph.tokens) ∧
    w' = (w.over { w.graph with tokens := tokens, arcs := arcs, free := free, fresh := fresh }).bind name t.index

/-! ## Edits -/

/-- What an edit that succeeds makes of a workspace. -/
def Effect (w w' : Workspace) : Edit → Prop
  | removeEdge r => r.Effect w w'
  | addEdge governor dependent relation weight extra => ∃ i j, Adds w governor dependent ⟨i, j, relation, weight, extra⟩ w'
  | addDependent governor relation attributes name weight => ∃ i position slot, w.node governor = .ok i ∧
    w.graph.leftmostPosition i = .ok position ∧
    w.Grown (Token.ofAttributes w.graph.nextIndex position attributes)
      (⟨slot, ⟨i, w.graph.nextIndex, relation, weight, false⟩⟩ :: w.graph.arcs) name w'
  | delete node => ∃ top, w.node node = .ok top ∧ w'.bindings = w.bindings ∧ Pruned w.graph top w'.graph
  | addNode attributes name =>
    w.Grown (Token.ofAttributes w.graph.nextIndex w.graph.nextIndex attributes) w.graph.arcs name w'
  | setRoots names => ∃ indices, names.mapM w.node = .ok indices ∧ w' = w.over { w.graph with roots := Order.distinct indices }
  | killNonRootedNodes => w'.bindings = w.bindings ∧ w.graph.Kept w'.graph
  | killAllIncomingEdges node => ∃ i, w.node node = .ok i ∧ w.Relinked (w.graph.arcs.filter fun a => a.edge.dependent != i) w'

/-- An edit that succeeds has its effect. -/
theorem effect_apply (hw : w.graph.Sound) {e : Edit} (h : e.apply w = .ok w') : e.Effect w w' := by
  have hnew : ∀ (position : Int) (attributes : Attributes),
      w.graph.hasToken (Token.ofAttributes w.graph.nextIndex position attributes).index = false := by
    intro position attributes
    rw [Token.index_ofAttributes]
    exact hw.hasToken_nextIndex
  cases e with
  | removeEdge r => exact Removal.effect hw h
  | addEdge governor dependent relation weight extra =>
    obtain ⟨i, hi, h⟩ := bind_eq_ok_iff.1 h
    obtain ⟨j, hj, h⟩ := bind_eq_ok_iff.1 h
    cases h
    exact ⟨i, j, adds_withRelation hw (e := ⟨i, j, relation, weight, extra⟩) hi hj⟩
  | addDependent governor relation attributes name weight =>
    obtain ⟨i, hi, h⟩ := bind_eq_ok_iff.1 h
    cases h
    obtain ⟨position, -, hposition⟩ := checkedLeftmostPosition_eq hw (hasToken_of_node hi)
    obtain ⟨-, slot, free, fresh, heq⟩ := withLeaf_eq hw (hnew position attributes)
      (e := ⟨i, w.graph.nextIndex, relation, weight, false⟩) (hasToken_of_node hi) (Token.index_ofAttributes ..).symm
    refine ⟨i, position, slot, hi, hposition, hnew position attributes, _, free, fresh, perm_putEntry .., ?_⟩
    rw [hposition, ← heq, Token.index_ofAttributes]
    rfl
  | delete node =>
    obtain ⟨top, htop, h⟩ := bind_eq_ok_iff.1 h
    cases h
    exact ⟨top, htop, rfl, (hw.pruned top).2⟩
  | addNode attributes name =>
    cases h
    obtain ⟨hok, -⟩ := addToken_succeeds hw (hnew w.graph.nextIndex attributes)
    obtain ⟨-, hwith⟩ := addToken_eq_ok hok
    refine ⟨hnew _ attributes, _, w.graph.free, w.graph.fresh, perm_putEntry .., ?_⟩
    rw [hwith, Token.index_ofAttributes]
  | setRoots names =>
    obtain ⟨indices, hindices, h⟩ := bind_eq_ok_iff.1 h
    cases h
    obtain ⟨hok, -⟩ := setRoots_succeeds hw (hasToken_of_mapM_node hindices)
    exact ⟨indices, hindices, congrArg w.over (setRoots_eq_ok hok).2⟩
  | killNonRootedNodes =>
    cases h
    exact ⟨rfl, hw.kept.2⟩
  | killAllIncomingEdges node =>
    obtain ⟨i, hi, h⟩ := bind_eq_ok_iff.1 h
    cases h
    obtain ⟨-, free, heq⟩ := hw.withoutEdges_incoming_eq i
    exact ⟨i, hi, free, w.graph.fresh, congrArg w.over heq⟩

/-- Done step by step, an edit of a sound graph fails for a name and leaves the workspace as it was, tokens, edges, roots and bindings, or
it succeeds and has its effect. -/
theorem steps_fail_or_effect (hw : w.graph.Sound) (e : Edit) :
    match e.apply w with
    | .error err => e.steps.outcome w = (.error (.reference err), w)
    | .ok w' => e.steps.outcome w = (.ok (), w') ∧ w'.graph.Sound ∧ e.Effect w w' := by
  have hsteps := outcome_steps hw e
  cases happly : e.apply w with
  | error err =>
    rw [happly] at hsteps
    exact hsteps
  | ok w' =>
    rw [happly] at hsteps
    exact ⟨hsteps, (checkedApply_agrees hw e).sound w' happly, effect_apply hw happly⟩

/-- So it is where a plain and an extra edge have the same ends and the same relation, of which one is removed, and where the last of two
tokens to be made roots is gone. -/
theorem steps_fail_or_effect_twins :
    let w : Workspace :=
      { graph :=
          { tokens := [(0, { index := 0 }), (1, { index := 1 })]
            arcs := [⟨1, ⟨0, 1, "a", .one, true⟩⟩, ⟨0, ⟨0, 1, "a", .one, false⟩⟩]
            fresh := 2
            roots := [0] }
        bindings := { nodes := [("x", 0), ("y", 1), ("z", 2)] } }
    let r : Removal := { governor := some "x", dependent := some "y", relation := some "a", targeted := rfl }
    (∃ w', (removeEdge r).steps.outcome w = (.ok (), w') ∧ w'.graph.Sound ∧ (removeEdge r).Effect w w' ∧
        w'.graph.arcs = [⟨1, ⟨0, 1, "a", .one, true⟩⟩]) ∧
      (setRoots ["x", "z"]).steps.outcome w = (.error (.reference (.nodeGone "z" 2)), w) := by
  intro w r
  have hw : w.graph.Sound :=
    (sound_empty.run [.addToken { index := 0 }, .addToken { index := 1 }, .addEdge ⟨0, 1, "a", .one, false⟩,
      .addEdge ⟨0, 1, "a", .one, true⟩, .setRoots [0]]).1
  have hremoval := steps_fail_or_effect hw (removeEdge r)
  have hroots := steps_fail_or_effect hw (setRoots ["x", "z"])
  obtain ⟨w', happly, harcs⟩ := exists_ok_of_map_toOption (x := (removeEdge r).apply w) (g := fun w' => w'.graph.arcs)
    (b := [⟨1, ⟨0, 1, "a", .one, true⟩⟩]) (by decide)
  have hgone : (setRoots ["x", "z"]).apply w = .error (.nodeGone "z" 2) := by decide
  rw [happly] at hremoval
  rw [hgone] at hroots
  obtain ⟨houtcome, hsound, heffect⟩ := hremoval
  exact ⟨⟨w', houtcome, hsound, heffect, harcs⟩, hroots⟩

end Edit

end Treebank

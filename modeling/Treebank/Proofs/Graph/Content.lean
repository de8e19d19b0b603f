import Treebank.Proofs.Graph.Sound
import Mathlib.Data.Set.Insert
import Mathlib.Logic.Function.Basic

/-!
# The content of a graph

What a graph says, apart from how it is stored: which token each index has, which edges there are, and which tokens are roots. A
step on contents says what an operation does to these three, and when it fails; every operation on a sound graph is such a step
(`Sound.step`), and so is a run, one operation after the other (`Sound.run`).
-/

namespace Treebank.Graph

/-- What a graph says. A set of edges holds either all edges that are equal to an edge or none of them. -/
structure Content where
  token : Int → Option Token
  edges : Set Edge
  roots : Set Int

/-- The edges that are equal to an edge. -/
def equals (e : Edge) : Set Edge := {f | e.same f}

/-- Whether an edge is asked for, its governor included. -/
def EdgeQuery.asks (q : EdgeQuery) (e : Edge) : Prop := e.governor = q.governor ∧ q.accepts e

namespace Content

/-- Whether an index has a token. -/
def Has (c : Content) (index : Int) : Prop := (c.token index).isSome

/-- Nothing at all. -/
def empty : Content := ⟨fun _ => none, ∅, ∅⟩

/-- The ordinary tokens without a plain edge into them. -/
def headless (c : Content) : Set Int :=
  {index | ∃ t, c.token index = some t ∧ t.isEmptyNode = false ∧ ∀ e ∈ c.edges, e.dependent = index → e.extra = true}

/-- What an operation does: the fault with which it fails, if it does, and the content afterwards. -/
inductive Step (c : Content) : Operation → Option GraphError → Content → Prop where
  | addToken {t : Token} (new : ¬ c.Has t.index) :
      Step c (.addToken t) none { c with token := Function.update c.token t.index (some t) }
  | addTokenFails {t : Token} (old : c.Has t.index) : Step c (.addToken t) (some (.tokenExists t.index)) c
  | removeToken {index : Int} (here : c.Has index) :
      Step c (.removeToken index) none
        { token := Function.update c.token index none
          edges := {e ∈ c.edges | e.governor ≠ index ∧ e.dependent ≠ index}
          roots := c.roots \ {index} }
  | removeTokenFails {index : Int} (gone : ¬ c.Has index) : Step c (.removeToken index) (some (.tokenMissing index)) c
  | addEdge {e : Edge} (governor : c.Has e.governor) (dependent : c.Has e.dependent) :
      Step c (.addEdge e) none { c with edges := c.edges ∪ equals e }
  | addEdgeFailsAbove {e : Edge} (governor : ¬ c.Has e.governor) :
      Step c (.addEdge e) (some (.tokenMissing e.governor)) c
  | addEdgeFailsBelow {e : Edge} (governor : c.Has e.governor) (dependent : ¬ c.Has e.dependent) :
      Step c (.addEdge e) (some (.tokenMissing e.dependent)) c
  | removeFirst {q : EdgeQuery} {e : Edge} (here : e ∈ c.edges) (asked : q.asks e)
      (first : ∀ f ∈ c.edges, q.asks f → (Edge.cmpLabel e f).isLE) :
      Step c (.removeFirst q) none { c with edges := c.edges \ equals e }
  | removeNone {q : EdgeQuery} (none : ∀ e ∈ c.edges, ¬ q.asks e) : Step c (.removeFirst q) Option.none c
  | removeEdge {e : Edge} (here : e ∈ c.edges) : Step c (.removeEdge e) none { c with edges := c.edges \ equals e }
  | removeEdgeFails {e : Edge} (gone : e ∉ c.edges) :
      Step c (.removeEdge e) (some (.edgeMissing e.governor e.dependent e.relation)) c
  | setRoots {indices : List Int} (here : ∀ index ∈ indices, c.Has index) :
      Step c (.setRoots indices) none { c with roots := {index | index ∈ indices} }
  | setRootsFails {indices : List Int} {index : Int} (among : index ∈ indices) (gone : ¬ c.Has index) :
      Step c (.setRoots indices) (some (.tokenMissing index)) c
  | addRoot {index : Int} (here : c.Has index) : Step c (.addRoot index) none { c with roots := insert index c.roots }
  | addRootFails {index : Int} (gone : ¬ c.Has index) : Step c (.addRoot index) (some (.tokenMissing index)) c
  | resetRoots (some : c.headless.Nonempty) : Step c .resetRoots none { c with roots := c.headless }
  | keepRoots (none : c.headless = ∅) : Step c .resetRoots Option.none c
  | copy : Step c .copy none { c with token := fun index => (c.token index).map Token.placed }

/-- What a run of operations does. -/
inductive Run : Content → List Operation → List (Option GraphError) → Content → Prop where
  | nil (c : Content) : Run c [] [] c
  | cons {c c' c'' : Content} {op : Operation} {fault : Option GraphError} {ops : List Operation}
      {faults : List (Option GraphError)} (step : Step c op fault c') (rest : Run c' ops faults c'') :
      Run c (op :: ops) (fault :: faults) c''

end Content

/-- The content of a graph. -/
def content (g : Graph) : Content where
  token := g.token?
  edges := {e | g.contains e}
  roots := {index | index ∈ g.roots}

variable {g g' : Graph}

theorem has_content {index : Int} : g.content.Has index ↔ g.hasToken index := Iff.rfl

/-- The edges of a graph are those that are equal to a stored one. -/
theorem mem_edges_content {e : Edge} : e ∈ g.content.edges ↔ ∃ a ∈ g.arcs, a.edge.same e := List.any_eq_true

/-- The empty graph says nothing at all. -/
theorem content_empty : content {} = .empty := by
  unfold content Content.empty
  congr 1
  · ext e
    simp [contains]
  · ext index
    simp

/-- A query accepts with an edge all edges that are equal to it. -/
theorem EdgeQuery.asks_of_same {q : EdgeQuery} {e f : Edge} (h : e.same f) : q.asks e ↔ q.asks f := by
  have := (Edge.same_iff e f).1 h
  simp only [Edge.mk.injEq] at this
  unfold EdgeQuery.asks EdgeQuery.accepts
  rw [this.1, this.2.1, this.2.2.1, this.2.2.2.2]

/-- Where equal edges stand in the order does not tell them apart. -/
theorem cmpLabel_of_same {e f f' : Edge} (h : f.same f') : Edge.cmpLabel e f = Edge.cmpLabel e f' := by
  have := (Edge.same_iff f f').1 h
  simp only [Edge.mk.injEq] at this
  unfold Edge.cmpLabel compareLex compareOn
  rw [this.2.2.1, this.2.2.2.2]

/-- Of edges with one dependent, the label alone decides the order. -/
theorem cmpDependent_eq {e f : Edge} (h : e.dependent = f.dependent) : Edge.cmpDependent e f = Edge.cmpLabel e f := by
  have hd : compare e.dependent f.dependent = .eq := by rw [h]; exact Std.ReflCmp.compare_self
  unfold Edge.cmpDependent compareLex compareOn
  rw [hd]
  rfl

/-- The edge that a query finds is asked for, and no edge that is asked for comes before it. -/
theorem edge?_eq_some {q : EdgeQuery} {e : Edge} (h : g.edge? q = some e) :
    (∃ a ∈ g.arcs, a.edge = e) ∧ q.asks e ∧ ∀ a ∈ g.arcs, q.asks a.edge → (Edge.cmpLabel e a.edge).isLE := by
  unfold edge? at h
  split at h
  · have hm := Order.mem_sortBy.1 (List.mem_of_find?_eq_some h)
    have ha := List.find?_some h
    obtain ⟨a, hm', rfl⟩ := List.mem_map.1 hm
    obtain ⟨hm', hg⟩ := List.mem_filter.1 hm'
    refine ⟨⟨a, hm', rfl⟩, ⟨by simpa using hg, ha⟩, fun b hb hq => ?_⟩
    have hs := Order.isLE_of_find?_sortBy h
      (List.mem_map_of_mem (List.mem_filter.2 ⟨hb, by simpa using hq.1⟩) : b.edge ∈ _) hq.2
    rwa [cmpDependent_eq] at hs
    have h1 := ha
    have h2 := hq.2
    simp only [EdgeQuery.accepts, Bool.and_eq_true, beq_iff_eq] at h1 h2
    rw [h1.1.1, h2.1.1]
  · cases h

/-- A query that finds nothing asks for no edge of a sound graph. -/
theorem Sound.edge?_eq_none (h : g.Sound) {q : EdgeQuery} (e : g.edge? q = none) : ∀ a ∈ g.arcs, ¬ q.asks a.edge := by
  intro a ha hq
  unfold edge? at e
  have hd : a.edge.dependent = q.dependent := by
    have := hq.2
    simp only [EdgeQuery.accepts, Bool.and_eq_true, beq_iff_eq] at this
    exact this.1.1
  have he := h.ends a ha
  rw [hq.1, hd] at he
  rw [if_pos (by rw [he.1, he.2]; rfl)] at e
  have hf : a.edge ∈ g.outgoing q.governor :=
    Order.mem_sortBy.2 (List.mem_map_of_mem (List.mem_filter.2 ⟨ha, by simpa using hq.1⟩))
  exact List.find?_eq_none.1 e _ hf hq.2

/-- No plain edge enters a token exactly if every edge into it is an extra one. -/
theorem governorEdge?_eq_none {index : Int} :
    g.governorEdge? index = none ↔ ∀ a ∈ g.arcs, a.edge.dependent = index → a.edge.extra = true := by
  unfold governorEdge? incomingBySlot
  rw [List.find?_eq_none]
  constructor
  · intro h a ha hd
    have := h a.edge (List.mem_map_of_mem (Order.mem_sortBy.2 (List.mem_filter.2 ⟨ha, by simpa using hd⟩)))
    simpa using this
  · intro h e he
    obtain ⟨a, ha, rfl⟩ := List.mem_map.1 he
    obtain ⟨ha, hd⟩ := List.mem_filter.1 (Order.mem_sortBy.1 ha)
    simpa using h a ha (by simpa using hd)

/-! ## What operations that succeed do to the content -/

section Operations

variable {t : Token} {e : Edge} {index : Int} {indices : List Int}

/-- A token is added under an index that has none. -/
theorem content_addToken (he : g.addToken t = .ok g') :
    ¬ g.content.Has t.index ∧ g'.content = { g.content with token := Function.update g.content.token t.index (some t) } := by
  obtain ⟨hn, rfl⟩ := addToken_eq_ok he
  refine ⟨by rw [has_content, hn]; exact Bool.false_ne_true, congrArg (Content.mk · g.content.edges g.content.roots) ?_⟩
  funext index
  have hi : t.index ∉ g.indices := by rw [← hasToken_iff, hn]; exact Bool.false_ne_true
  exact (lookup_putEntry t.index t hi index).trans (Function.update_apply g.token? t.index (some t) index).symm

/-- A new edge is one edge more. -/
theorem edges_cons (slot : Nat) (e : Edge) (free : List Nat) (fresh : Nat) :
    ({ g with arcs := ⟨slot, e⟩ :: g.arcs, free := free, fresh := fresh } : Graph).content =
      { g.content with edges := g.content.edges ∪ equals e } := by
  unfold content
  congr 1
  ext f
  simp only [contains, Set.mem_ofPred_eq, List.any_cons, Bool.or_eq_true, Set.mem_union, equals]
  exact or_comm

/-- An edge is added between two tokens, with all that are equal to it. -/
theorem content_addEdge (he : g.addEdge e = .ok g') :
    g.content.Has e.governor ∧ g.content.Has e.dependent ∧ g'.content = { g.content with edges := g.content.edges ∪ equals e } := by
  obtain ⟨hg, hd, hcase⟩ := addEdge_eq_ok he
  refine ⟨hg, hd, ?_⟩
  rcases hcase with ⟨hc, rfl⟩ | ⟨-, ⟨slot, free, -, rfl⟩ | ⟨-, rfl⟩⟩
  · have hstored : equals e ⊆ g'.content.edges := by
      intro f hf
      obtain ⟨a, ha, hs⟩ := mem_edges_content.1 (show e ∈ g'.content.edges from hc)
      exact mem_edges_content.2 ⟨a, ha, Edge.same_trans hs hf⟩
    rw [Set.union_eq_self_of_subset_right hstored]
  · exact edges_cons slot e free g.fresh
  · exact edges_cons g.fresh e g.free (g.fresh + 1)

/-- Tokens are made the roots. -/
theorem content_setRoots (he : g.setRoots indices = .ok g') :
    (∀ index ∈ indices, g.content.Has index) ∧ g'.content = { g.content with roots := {index | index ∈ indices} } := by
  obtain ⟨hi, rfl⟩ := setRoots_eq_ok he
  refine ⟨hi, congrArg (Content.mk g.content.token g.content.edges) ?_⟩
  ext index
  exact Order.mem_distinct

/-- A token is made a root. -/
theorem content_addRoot (he : g.addRoot index = .ok g') :
    g.content.Has index ∧ g'.content = { g.content with roots := insert index g.content.roots } := by
  obtain ⟨hi, rfl⟩ := addRoot_eq_ok he
  refine ⟨hi, congrArg (Content.mk g.content.token g.content.edges) ?_⟩
  ext i
  exact Order.mem_add

/-- In a copy every token is placed anew. -/
theorem content_copy (g : Graph) :
    g.copy.content = { g.content with token := fun index => (g.content.token index).map Token.placed } :=
  congrArg (Content.mk · g.content.edges g.content.roots) (funext (token?_copy g))

end Operations

namespace Sound

/-- The tokens that could be roots are the same for a graph and for its content. -/
theorem mem_headless (h : g.Sound) {index : Int} : index ∈ g.headless ↔ index ∈ g.content.headless := by
  have hedges : (∀ e ∈ g.content.edges, e.dependent = index → e.extra = true) ↔
      ∀ a ∈ g.arcs, a.edge.dependent = index → a.edge.extra = true := by
    constructor
    · intro hx a ha
      exact hx a.edge (mem_edges_content.2 ⟨a, ha, Edge.same_refl _⟩)
    · intro hx e he hd
      obtain ⟨a, ha, hs⟩ := mem_edges_content.1 he
      have := (Edge.same_iff _ _).1 hs
      simp only [Edge.mk.injEq] at this
      exact this.2.2.2.2 ▸ hx a ha (this.2.1.trans hd)
  unfold headless Content.headless
  rw [Set.mem_ofPred_eq, hedges, ← governorEdge?_eq_none]
  simp only [content, h.token?_eq_some_iff, List.mem_map, List.mem_filter, Bool.and_eq_true, Bool.not_eq_true',
    Option.isNone_iff_eq_none]
  constructor
  · rintro ⟨⟨i, t⟩, ⟨hm, he⟩, rfl⟩
    exact ⟨t, hm, he⟩
  · rintro ⟨t, hm, he⟩
    exact ⟨(index, t), ⟨hm, he⟩, rfl⟩

/-- Of the edges exactly those that are equal to the given one are removed. -/
theorem content_removeEdge (h : g.Sound) {e : Edge} (he : g.removeEdge e = .ok g') :
    e ∈ g.content.edges ∧ g'.content = { g.content with edges := g.content.edges \ equals e } := by
  obtain ⟨a, ha, hs, rfl⟩ := removeEdge_eq_ok he
  refine ⟨mem_edges_content.2 ⟨a, ha, hs⟩, ?_⟩
  have hset : ({ g with arcs := g.arcs.filter (·.slot != a.slot), free := a.slot :: g.free } : Graph).content.edges =
      g.content.edges \ equals e := by
    ext f
    rw [Set.mem_sdiff, mem_edges_content, mem_edges_content]
    constructor
    · rintro ⟨b, hb, hf⟩
      obtain ⟨hb, hne⟩ := List.mem_filter.1 hb
      refine ⟨⟨b, hb, hf⟩, fun hef => bne_iff_ne.1 hne ?_⟩
      rw [h.eq_of_same hb ha (Edge.same_trans hf (Edge.same_trans ((Edge.same_comm _ _).1 hef) ((Edge.same_comm _ _).1 hs)))]
    · rintro ⟨⟨b, hb, hf⟩, hef⟩
      refine ⟨b, List.mem_filter.2 ⟨hb, bne_iff_ne.2 fun hslot => hef ?_⟩, hf⟩
      rw [h.eq_of_slot hb ha hslot] at hf
      exact Edge.same_trans ((Edge.same_comm _ _).1 hs) hf
  exact congrArg (fun edges => { g.content with edges := edges }) hset

/-- A token is removed, with the edges at it and its place among the roots. -/
theorem content_removeToken (h : g.Sound) {index : Int} (he : g.removeToken index = .ok g') :
    g.content.Has index ∧ g'.content =
      { token := Function.update g.content.token index none
        edges := {e ∈ g.content.edges | e.governor ≠ index ∧ e.dependent ≠ index}
        roots := g.content.roots \ {index} } := by
  obtain ⟨hi, rfl⟩ := h.removeToken_eq_ok he
  refine ⟨has_content.2 hi, ?_⟩
  unfold content
  congr 1
  · funext i
    have hlookup := Pairs.lookup_filter_ne g.tokens index i
    simp only [beq_iff_eq] at hlookup
    exact hlookup.trans (Function.update_apply g.token? index none i).symm
  · ext f
    simp only [Set.mem_ofPred_eq, contains, List.any_eq_true, List.mem_filter, Bool.and_eq_true, bne_iff_ne]
    constructor
    · rintro ⟨a, ⟨ha, hg, hd⟩, hs⟩
      obtain ⟨eg, ed⟩ := Edge.ends_of_same hs
      exact ⟨⟨a, ha, hs⟩, eg ▸ hg, ed ▸ hd⟩
    · rintro ⟨⟨a, ha, hs⟩, hg, hd⟩
      obtain ⟨eg, ed⟩ := Edge.ends_of_same hs
      exact ⟨a, ⟨ha, eg ▸ hg, ed ▸ hd⟩, hs⟩
  · ext i
    simp only [Set.mem_ofPred_eq, List.mem_filter, bne_iff_ne, Set.mem_sdiff, Set.mem_singleton_iff]

/-- The first edge that is asked for is removed, if there is one. -/
theorem step_removeFirst (h : g.Sound) {q : EdgeQuery} (he : g.perform (.removeFirst q) = .ok g') :
    Content.Step g.content (.removeFirst q) none g'.content := by
  simp only [Graph.perform] at he
  split at he
  · rename_i f hf
    obtain ⟨hm, hc⟩ := h.content_removeEdge he
    obtain ⟨-, hq, hfirst⟩ := edge?_eq_some hf
    rw [hc]
    refine .removeFirst hm hq fun f' hf' hq' => ?_
    obtain ⟨a, ha, hs⟩ := mem_edges_content.1 hf'
    exact cmpLabel_of_same hs ▸ hfirst a ha ((EdgeQuery.asks_of_same hs).2 hq')
  · rename_i hn
    cases he
    refine .removeNone fun f hf hq => ?_
    obtain ⟨a, ha, hs⟩ := mem_edges_content.1 hf
    exact h.edge?_eq_none hn a ha ((EdgeQuery.asks_of_same hs).2 hq)

/-- The ordinary tokens without a plain edge into them are made the roots, if there are any. -/
theorem step_resetRoots (h : g.Sound) : Content.Step g.content .resetRoots none g.resetRoots.content := by
  unfold Graph.resetRoots
  split
  · rename_i hn
    refine .keepRoots (Set.eq_empty_iff_forall_notMem.2 fun i hi => ?_)
    rw [← h.mem_headless, List.isEmpty_iff.1 hn] at hi
    exact List.not_mem_nil hi
  · rename_i hn
    obtain ⟨i, hi⟩ := List.exists_mem_of_ne_nil _ (fun e => hn (List.isEmpty_iff.2 e))
    have hstep := Content.Step.resetRoots (c := g.content) ⟨i, h.mem_headless.1 hi⟩
    rwa [show g.content.headless = {i | i ∈ g.headless} from Set.ext fun _ => h.mem_headless.symm] at hstep

/-- What an operation that succeeds does to a sound graph. -/
theorem step (h : g.Sound) {op : Operation} (e : g.perform op = .ok g') :
    Content.Step g.content op none g'.content := by
  cases op with
  | addToken t =>
    obtain ⟨hnew, hc⟩ := content_addToken e
    exact hc ▸ .addToken hnew
  | removeToken index =>
    obtain ⟨hi, hc⟩ := h.content_removeToken e
    exact hc ▸ .removeToken hi
  | addEdge e' =>
    obtain ⟨hg, hd, hc⟩ := content_addEdge e
    exact hc ▸ .addEdge hg hd
  | removeFirst q => exact h.step_removeFirst e
  | removeEdge e' =>
    obtain ⟨hm, hc⟩ := h.content_removeEdge e
    exact hc ▸ .removeEdge hm
  | setRoots indices =>
    obtain ⟨hi, hc⟩ := content_setRoots e
    exact hc ▸ .setRoots hi
  | addRoot index =>
    obtain ⟨hi, hc⟩ := content_addRoot e
    exact hc ▸ .addRoot hi
  | resetRoots =>
    cases e
    exact h.step_resetRoots
  | copy =>
    cases e
    exact content_copy g ▸ .copy

/-- What an operation that fails does to a sound graph: nothing. -/
theorem step_fails {op : Operation} {fault : GraphError} (e : g.perform op = .error fault) :
    Content.Step g.content op (some fault) g.content := by
  have missing : ∀ {index : Int}, ¬ g.hasToken index = true → ¬ g.content.Has index := fun h => h
  cases op with
  | addToken t =>
    simp only [Graph.perform, Graph.addToken] at e
    split at e <;> cases e
    exact .addTokenFails ‹_›
  | removeToken index =>
    simp only [Graph.perform, removeToken_eq] at e
    split at e <;> cases e
    exact .removeTokenFails (missing ‹_›)
  | addEdge e' =>
    simp only [Graph.perform, Graph.addEdge] at e
    split at e
    · cases e
      exact .addEdgeFailsAbove (missing (by simpa using ‹(!g.hasToken e'.governor) = true›))
    · rename_i hg
      split at e
      · cases e
        exact .addEdgeFailsBelow (has_content.2 (by simpa using hg)) (missing (by simpa using ‹(!g.hasToken e'.dependent) = true›))
      · split at e
        · cases e
        · split at e <;> cases e
  | removeFirst q =>
    simp only [Graph.perform] at e
    split at e
    · rename_i f hf
      obtain ⟨⟨a, ha, rfl⟩, -⟩ := edge?_eq_some hf
      unfold Graph.removeEdge at e
      split at e
      · cases e
      · rename_i hn
        exact absurd (Edge.same_refl a.edge) (List.find?_eq_none.1 hn a ha)
    · cases e
  | removeEdge e' =>
    simp only [Graph.perform, Graph.removeEdge] at e
    split at e <;> cases e
    rename_i hn
    refine .removeEdgeFails fun hm => ?_
    obtain ⟨a, ha, hs⟩ := mem_edges_content.1 hm
    exact List.find?_eq_none.1 hn a ha hs
  | setRoots indices =>
    simp only [Graph.perform, Graph.setRoots] at e
    split at e <;> cases e
    rename_i hf
    exact .setRootsFails (Order.mem_byPlace.1 (List.mem_of_find?_eq_some hf)) (missing (by simpa using List.find?_some hf))
  | addRoot index =>
    simp only [Graph.perform, Graph.addRoot] at e
    split at e <;> cases e
    exact .addRootFails (missing ‹_›)
  | resetRoots => cases e
  | copy => cases e

/-- A run of operations keeps a graph sound, and does to its content what each of them does, one after the other. -/
theorem run (h : g.Sound) (ops : List Operation) :
    (Operation.run Graph.perform g ops).2.Sound ∧
      Content.Run g.content ops (Operation.run Graph.perform g ops).1 (Operation.run Graph.perform g ops).2.content := by
  induction ops generalizing g with
  | nil => exact ⟨h, .nil _⟩
  | cons op ops ih =>
    simp only [Operation.run]
    cases e : g.perform op with
    | ok g' =>
      obtain ⟨hs, hr⟩ := ih (h.perform e)
      exact ⟨hs, .cons (h.step e) hr⟩
    | error fault =>
      obtain ⟨hs, hr⟩ := ih h
      exact ⟨hs, .cons (step_fails e) hr⟩

end Sound

end Treebank.Graph

import Treebank.Proofs.Match.Bounded

/-!
# Labels between bounds

A search between bounds comes to a token at most once at each length, and looks at the label of the edge by which it comes there first
(`leading`) and at no other. So it finds nothing but what the relation over one edge finds, or the unbounded search, and it finds all of
that exactly if no token is lost behind a leading edge that is not accepted (`bounded_agrees_iff`). It is so wherever the label does not
tell edges to one token apart. Where two edges with different labels lead to one token, the label that is asked for may be the second one,
and the token is lost (`bounded_misses_second_edge`).
-/

namespace Treebank

namespace Scope

open Pattern

variable {s : Scope} {d : Direction} {a v : Int} {k : Nat} {e : Edge}

/-- The edge by which a search from a token first comes to another one with walks of `k + 1` edges. -/
def leading (s : Scope) (d : Direction) (a : Int) (k : Nat) (v : Int) : Option Edge :=
  ((following d (d.edges s.graph))^[k] (d.edges s.graph a)).find? (d.far · == v)

/-- A leading edge is the last one of a walk to its token. -/
theorem of_leading_eq_some (h : s.leading d a k v = some e) : s.graph.EndsWalk d a (k + 1) e ∧ d.far e = v :=
  ⟨endsWalk_of_mem_level (List.mem_of_find?_eq_some h), eq_of_beq (List.find?_some (p := (d.far · == v)) h)⟩

/-- A token to which a walk leads has a leading edge for its length. -/
theorem exists_leading (h : s.graph.Walk d a (k + 1) v) : ∃ e, s.leading d a k v = some e := by
  obtain ⟨e, he, hv⟩ := List.mem_map.1 (mem_map_level.2 h)
  exact Option.isSome_iff_exists.1 (List.find?_isSome.2 ⟨e, he, beq_iff_eq.2 hv⟩)

/-- Where edges to one token are accepted together, the leading edge to the end of a walk is accepted with the last edge of it. -/
theorem exists_leading_accepted {accepts : Edge → Prop}
    (hsame : ∀ e ∈ s.graph.edges, ∀ f ∈ s.graph.edges, d.far e = d.far f → accepts e → accepts f) (he : e ∈ s.graph.edges)
    (hwalk : s.graph.Walk d a k (d.near e)) (haccepts : accepts e) : ∃ f, s.leading d a k (d.far e) = some f ∧ accepts f := by
  obtain ⟨f, hf⟩ := exists_leading (.step he hwalk)
  obtain ⟨⟨hstored, -⟩, hfar⟩ := of_leading_eq_some hf
  exact ⟨f, hf, hsame e he f hstored hfar.symm haccepts⟩

/-- A search finds a token at a length if the leading edge is accepted. -/
theorem foundAt_iff_leading {accepts : Edge → Bool} :
    FoundAt d (d.edges s.graph) accepts (d.edges s.graph a) k v ↔ ∃ e, s.leading d a k v = some e ∧ accepts e := by
  simp only [FoundAt, mem_firstToEach]
  constructor
  · rintro ⟨e, he, haccepts, rfl⟩
    exact ⟨e, he, haccepts⟩
  · rintro ⟨e, he, haccepts⟩
    obtain ⟨-, rfl⟩ := of_leading_eq_some he
    exact ⟨e, he, haccepts, rfl⟩

/-- The relation over one edge finds the tokens to which accepted edges lead. -/
theorem mem_map_candidates_direct (d : Direction) (label : Label) (name : Option String) :
    v ∈ (s.candidates { kind := d.edgeKind, label := label, edgeName := name } a).map (·.1) ↔
      ∃ e, (e ∈ s.graph.edges ∧ d.near e = a ∧ label.accepts s.hierarchical e.relation) ∧ d.far e = v := by
  rw [candidates_edgeKind rfl, neighbours, map_fst_candidates_of_edges]
  simp only [List.mem_map, List.mem_filter, acceptsEdge]
  constructor
  · rintro ⟨e, ⟨he, haccepts⟩, rfl⟩
    obtain ⟨hstored, hnear⟩ := Graph.mem_followed.1 (mem_of_mem_firstOfEach he)
    exact ⟨e, ⟨hstored, hnear, haccepts⟩, rfl⟩
  · rintro ⟨e, ⟨hstored, hnear, haccepts⟩, rfl⟩
    obtain ⟨f, hf, hfar, hrelation⟩ := Edge.exists_mem_firstOfEach d.far (Graph.mem_followed.2 ⟨hstored, hnear⟩)
    exact ⟨f, ⟨hf, by rw [hrelation]; exact haccepts⟩, hfar⟩

/-- The relation over paths finds within bounds from one on the tokens with an accepted leading edge for some length. -/
theorem mem_map_candidates_leading (d : Direction) (label : Label) (name : Option String) {n : Nat} (hn : 1 ≤ n) :
    v ∈ (s.candidates { kind := d.pathKind, label := label, minDepth := 1, maxDepth := n, edgeName := name } a).map (·.1) ↔
      ∃ k < n, ∃ e, s.leading d a k v = some e ∧ label.accepts s.hierarchical e.relation := by
  simp only [mem_map_candidates_bounded d label name hn, foundAt_iff_leading, Nat.le_add_left, true_and]

/-- Of two searches, of which one finds nothing but what the other one finds, both find the same tokens exactly if the first one finds
all tokens to which the edges of the second one lead. -/
theorem same_tokens_iff {finds others : Int → Prop} {leads : Edge → Prop} (hothers : ∀ v, others v ↔ ∃ e, leads e ∧ d.far e = v)
    (hle : ∀ v, finds v → others v) : (∀ v, finds v ↔ others v) ↔ ∀ e, leads e → finds (d.far e) := by
  constructor
  · intro h e he
    exact (h _).2 ((hothers _).2 ⟨e, he, rfl⟩)
  · intro h v
    refine ⟨hle v, fun hv => ?_⟩
    obtain ⟨e, he, rfl⟩ := (hothers v).1 hv
    exact h e he

/-- From a token of a sound graph, bounds of one find nothing but what the relation over one edge finds, and bounds from one up to the
number of tokens nothing but what the unbounded search finds. They find the same tokens exactly if every token to which an accepted edge
leads, from the start or from what it reaches, has an accepted leading edge for some length within the bounds; so they do wherever the
label does not tell edges to one token apart. -/
theorem bounded_agrees_iff (hs : s.graph.Sound) (ha : s.graph.hasToken a) (d : Direction) (label : Label) (name : Option String) {n : Nat}
    (hn : s.graph.size ≤ n) :
    let finds (o : Operator) (v : Int) : Prop := v ∈ (s.candidates o a).map (·.1)
    let direct : Operator := { kind := d.edgeKind, label := label, edgeName := name }
    let unbounded : Operator := { kind := d.pathKind, label := label, edgeName := name }
    let bounded (m : Nat) : Operator := { kind := d.pathKind, label := label, minDepth := 1, maxDepth := m, edgeName := name }
    let accepts (e : Edge) : Prop := label.accepts s.hierarchical e.relation
    (∀ v, finds (bounded 1) v → finds direct v) ∧ (∀ v, finds (bounded n) v → finds unbounded v) ∧
      ((∀ v, finds (bounded 1) v ↔ finds direct v) ↔
        ∀ e ∈ s.graph.edges, d.near e = a → accepts e → ∃ f, s.leading d a 0 (d.far e) = some f ∧ accepts f) ∧
      ((∀ v, finds (bounded n) v ↔ finds unbounded v) ↔
        ∀ e ∈ s.graph.edges, s.graph.Reaches d a (d.near e) → accepts e → ∃ k < n, ∃ f, s.leading d a k (d.far e) = some f ∧ accepts f) ∧
      ((∀ e ∈ s.graph.edges, ∀ f ∈ s.graph.edges, d.far e = d.far f → accepts e → accepts f) →
        (∀ v, finds (bounded 1) v ↔ finds direct v) ∧ ∀ v, finds (bounded n) v ↔ finds unbounded v) := by
  intro finds direct unbounded bounded accepts
  have hsize : 1 ≤ s.graph.size := by
    have hpos := List.length_pos_of_mem (Graph.hasToken_iff.1 ha)
    rwa [Graph.indices, List.length_map] at hpos
  have hdirect : ∀ v, finds direct v ↔ ∃ e, (e ∈ s.graph.edges ∧ d.near e = a ∧ accepts e) ∧ d.far e = v := fun v =>
    mem_map_candidates_direct d label name
  have hunbounded : ∀ v, finds unbounded v ↔ ∃ e, (e ∈ s.graph.edges ∧ accepts e ∧ s.graph.Reaches d a (d.near e)) ∧ d.far e = v :=
    fun v => mem_map_candidates_unbounded hs d label name
  have hbounded : ∀ v, finds (bounded n) v ↔ ∃ k < n, ∃ f, s.leading d a k v = some f ∧ accepts f := fun v =>
    mem_map_candidates_leading d label name (by omega)
  have hone : ∀ v, finds (bounded 1) v ↔ ∃ f, s.leading d a 0 v = some f ∧ accepts f := fun v =>
    (mem_map_candidates_leading d label name (Nat.le_refl 1)).trans (by simp; rfl)
  have honeLe : ∀ v, finds (bounded 1) v → finds direct v := by
    intro v hv
    obtain ⟨f, hf, haccepts⟩ := (hone v).1 hv
    obtain ⟨hstored, hnear⟩ := Graph.mem_followed.1 (List.mem_of_find?_eq_some hf)
    exact (hdirect v).2 ⟨f, ⟨hstored, hnear, haccepts⟩, (of_leading_eq_some hf).2⟩
  have hboundedLe : ∀ v, finds (bounded n) v → finds unbounded v := by
    intro v hv
    obtain ⟨k, -, f, hf, haccepts⟩ := (hbounded v).1 hv
    obtain ⟨⟨hstored, m, -, hwalk⟩, hfar⟩ := of_leading_eq_some hf
    exact (hunbounded v).2 ⟨f, ⟨hstored, haccepts, hwalk.reaches⟩, hfar⟩
  refine ⟨honeLe, hboundedLe, ?_, ?_, fun hlabel => ?_⟩
  · rw [same_tokens_iff hdirect honeLe]
    simp only [hone, and_imp]
  · rw [same_tokens_iff hunbounded hboundedLe]
    simp only [hbounded, and_imp]
    exact forall₂_congr fun e _ => ⟨fun h hreaches haccepts => h haccepts hreaches, fun h haccepts hreaches => h hreaches haccepts⟩
  · refine ⟨(same_tokens_iff hdirect honeLe).2 ?_, (same_tokens_iff hunbounded hboundedLe).2 ?_⟩
    · rintro e ⟨he, hnear, haccepts⟩
      exact (hone _).2 (exists_leading_accepted hlabel he (hnear ▸ .stay) haccepts)
    · rintro e ⟨he, haccepts, hreaches⟩
      obtain ⟨k, hk, hwalk⟩ := hs.exists_walk_of_reaches ha hreaches
      exact (hbounded _).2 ⟨k, by omega, exists_leading_accepted hlabel he hwalk haccepts⟩

/-- Where edges with the labels "x" and "y" lead to one token, the first of the two is the leading edge: searches for "x" agree, and
searches for "y" do not. -/
theorem bounded_agrees_iff_parallel :
    let first : Edge := { governor := 1, dependent := 2, relation := "x" }
    let second : Edge := { governor := 1, dependent := 2, relation := "y" }
    let g : Graph :=
      { tokens := [(1, { index := 1, position := 1 }), (2, { index := 2, position := 2 })]
        arcs := [⟨1, second⟩, ⟨0, first⟩], fresh := 2 }
    let s : Scope := { graph := g }
    let finds (o : Operator) (v : Int) : Prop := v ∈ (s.candidates o 1).map (·.1)
    let direct (label : Label) : Operator := { kind := .child, label := label }
    let unbounded (label : Label) : Operator := { kind := .descendant, label := label }
    let bounded (label : Label) (m : Nat) : Operator := { kind := .descendant, label := label, minDepth := 1, maxDepth := m }
    g.Sound ∧ g.hasToken 1 ∧ g.size ≤ 2 ∧ s.leading .down 1 0 2 = some first ∧ ∀ label : Label,
      let accepts (e : Edge) : Prop := label.accepts false e.relation
      (∀ v, finds (bounded label 1) v → finds (direct label) v) ∧ (∀ v, finds (bounded label 2) v → finds (unbounded label) v) ∧
        ((∀ v, finds (bounded label 1) v ↔ finds (direct label) v) ↔
          ∀ e ∈ g.edges, e.governor = 1 → accepts e → ∃ f, s.leading .down 1 0 e.dependent = some f ∧ accepts f) ∧
        ((∀ v, finds (bounded label 2) v ↔ finds (unbounded label) v) ↔
          ∀ e ∈ g.edges, g.Reaches .down 1 e.governor → accepts e →
            ∃ k < 2, ∃ f, s.leading .down 1 k e.dependent = some f ∧ accepts f) ∧
        ((∀ e ∈ g.edges, ∀ f ∈ g.edges, e.dependent = f.dependent → accepts e → accepts f) →
          (∀ v, finds (bounded label 1) v ↔ finds (direct label) v) ∧ ∀ v, finds (bounded label 2) v ↔ finds (unbounded label) v) := by
  intro first second g s finds direct unbounded bounded
  have hsound : g.Sound := by
    refine (((Graph.sound_empty.addToken (t := { index := 1, position := 1 }) rfl).addToken (t := { index := 2, position := 2 })
      rfl).addEdge (e := first) rfl).addEdge (e := second) rfl
  exact ⟨hsound, rfl, by decide, by decide, fun label => bounded_agrees_iff hsound rfl .down label none (by decide)⟩

/-- Behind an edge with another label to the same token, a search between bounds does not find the edge with the label it asks for,
which the relation over one edge and the unbounded search find. -/
theorem bounded_misses_second_edge :
    let g : Graph :=
      { tokens := [(1, { index := 1, position := 1 }), (2, { index := 2, position := 2 })]
        arcs := [⟨1, { governor := 1, dependent := 2, relation := "y" }⟩, ⟨0, { governor := 1, dependent := 2, relation := "x" }⟩]
        fresh := 2 }
    let found (o : Operator) : List Int := (({ graph := g } : Scope).candidates o 1).map (·.1)
    let direct (label : Label) : Operator := { kind := .child, label := label }
    let unbounded (label : Label) : Operator := { kind := .descendant, label := label }
    let bounded (label : Label) (m : Nat) : Operator := { kind := .descendant, label := label, minDepth := 1, maxDepth := m }
    g.Sound ∧ g.hasToken 1 ∧ g.size = 2 ∧
      found (direct (.exact "x")) = [2] ∧ found (bounded (.exact "x") 1) = [2] ∧ found (bounded (.exact "x") 2) = [2] ∧
      found (direct (.exact "y")) = [2] ∧ found (unbounded (.exact "y")) = [2] ∧
      found (bounded (.exact "y") 1) = [] ∧ found (bounded (.exact "y") 2) = [] := by
  intro g found direct unbounded bounded
  have hsound : g.Sound := by
    refine (((Graph.sound_empty.addToken (t := { index := 1, position := 1 }) rfl).addToken (t := { index := 2, position := 2 })
      rfl).addEdge (e := { governor := 1, dependent := 2, relation := "x" }) rfl).addEdge
      (e := { governor := 1, dependent := 2, relation := "y" }) rfl
  exact ⟨hsound, rfl, rfl, by decide +kernel⟩

end Scope

end Treebank

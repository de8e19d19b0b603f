import Treebank.Proofs.Match.Bounded

/-!
# Converse relations

Every relation but those to the next word and to the token itself has a converse: what the one finds at a token finds that token by the
other (`candidates_converse`). The two look at other edges in another order, so neither enumeration is the other one turned round; what
they find is said by edges, by walks and by shared governors, each of which can be read from either end (`walk_reverse_iff`,
`ShareGovernor.symm`).
-/

open Relation

namespace Treebank

namespace Scope.Direction

/-- The other direction. -/
def reverse : Direction → Direction
  | down => up
  | up => down

variable (d : Direction)

@[simp] theorem near_reverse : d.reverse.near = d.far := by cases d <;> rfl

@[simp] theorem far_reverse : d.reverse.far = d.near := by cases d <;> rfl

@[simp] theorem reverse_reverse : d.reverse.reverse = d := by cases d <;> rfl

end Scope.Direction

namespace Graph

open Scope (Direction)

variable {g : Graph} {d : Direction} {i j : Int} {n : Nat}

/-- A walk can be walked back. -/
theorem Walk.reverse (h : g.Walk d i n j) : g.Walk d.reverse j n i := by
  induction h with
  | stay => exact .stay
  | @step n e he _ ih => simpa using Walk.cons (d := d.reverse) (e := e) (by simpa using ih) he

/-- The walks from one token to another, turned round, are the walks the other way. -/
theorem walk_reverse_iff : g.Walk d.reverse j n i ↔ g.Walk d i n j := by
  constructor
  · intro h
    simpa using h.reverse
  · exact Walk.reverse

/-- What is reached is reached by a walk. -/
theorem reaches_iff_exists_walk : g.Reaches d i j ↔ ∃ n, g.Walk d i n j := by
  constructor
  · intro h
    induction h with
    | refl => exact ⟨0, .stay⟩
    | tail _ hstep ih =>
      obtain ⟨n, hwalk⟩ := ih
      obtain ⟨e, he, rfl, rfl⟩ := hstep
      exact ⟨n + 1, .step he hwalk⟩
  · rintro ⟨n, hwalk⟩
    exact hwalk.reaches

/-- Whether two tokens have a governor in common. -/
def ShareGovernor (g : Graph) (i j : Int) : Prop :=
  ∃ e ∈ g.edges, ∃ f ∈ g.edges, e.dependent = i ∧ f.dependent = j ∧ e.governor = f.governor

theorem ShareGovernor.symm (h : g.ShareGovernor i j) : g.ShareGovernor j i := by
  obtain ⟨e, he, f, hf, hi, hj, hgovernor⟩ := h
  exact ⟨f, hf, e, he, hj, hi, hgovernor.symm⟩

/-- The dependents of the governors of a token are those that share a governor with it. -/
theorem mem_children_of_parents : j ∈ (g.parents i).flatMap g.children ↔ g.ShareGovernor i j := by
  have hparent : ∀ {p}, p ∈ g.parents i ↔ g.Follows .up i p := Order.mem_distinct.trans (mem_map_far (d := .up))
  have hchild : ∀ {p}, j ∈ g.children p ↔ g.Follows .down p j := Order.mem_distinct.trans (mem_map_far (d := .down))
  simp only [List.mem_flatMap, hparent, hchild]
  constructor
  · rintro ⟨p, ⟨e, he, hi, hp⟩, f, hf, hp', hj⟩
    exact ⟨e, he, f, hf, hi, hj, hp.trans hp'.symm⟩
  · rintro ⟨e, he, f, hf, hi, hj, hgovernor⟩
    exact ⟨e.governor, ⟨e, he, hi, rfl⟩, f, hf, hgovernor.symm, hj⟩

end Graph

namespace Scope

open Pattern

variable {s : Scope} {d : Direction} {o : Operator} {a v : Int}

/-! ## What a relation finds -/

/-- Over one edge, a token is found with a label exactly if an edge with this label leads to it and the label is accepted. -/
theorem exists_mem_candidates_edgeKind (h : o.kind = d.edgeKind) {r : String} :
    (∃ e, (v, some e) ∈ s.candidates o a ∧ e.relation = r) ↔
      o.label.accepts s.hierarchical r ∧ ∃ e ∈ s.graph.edges, d.near e = a ∧ d.far e = v ∧ e.relation = r := by
  simp only [candidates_edgeKind h, neighbours, List.mem_map, List.mem_filter, acceptsEdge]
  constructor
  · rintro ⟨e, ⟨f, ⟨hf, haccepts⟩, hfound⟩, rfl⟩
    obtain ⟨hv, hedge⟩ := Prod.mk.inj hfound
    obtain rfl := Option.some.inj hedge
    obtain ⟨hstored, hnear⟩ := Graph.mem_followed.1 (mem_of_mem_firstOfEach hf)
    exact ⟨haccepts, f, hstored, hnear, hv, rfl⟩
  · rintro ⟨haccepts, e, hstored, hnear, rfl, rfl⟩
    -- The search may have kept another edge with the same end and the same label.
    obtain ⟨f, hf, hfar, hrelation⟩ := Edge.exists_mem_firstOfEach d.far (Graph.mem_followed.2 ⟨hstored, hnear⟩)
    exact ⟨f, ⟨f, ⟨hf, by rw [hrelation]; exact haccepts⟩, by rw [hfar]⟩, hrelation⟩

/-- Whether an operator over paths asks for paths of some length: bounds count only if the upper one is not zero. -/
def asksFor (o : Operator) (k : Nat) : Prop := 1 ≤ k ∧ (o.isLimited → o.minDepth ≤ k ∧ k ≤ o.maxDepth)

/-- Over paths and without a label, a token is found exactly if a walk leads to it that has a length which is asked for. -/
theorem mem_map_candidates_any (hs : s.graph.Sound) (h : o.kind = d.pathKind) (hlabel : o.label = .any) :
    v ∈ (s.candidates o a).map (·.1) ↔ ∃ k, asksFor o k ∧ s.graph.Walk d a k v := by
  obtain ⟨kind, label, m, n, name⟩ := o
  obtain rfl : kind = d.pathKind := h
  obtain rfl : label = .any := hlabel
  by_cases hn : 1 ≤ n
  · have haccepts : ∀ e : Edge, Label.any.accepts s.hierarchical e.relation := fun _ => rfl
    simp only [mem_map_candidates_bounded d .any name hn, foundAt_iff_walk haccepts, asksFor, Operator.isLimited]
    constructor
    · rintro ⟨k, hle, hk, hwalk⟩
      exact ⟨k + 1, ⟨by omega, fun _ => ⟨hle, hk⟩⟩, hwalk⟩
    · rintro ⟨k, ⟨hpos, hbounds⟩, hwalk⟩
      obtain ⟨k, rfl⟩ := Nat.exists_eq_add_of_le' hpos
      obtain ⟨hle, hk⟩ := hbounds (decide_eq_true hn)
      exact ⟨k, hle, hk, hwalk⟩
  · obtain rfl : n = 0 := by omega
    have hsame : s.candidates { kind := d.pathKind, label := .any, minDepth := m, maxDepth := 0, edgeName := name } a =
        s.candidates { kind := d.pathKind, label := .any, edgeName := name } a := by
      rw [candidates_pathKind rfl, candidates_pathKind rfl]
      rfl
    rw [hsame, mem_map_candidates_unbounded hs d .any name]
    constructor
    · rintro ⟨e, ⟨he, -, hreaches⟩, rfl⟩
      obtain ⟨k, hwalk⟩ := Graph.reaches_iff_exists_walk.1 hreaches
      exact ⟨k + 1, ⟨by omega, fun h => absurd h (by simp [Operator.isLimited])⟩, .step he hwalk⟩
    · rintro ⟨k, ⟨hpos, -⟩, hwalk⟩
      obtain ⟨k, rfl⟩ := Nat.exists_eq_add_of_le' hpos
      obtain ⟨e, ⟨he, m, -, hbefore⟩, rfl⟩ := hwalk.exists_endsWalk
      exact ⟨e, ⟨he, rfl, hbefore.reaches⟩, rfl⟩

/-- The siblings of a token share a governor with it. -/
theorem mem_map_siblings (hs : s.graph.Sound) (test : Int → Bool) :
    v ∈ (s.siblings test a).map (·.1) ↔ s.graph.ShareGovernor a v ∧ test (s.position v) := by
  simp only [siblings, List.map_map, List.mem_map, List.mem_filter, Order.mem_sortBy, List.mem_filterMap, Order.mem_distinct,
    Graph.mem_children_of_parents, Option.map_eq_some_iff, Function.comp_apply]
  constructor
  · rintro ⟨_, ⟨⟨i, hshare, t, ht, rfl⟩, htest⟩, rfl⟩
    exact ⟨hshare, by rw [position_eq ht]; exact htest⟩
  · rintro ⟨hshare, htest⟩
    obtain ⟨-, -, f, hf, -, rfl, -⟩ := id hshare
    have hthere : s.graph.hasToken f.dependent := hasToken_far (d := .down) hs (Graph.mem_followed.2 ⟨hf, rfl⟩)
    obtain ⟨t, ht, -⟩ := token_eq_ok hthere
    rw [position_eq ht] at htest
    exact ⟨(f.dependent, t), ⟨⟨f.dependent, hshare, t, ht, rfl⟩, htest⟩, rfl⟩

/-! ## Converses -/

/-- In a sound graph, whatever its cycles, its edges side by side and its tokens at one position, operators and their converses agree.
With a label, a token is found below another one by an edge with some relation exactly if that one is found above it by an edge with the
same relation. Over paths without a label, between any bounds, and next to a token or on either side of it among its siblings, a token is
found at another one exactly if the converse finds that one at it; and no token is a sibling of itself. -/
theorem candidates_converse (hs : s.graph.Sound) (a b : Int) (o : Operator) :
    let linked (kind : Kind) (i j : Int) (r : String) : Prop := ∃ e, (j, some e) ∈ s.candidates { o with kind := kind } i ∧ e.relation = r
    let found (kind : Kind) (i j : Int) : Prop := j ∈ (s.candidates { o with kind := kind } i).map (·.1)
    (∀ r, linked .child a b r ↔ linked .parent b a r) ∧
      (o.label = .any → (found .descendant a b ↔ found .ancestor b a)) ∧
      (found .rightNeighbour a b ↔ found .leftNeighbour b a) ∧
      (found .rightSibling a b ↔ found .leftSibling b a) ∧
      ∀ kind ∈ [Kind.rightNeighbour, .leftNeighbour, .rightSibling, .leftSibling], ¬found kind a a := by
  intro linked found
  have hlinked : ∀ d i j r, linked (Direction.edgeKind d) i j r ↔
      o.label.accepts s.hierarchical r ∧ ∃ e ∈ s.graph.edges, d.near e = i ∧ d.far e = j ∧ e.relation = r := fun d i j r =>
    exists_mem_candidates_edgeKind (o := { o with kind := d.edgeKind }) rfl
  have hpaths : ∀ d, o.label = .any → ∀ i j, found (Direction.pathKind d) i j ↔ ∃ k, asksFor o k ∧ s.graph.Walk d i k j :=
    fun d hlabel i j => mem_map_candidates_any (o := { o with kind := d.pathKind }) hs rfl hlabel
  have hright : ∀ i j, found .rightNeighbour i j ↔ s.graph.ShareGovernor i j ∧ s.position j = s.position i + 1 := fun i j =>
    (mem_map_siblings hs (· == s.position i + 1)).trans (by simp)
  have hleft : ∀ i j, found .leftNeighbour i j ↔ s.graph.ShareGovernor i j ∧ s.position j = s.position i - 1 := fun i j =>
    (mem_map_siblings hs (· == s.position i - 1)).trans (by simp)
  have hafter : ∀ i j, found .rightSibling i j ↔ s.graph.ShareGovernor i j ∧ s.position i < s.position j := fun i j =>
    (mem_map_siblings hs (decide <| · > s.position i)).trans (by simp)
  have hbefore : ∀ i j, found .leftSibling i j ↔ s.graph.ShareGovernor i j ∧ s.position j < s.position i := fun i j =>
    (mem_map_siblings hs (decide <| · < s.position i)).trans (by simp)
  have hshare : s.graph.ShareGovernor a b ↔ s.graph.ShareGovernor b a := ⟨.symm, .symm⟩
  refine ⟨fun r => ?_, fun hlabel => ?_, ?_, ?_, ?_⟩
  · refine (hlinked .down a b r).trans (Iff.trans ?_ (hlinked .up b a r).symm)
    exact and_congr_right fun _ => exists_congr fun e => and_congr_right fun _ => and_left_comm
  · refine (hpaths .down hlabel a b).trans (Iff.trans ?_ (hpaths .up hlabel b a).symm)
    exact exists_congr fun k => and_congr_right fun _ => (Graph.walk_reverse_iff (d := .down)).symm
  · rw [hright, hleft, hshare]
    exact and_congr_right fun _ => by omega
  · rw [hafter, hbefore, hshare]
  · simp only [List.forall_mem_cons, hright, hleft, hafter, hbefore]
    refine ⟨fun h => ?_, fun h => ?_, fun h => ?_, fun h => ?_, by simp⟩ <;> omega

/-- So it is at two tokens on a cycle, between which edges with two labels lie side by side, and a third token has the position of the
first: with bounds of two edges it is the walk over the loop that leads from the one to the other. -/
theorem candidates_converse_cycle :
    let g : Graph :=
      { tokens := [(1, { index := 1, position := 1 }), (2, { index := 2, position := 2 }), (3, { index := 3, position := 1 })]
        arcs := [⟨4, { governor := 2, dependent := 1, relation := "y" }⟩, ⟨3, { governor := 1, dependent := 3, relation := "x" }⟩,
          ⟨2, { governor := 1, dependent := 2, relation := "y" }⟩, ⟨1, { governor := 1, dependent := 2, relation := "x" }⟩,
          ⟨0, { governor := 1, dependent := 1, relation := "x" }⟩]
        fresh := 5 }
    let s : Scope := { graph := g }
    let o : Operator := { kind := .descendant, minDepth := 2, maxDepth := 2 }
    let linked (kind : Kind) (i j : Int) (r : String) : Prop := ∃ e, (j, some e) ∈ s.candidates { o with kind := kind } i ∧ e.relation = r
    let found (kind : Kind) (i j : Int) : Prop := j ∈ (s.candidates { o with kind := kind } i).map (·.1)
    g.Sound ∧ (s.candidates o 1).map (·.1) = [1, 2, 3] ∧ (s.candidates { o with kind := .ancestor } 2).map (·.1) = [1, 2] ∧
      (s.candidates { o with kind := .leftNeighbour } 2).map (·.1) = [1, 3] ∧
      (∀ r, linked .child 1 2 r ↔ linked .parent 2 1 r) ∧
      (Label.any = .any → (found .descendant 1 2 ↔ found .ancestor 2 1)) ∧
      (found .rightNeighbour 1 2 ↔ found .leftNeighbour 2 1) ∧
      (found .rightSibling 1 2 ↔ found .leftSibling 2 1) ∧
      ∀ kind ∈ [Kind.rightNeighbour, .leftNeighbour, .rightSibling, .leftSibling], ¬found kind 1 1 := by
  intro g s o linked found
  have hsound : g.Sound := by
    refine (((((((Graph.sound_empty.addToken (t := { index := 1, position := 1 }) rfl).addToken (t := { index := 2, position := 2 })
      rfl).addToken (t := { index := 3, position := 1 }) rfl).addEdge (e := { governor := 1, dependent := 1, relation := "x" })
      rfl).addEdge (e := { governor := 1, dependent := 2, relation := "x" }) rfl).addEdge
      (e := { governor := 1, dependent := 2, relation := "y" }) rfl).addEdge (e := { governor := 1, dependent := 3, relation := "x" })
      rfl).addEdge (e := { governor := 2, dependent := 1, relation := "y" }) rfl
  exact ⟨hsound, by decide, by decide, by decide, candidates_converse hsound 1 2 o⟩

end Scope

end Treebank

import Treebank.Edit.Apply
import Treebank.Proofs.Checked.Candidate
import Treebank.Proofs.Graph.Content

/-!
# Checked changes

Removing several tokens or edges of a graph takes it that each is there when its turn comes, and a sweep that the tokens that it comes to
are there. The checked forms fail where that is not so; on a sound graph, for tokens and edges of it, they come to the same.
-/

namespace Treebank

namespace Graph

/-! ## Checked changes -/

/-- The tokens of a stack and those that are reached from it; every token that is passed has to be there. -/
def checkedSweep (next : Int → Except GraphError (List Int)) (unseen : List Int) : List Int → Except GraphError (List Int)
  | [] => .ok []
  | index :: stack => do
    let found ← next index
    let others ← checkedSweep next (apartFrom found unseen) (among found unseen ++ stack)
    return index :: others
termination_by stack => unseen.length + stack.length
decreasing_by
  have := length_among_add_length_apartFrom found unseen
  simp only [List.length_append, List.length_cons]
  omega

/-- Where the plain edges of a token lead; the token has to be there. -/
def checkedPlainSuccessors (g : Graph) (index : Int) : Except GraphError (List Int) := do
  let _ ← g.token index
  return g.plainSuccessors index

/-- The plain subtree of a token; every token that is passed has to be there. -/
def checkedSubtree (g : Graph) (index : Int) : Except GraphError (List Int) := do
  return Order.distinct (← checkedSweep g.checkedPlainSuccessors (apartFrom [index] g.indices) [index])

/-- The least position in the plain subtree of a token, all of which has to be there. -/
def checkedLeftmostPosition (g : Graph) (index : Int) : Except GraphError Int := do
  let top ← g.token index
  let ts ← (← g.checkedSubtree index).mapM g.token
  return (ts.map (·.position)).foldl min top.position

/-- The graph without some tokens, each of which has to be there when it is removed. -/
def checkedWithoutTokens (g : Graph) (indices : List Int) : Except GraphError Graph := indices.foldlM removeToken g

/-- The graph without some edges, each of which has to be there when it is removed. -/
def checkedWithoutEdges (g : Graph) (es : List Edge) : Except GraphError Graph := es.foldlM removeEdge g

/-! ## Changes that succeed -/

variable {g : Graph} {index : Int}

/-- Adding a token under a new index succeeds. -/
theorem addToken_succeeds (hg : g.Sound) {t : Token} (ht : g.hasToken t.index = false) :
    g.addToken t = .ok (g.withToken t) ∧ (g.withToken t).Sound ∧
      ∀ i, (g.withToken t).hasToken i ↔ i = t.index ∨ g.hasToken i := by
  have hok : g.addToken t = .ok { g with tokens := putEntry t.index t g.tokens } := if_neg (by rw [ht]; exact Bool.false_ne_true)
  have hwith : g.withToken t = { g with tokens := putEntry t.index t g.tokens } := by rw [withToken, hok]; rfl
  rw [hwith]
  refine ⟨hok, hg.addToken hok, fun i => ?_⟩
  rw [hasToken_iff, hasToken_iff]
  exact mem_keys_putEntry t.index t g.tokens i

/-- Adding an edge between tokens succeeds. -/
theorem addEdge_succeeds (hg : g.Sound) {e : Edge} (hgovernor : g.hasToken e.governor) (hdependent : g.hasToken e.dependent) :
    g.addEdge e = .ok (g.withEdge e) ∧ (g.withEdge e).Sound := by
  obtain ⟨g', hok⟩ : ∃ g', g.addEdge e = .ok g' := by
    unfold addEdge
    rw [hgovernor, hdependent]
    simp only [Bool.not_true, Bool.false_eq_true, if_false]
    split
    · exact ⟨g, rfl⟩
    · split <;> exact ⟨_, rfl⟩
  have hwith : g.withEdge e = g' := by rw [withEdge, hok]; rfl
  exact hwith ▸ ⟨hok, hg.addEdge hok⟩

/-- Removing an edge that is stored succeeds, and leaves those that are not equal to it. -/
theorem removeEdge_succeeds (hg : g.Sound) {e : Edge} (he : g.contains e) :
    g.removeEdge e = .ok (g.withoutEdge e) ∧ (g.withoutEdge e).Sound ∧
      ∀ f, g.contains f → ¬ e.same f → (g.withoutEdge e).contains f := by
  obtain ⟨g', hok⟩ : ∃ g', g.removeEdge e = .ok g' := by
    unfold removeEdge
    cases hfind : g.arcs.find? (·.edge.same e) with
    | some a => exact ⟨_, rfl⟩
    | none =>
      obtain ⟨a, ha, hs⟩ := List.any_eq_true.1 he
      exact absurd hs (by simpa using List.find?_eq_none.1 hfind a ha)
  have hwith : g.withoutEdge e = g' := by rw [withoutEdge, hok]; rfl
  refine hwith ▸ ⟨hok, hg.removeEdge hok, fun f hf hne => ?_⟩
  obtain ⟨a, ha, hs, rfl⟩ := removeEdge_eq_ok hok
  obtain ⟨b, hb, hs'⟩ := List.any_eq_true.1 hf
  refine List.any_eq_true.2 ⟨b, List.mem_filter.2 ⟨hb, bne_iff_ne.2 fun hslot => hne ?_⟩, hs'⟩
  rw [hg.eq_of_slot hb ha hslot] at hs'
  exact Edge.same_trans ((Edge.same_comm _ _).1 hs) hs'

/-- Without an edge that is not stored a graph is as it was. -/
theorem withoutEdge_eq_self {e : Edge} (hnone : ∀ a ∈ g.arcs, ¬ a.edge.same e) : g.withoutEdge e = g := by
  rw [withoutEdge, removeEdge, List.find?_eq_none.2 hnone]
  rfl

/-- Removing a token succeeds, and leaves the others. -/
theorem removeToken_succeeds (hg : g.Sound) (hi : g.hasToken index) :
    g.removeToken index = .ok (g.withoutToken index) ∧ (g.withoutToken index).Sound ∧
      ∀ i, (g.withoutToken index).hasToken i ↔ i ≠ index ∧ g.hasToken i := by
  obtain ⟨g', hok⟩ : ∃ g', g.removeToken index = .ok g' := ⟨_, (removeToken_eq g index).trans (if_pos hi)⟩
  have hwith : g.withoutToken index = g' := by rw [withoutToken, hok]; rfl
  refine hwith ▸ ⟨hok, hg.removeToken hok, fun i => ?_⟩
  obtain ⟨-, rfl⟩ := hg.removeToken_eq_ok hok
  unfold hasToken token?
  rw [Pairs.lookup_filter_ne]
  by_cases hii : i = index <;> simp [hii]

/-- Setting the roots to tokens succeeds. -/
theorem setRoots_succeeds (hg : g.Sound) {indices : List Int} (hi : ∀ i ∈ indices, g.hasToken i) :
    g.setRoots indices = .ok ((g.setRoots indices).toOption.getD g) ∧ ((g.setRoots indices).toOption.getD g).Sound := by
  have hok : g.setRoots indices = .ok { g with roots := Order.distinct indices } := by
    unfold setRoots
    cases hfind : (Order.byPlace indices).find? (!g.hasToken ·) with
    | none => rfl
    | some i =>
      have hmem := hi i (Order.mem_byPlace.1 (List.mem_of_find?_eq_some hfind))
      have hnot := List.find?_some hfind
      rw [hmem] at hnot
      cases hnot
  rw [hok]
  exact ⟨rfl, hg.setRoots hok⟩

/-- Removing tokens one after the other succeeds, if each is named once. -/
theorem checkedWithoutTokens_eq (hg : g.Sound) {indices : List Int} (hi : ∀ i ∈ indices, g.hasToken i) (hn : indices.Nodup) :
    g.checkedWithoutTokens indices = .ok (g.withoutTokens indices) ∧ (g.withoutTokens indices).Sound := by
  induction indices generalizing g with
  | nil => exact ⟨rfl, hg⟩
  | cons i indices ih =>
    rw [List.nodup_cons] at hn
    obtain ⟨hok, hsound, htokens⟩ := removeToken_succeeds hg (hi i (List.mem_cons_self ..))
    have hrest : ∀ j ∈ indices, (g.withoutToken i).hasToken j := fun j hj =>
      (htokens j).2 ⟨fun h => hn.1 (h ▸ hj), hi j (List.mem_cons_of_mem i hj)⟩
    obtain ⟨hok', hsound'⟩ := ih hsound hrest hn.2
    exact ⟨bind_eq_ok_iff.2 ⟨_, hok, hok'⟩, hsound'⟩

/-- Removing stored edges one after the other succeeds, if no two of them are equal. -/
theorem checkedWithoutEdges_eq (hg : g.Sound) {es : List Edge} (he : ∀ e ∈ es, g.contains e)
    (hn : es.Pairwise fun e f => ¬ e.same f) :
    g.checkedWithoutEdges es = .ok (g.withoutEdges es) ∧ (g.withoutEdges es).Sound := by
  induction es generalizing g with
  | nil => exact ⟨rfl, hg⟩
  | cons e es ih =>
    rw [List.pairwise_cons] at hn
    obtain ⟨hok, hsound, hedges⟩ := removeEdge_succeeds hg (he e (List.mem_cons_self ..))
    have hrest : ∀ f ∈ es, (g.withoutEdge e).contains f := fun f hf => hedges f (he f (List.mem_cons_of_mem e hf)) (hn.1 f hf)
    obtain ⟨hok', hsound'⟩ := ih hsound hrest hn.2
    exact ⟨bind_eq_ok_iff.2 ⟨_, hok, hok'⟩, hsound'⟩

/-- The edges into a token are stored, and no two of them are equal. -/
theorem incoming_stored (hg : g.Sound) (index : Int) :
    (∀ e ∈ g.incoming index, g.contains e) ∧ (g.incoming index).Pairwise fun e f => ¬ e.same f := by
  constructor
  · intro e he
    obtain ⟨a, ha, rfl⟩ := List.mem_map.1 (Order.mem_sortBy.1 he)
    exact List.any_eq_true.2 ⟨a, List.mem_of_mem_filter ha, Edge.same_refl _⟩
  · have hsymm : ∀ {e f : Edge}, ¬ e.same f → ¬ f.same e := fun hn hs => hn ((Edge.same_comm _ _).1 hs)
    exact (List.Perm.pairwise_iff hsymm (Order.perm_sortBy _ _)).2 (List.pairwise_map.2 (hg.distinct.filter _))

/-- The edge that is asked for is stored. -/
theorem contains_edge? {q : EdgeQuery} {e : Edge} (h : g.edge? q = some e) : g.contains e := by
  obtain ⟨⟨a, ha, rfl⟩, -⟩ := edge?_eq_some h
  exact List.any_eq_true.2 ⟨a, ha, Edge.same_refl _⟩

/-! ## Subtrees -/

/-- A checked sweep comes to what the sweep comes to, and passes tokens alone, if all that is followed leads to tokens. -/
theorem checkedSweep_eq {next : Int → Except GraphError (List Int)} {next' : Int → List Int} {live : Int → Prop}
    (hnext : ∀ i, live i → next i = .ok (next' i)) (hlive : ∀ i, ∀ j ∈ next' i, live j) (unseen : List Int) {stack : List Int}
    (hstack : ∀ i ∈ stack, live i) :
    checkedSweep next unseen stack = .ok (sweep next' unseen stack) ∧ ∀ i ∈ sweep next' unseen stack, live i := by
  induction unseen, stack using sweep.induct next' with
  | case1 unseen => simp [checkedSweep, sweep]
  | case2 unseen index stack found ih =>
    have hhere : live index := hstack index (List.mem_cons_self ..)
    have hrest : ∀ i ∈ among found unseen ++ stack, live i := by
      intro i hi
      rcases List.mem_append.1 hi with hi | hi
      · exact hlive index i (List.contains_iff_mem.1 (List.mem_filter.1 hi).2)
      · exact hstack i (List.mem_cons_of_mem index hi)
    obtain ⟨hok, hall⟩ := ih hrest
    rw [checkedSweep, sweep]
    exact ⟨bind_eq_ok_iff.2 ⟨_, hnext index hhere, bind_eq_ok_iff.2 ⟨_, hok, rfl⟩⟩, List.forall_mem_cons.2 ⟨hhere, hall⟩⟩

/-- In a sound graph all tokens of the plain subtree of a token are there. -/
theorem checkedSubtree_eq (hg : g.Sound) (hi : g.hasToken index) :
    g.checkedSubtree index = .ok (g.subtree index) ∧ ∀ i ∈ g.subtree index, g.hasToken i := by
  have hnext : ∀ i, g.hasToken i → g.checkedPlainSuccessors i = .ok (g.plainSuccessors i) := by
    intro i hi
    obtain ⟨t, -, hok⟩ := Scope.token_eq_ok hi
    exact bind_eq_ok_iff.2 ⟨_, hok, rfl⟩
  have hlive : ∀ i, ∀ j ∈ g.plainSuccessors i, g.hasToken j := by
    intro i j hj
    obtain ⟨e, he, rfl⟩ := List.mem_map.1 hj
    exact Scope.hasToken_far (s := { graph := g }) (d := .down) hg (List.mem_of_mem_filter he)
  have hstart : ∀ i ∈ [index], g.hasToken i := fun i hm => List.mem_singleton.1 hm ▸ hi
  obtain ⟨hok, hall⟩ := checkedSweep_eq hnext hlive (apartFrom [index] g.indices) hstart
  exact ⟨bind_eq_ok_iff.2 ⟨_, hok, rfl⟩, fun i hm => hall i (Order.mem_distinct.1 hm)⟩

/-- The least position in a plain subtree is found. -/
theorem checkedLeftmostPosition_eq (hg : g.Sound) (hi : g.hasToken index) :
    ∃ position, g.checkedLeftmostPosition index = .ok position ∧ g.leftmostPosition index = .ok position := by
  obtain ⟨t, -, hok⟩ := Scope.token_eq_ok hi
  obtain ⟨hsubtree, hall⟩ := checkedSubtree_eq hg hi
  have htokens : (g.subtree index).mapM g.token = .ok ((g.subtree index).filterMap g.token?) := by
    refine mapM_eq_ok_filterMap fun i hm => ?_
    obtain ⟨u, hu, huok⟩ := Scope.token_eq_ok (hall i hm)
    exact ⟨u, huok, hu⟩
  refine ⟨_, bind_eq_ok_iff.2 ⟨_, hok, bind_eq_ok_iff.2 ⟨_, hsubtree, bind_eq_ok_iff.2 ⟨_, htokens, rfl⟩⟩⟩, ?_⟩
  exact bind_eq_ok_iff.2 ⟨_, hok, rfl⟩

end Graph

end Treebank

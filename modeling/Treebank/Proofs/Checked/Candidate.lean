import Treebank.Match.Candidate
import Treebank.Proofs.Except
import Treebank.Proofs.Graph.Sound
import Mathlib.Data.List.Basic

/-!
# Checked candidates

An operator reads tokens that it takes to be there. A checked operator fails where one is not. At a token of a sound graph none ever is
missing, and the checked candidates are the candidates (`checkedCandidates_eq`).
-/

namespace Treebank

namespace Scope

open Pattern

/-! ## Candidates -/

/-- The edges of a token that are followed; the token has to be there. -/
def checkedEdges (s : Scope) (d : Direction) (index : Int) : Except GraphError (List Edge) := do
  let _ ← s.graph.token index
  return d.edges s.graph index

/-- The neighbours over one edge of a token, which has to be there. -/
def checkedNeighbours (s : Scope) (o : Operator) (d : Direction) (index : Int) : Except GraphError (List Candidate) := do
  let edges ← s.checkedEdges d index
  return ((Edge.firstOfEach d.far edges).filter (s.acceptsEdge o)).map fun e => (d.far e, some e)

/-- The tokens at the end of paths of any length; every token that is passed has to be there. -/
def checkedDescend (d : Direction) (next : Int → Except GraphError (List Edge)) (accepts : Edge → Bool)
    (unsearched matched : List Int) : (stack : List Int) → Except GraphError (List Edge)
  | [] => .ok []
  | index :: stack => do
    let edges ← next index
    let found := edges.map d.far
    let hits := firstReaching d.far accepts matched edges
    let others ← checkedDescend d next accepts (Graph.apartFrom found unsearched) (hits.map d.far ++ matched)
      ((Graph.among found unsearched).reverse ++ stack)
    return hits ++ others
termination_by stack => unsearched.length + stack.length
decreasing_by
  have := Graph.length_among_add_length_apartFrom (edges.map d.far) unsearched
  simp only [List.length_append, List.length_reverse, List.length_cons]
  omega

/-- The tokens at the end of paths whose length lies between bounds; every token that is passed has to be there. -/
def checkedDescendWithin (d : Direction) (next : Int → Except GraphError (List Edge)) (accepts : Edge → Bool) (least : Nat) :
    (left depth : Nat) → (returned : List Int) → (level : List Edge) → Except GraphError (List Edge)
  | 0, depth, returned, level =>
    .ok (if least ≤ depth then firstReaching d.far accepts returned (firstToEach d.far level) else [])
  | left + 1, depth, returned, level =>
    if level.isEmpty then .ok []
    else do
      let kept := firstToEach d.far level
      let hits := if least ≤ depth then firstReaching d.far accepts returned kept else []
      let levels ← kept.reverse.mapM fun e => next (d.far e)
      let others ← checkedDescendWithin d next accepts least left (depth + 1) (hits.map d.far ++ returned) levels.flatten
      return hits ++ others

/-- The last edges of paths from a token; every token that is passed has to be there. -/
def checkedPaths (s : Scope) (o : Operator) (d : Direction) (index : Int) : Except GraphError (List Edge) :=
  let next := s.checkedEdges d
  if o.isLimited then do checkedDescendWithin d next (s.acceptsEdge o) o.minDepth (o.maxDepth - 1) 1 [] (← next index)
  else checkedDescend d next (s.acceptsEdge o) s.graph.indices [] [index]

/-- The tokens at the end of paths from a token; every token that is passed has to be there. -/
def checkedReached (s : Scope) (o : Operator) (d : Direction) (index : Int) : Except GraphError (List Candidate) := do
  let edges ← s.checkedPaths o d index
  return edges.map fun e => (d.far e, some e)

/-- The ordinary tokens at the position next to that of a token, which has to be there. -/
def checkedNextWords (s : Scope) (index : Int) : Except GraphError (List Candidate) := do
  let here ← s.graph.token index
  return (s.graph.tokens.filter fun (_, t) => !t.isEmptyNode && t.position == here.position + 1).map fun (i, _) => (i, none)

/-- The dependents of the governors of a token whose position satisfies a test against its own; all of them have to be there. -/
def checkedSiblings (s : Scope) (test : Int → Int → Bool) (index : Int) : Except GraphError (List Candidate) := do
  let here ← s.graph.token index
  let entering ← s.checkedEdges .up index
  let leaving ← (Order.distinct (entering.map (·.governor))).mapM (s.checkedEdges .down)
  let indices := Order.distinct (leaving.flatMap fun es => Order.distinct (es.map (·.dependent)))
  let entries ← indices.mapM fun i => do return (i, ← s.graph.token i)
  return ((Order.sortBy (fun a b => Token.cmp a.2 b.2) entries).filter fun (_, t) => test here.position t.position).map
    fun (i, _) => (i, none)

/-- The candidates of an operator at a token; every token that is looked at has to be there. -/
def checkedCandidates (s : Scope) (o : Operator) (index : Int) : Except GraphError (List Candidate) :=
  match o.kind with
  | .child => s.checkedNeighbours o .down index
  | .parent => s.checkedNeighbours o .up index
  | .descendant => s.checkedReached o .down index
  | .ancestor => s.checkedReached o .up index
  | .same => .ok [(index, none)]
  | .nextWord => s.checkedNextWords index
  | .rightNeighbour => s.checkedSiblings (fun here other => other == here + 1) index
  | .leftNeighbour => s.checkedSiblings (fun here other => other == here - 1) index
  | .rightSibling => s.checkedSiblings (fun here other => decide (other > here)) index
  | .leftSibling => s.checkedSiblings (fun here other => decide (other < here)) index

/-! ## Candidates are tokens -/

variable {s : Scope} {index : Int}

/-- A token that is there is found. -/
theorem token_eq_ok {g : Graph} (h : g.hasToken index) : ∃ t, g.token? index = some t ∧ g.token index = .ok t := by
  obtain ⟨t, ht⟩ := Option.isSome_iff_exists.1 h
  exact ⟨t, ht, by rw [Graph.token, ht]⟩

/-- Followed edges lead to tokens. -/
theorem hasToken_far (hs : s.graph.Sound) {d : Direction} {i : Int} {e : Edge} (he : e ∈ d.edges s.graph i) :
    s.graph.hasToken (d.far e) := by
  cases d with
  | down =>
    obtain ⟨a, ha, rfl⟩ := List.mem_map.1 (Order.mem_sortBy.1 he)
    exact (hs.ends a (List.mem_of_mem_filter ha)).2
  | up =>
    obtain ⟨a, ha, rfl⟩ := List.mem_map.1 (Order.mem_sortBy.1 he)
    exact (hs.ends a (List.mem_of_mem_filter ha)).1

theorem mem_of_mem_firstOfEach {far : Edge → Int} {es : List Edge} {e : Edge} (he : e ∈ Edge.firstOfEach far es) : e ∈ es := by
  induction es with
  | nil => exact he
  | cons f es ih =>
    rcases List.mem_cons.1 he with rfl | he
    · exact List.mem_cons_self ..
    · exact List.mem_cons_of_mem f (ih (List.mem_of_mem_filter he))

theorem mem_of_mem_firstReaching {far : Edge → Int} {accepts : Edge → Bool} {matched : List Int} {es : List Edge} {e : Edge}
    (he : e ∈ firstReaching far accepts matched es) : e ∈ es := by
  induction es generalizing matched with
  | nil => exact he
  | cons f es ih =>
    rw [firstReaching] at he
    split at he
    · rcases List.mem_cons.1 he with rfl | he
      · exact List.mem_cons_self ..
      · exact List.mem_cons_of_mem f (ih he)
    · exact List.mem_cons_of_mem f (ih he)

theorem mem_of_mem_firstToEach {far : Edge → Int} {es : List Edge} {e : Edge} (he : e ∈ firstToEach far es) : e ∈ es := by
  induction es with
  | nil => exact he
  | cons f es ih =>
    rcases List.mem_cons.1 he with rfl | he
    · exact List.mem_cons_self ..
    · exact List.mem_cons_of_mem f (ih (List.mem_of_mem_filter he))

/-- What holds of all edges that are followed holds of those that a search of any depth finds. -/
theorem forall_mem_descend {d : Direction} {next : Int → List Edge} {accepts : Edge → Bool} {p : Edge → Prop}
    (hnext : ∀ i, ∀ e ∈ next i, p e) (unsearched matched stack : List Int) :
    ∀ e ∈ descend d next accepts unsearched matched stack, p e := by
  induction unsearched, matched, stack using descend.induct d next accepts with
  | case1 unsearched matched => simp [descend]
  | case2 unsearched matched index stack edges found hits ih =>
    intro e he
    rw [descend] at he
    rcases List.mem_append.1 he with he | he
    · exact hnext index e (mem_of_mem_firstReaching he)
    · exact ih e he

/-- What holds of all edges that are followed holds of those that a search between bounds finds. -/
theorem forall_mem_descendWithin {d : Direction} {next : Int → List Edge} {accepts : Edge → Bool} {p : Edge → Prop}
    (hnext : ∀ i, ∀ e ∈ next i, p e) (least left depth : Nat) (returned : List Int) {level : List Edge}
    (hlevel : ∀ e ∈ level, p e) : ∀ e ∈ descendWithin d next accepts least left depth returned level, p e := by
  have hhere : ∀ depth returned {level : List Edge}, (∀ e ∈ level, p e) →
      ∀ e ∈ (if least ≤ depth then firstReaching d.far accepts returned (firstToEach d.far level) else []), p e := by
    intro depth returned level hlevel e he
    split at he
    · exact hlevel e (mem_of_mem_firstToEach (mem_of_mem_firstReaching he))
    · cases he
  induction left generalizing depth returned level with
  | zero => exact hhere depth returned hlevel
  | succ left ih =>
    intro e he
    rw [descendWithin] at he
    split at he
    · cases he
    rcases List.mem_append.1 he with he | he
    · exact hhere depth returned hlevel e he
    · refine ih (depth + 1) _ (fun f hf => ?_) e he
      obtain ⟨g, -, hf⟩ := List.mem_flatMap.1 hf
      exact hnext (d.far g) f hf

/-- Paths lead to tokens. -/
theorem hasToken_of_mem_reached (hs : s.graph.Sound) {o : Operator} {d : Direction} {c : Candidate}
    (hc : c ∈ s.reached o d index) : s.graph.hasToken c.1 := by
  have hnext : ∀ i, ∀ e ∈ d.edges s.graph i, s.graph.hasToken (d.far e) := fun i e he => hasToken_far hs he
  obtain ⟨e, he, rfl⟩ := List.mem_map.1 hc
  split at he
  · exact forall_mem_descendWithin hnext _ _ _ _ (hnext index) e he
  · exact forall_mem_descend hnext _ _ _ e he

/-- The candidates at a token are tokens. -/
theorem hasToken_of_mem_candidates (hs : s.graph.Sound) (hi : s.graph.hasToken index) {o : Operator} {c : Candidate}
    (hc : c ∈ s.candidates o index) : s.graph.hasToken c.1 := by
  have hneighbours : ∀ {d}, c ∈ s.neighbours o d index → s.graph.hasToken c.1 := by
    intro d hc
    obtain ⟨e, he, rfl⟩ := List.mem_map.1 hc
    exact hasToken_far hs (mem_of_mem_firstOfEach (List.mem_of_mem_filter he))
  have hsiblings : ∀ {test}, c ∈ s.siblings test index → s.graph.hasToken c.1 := by
    intro test hc
    obtain ⟨p, hp, rfl⟩ := List.mem_map.1 hc
    obtain ⟨i, -, hi⟩ := List.mem_filterMap.1 (Order.mem_sortBy.1 (List.mem_of_mem_filter hp))
    obtain ⟨t, ht, rfl⟩ := Option.map_eq_some_iff.1 hi
    exact Option.isSome_of_mem ht
  unfold candidates at hc
  cases hk : o.kind <;> rw [hk] at hc <;> simp only at hc
  case child => exact hneighbours hc
  case parent => exact hneighbours hc
  case descendant => exact hasToken_of_mem_reached hs hc
  case ancestor => exact hasToken_of_mem_reached hs hc
  case same =>
    obtain rfl := List.mem_singleton.1 hc
    exact hi
  case nextWord =>
    obtain ⟨p, hp, rfl⟩ := List.mem_map.1 hc
    exact Graph.hasToken_iff.2 (List.mem_map_of_mem (List.mem_of_mem_filter hp))
  all_goals exact hsiblings hc

/-- The candidates of an operator that follows edges have edges. -/
theorem isSome_of_mem_candidates {o : Operator} (ho : o.kind.followsEdges) {c : Candidate} (hc : c ∈ s.candidates o index) :
    c.2.isSome := by
  have hedges : ∀ {far : Edge → Int} {es : List Edge}, c ∈ es.map (fun e => ((far e, some e) : Candidate)) → c.2.isSome := by
    intro far es hc
    obtain ⟨e, -, rfl⟩ := List.mem_map.1 hc
    rfl
  unfold candidates at hc
  cases hk : o.kind <;> rw [hk] at hc ho <;> simp only at hc
  case child => exact hedges hc
  case parent => exact hedges hc
  case descendant => exact hedges hc
  case ancestor => exact hedges hc
  all_goals cases ho

/-! ## Checked candidates -/

theorem checkedEdges_eq (hi : s.graph.hasToken index) (d : Direction) : s.checkedEdges d index = .ok (d.edges s.graph index) := by
  obtain ⟨t, -, ht⟩ := token_eq_ok hi
  rw [checkedEdges, ht]
  rfl

/-- A checked search of any depth comes to what the search comes to, if all that is followed leads to tokens. -/
theorem checkedDescend_eq {d : Direction} {next : Int → Except GraphError (List Edge)} {next' : Int → List Edge}
    {accepts : Edge → Bool} {live : Int → Prop} (hnext : ∀ i, live i → next i = .ok (next' i))
    (hfar : ∀ i, ∀ e ∈ next' i, live (d.far e)) (unsearched matched : List Int) {stack : List Int} (hstack : ∀ i ∈ stack, live i) :
    checkedDescend d next accepts unsearched matched stack = .ok (descend d next' accepts unsearched matched stack) := by
  induction unsearched, matched, stack using descend.induct d next' accepts with
  | case1 unsearched matched => rw [checkedDescend, descend]
  | case2 unsearched matched index stack edges found hits ih =>
    have hrest : ∀ i ∈ (Graph.among found unsearched).reverse ++ stack, live i := by
      intro i hi
      rcases List.mem_append.1 hi with hi | hi
      · have hfound := (List.mem_filter.1 (List.mem_reverse.1 hi)).2
        obtain ⟨e, he, rfl⟩ := List.mem_map.1 (List.contains_iff_mem.1 hfound)
        exact hfar index e he
      · exact hstack i (List.mem_cons_of_mem index hi)
    rw [checkedDescend, descend]
    exact bind_eq_ok_iff.2 ⟨_, hnext index (hstack index (List.mem_cons_self ..)), bind_eq_ok_iff.2 ⟨_, ih hrest, rfl⟩⟩

/-- A checked search between bounds comes to what the search comes to, if all that is followed leads to tokens. -/
theorem checkedDescendWithin_eq {d : Direction} {next : Int → Except GraphError (List Edge)} {next' : Int → List Edge}
    {accepts : Edge → Bool} {live : Int → Prop} (hnext : ∀ i, live i → next i = .ok (next' i))
    (hfar : ∀ i, ∀ e ∈ next' i, live (d.far e)) (least left depth : Nat) (returned : List Int) {level : List Edge}
    (hlevel : ∀ e ∈ level, live (d.far e)) :
    checkedDescendWithin d next accepts least left depth returned level =
      .ok (descendWithin d next' accepts least left depth returned level) := by
  induction left generalizing depth returned level with
  | zero => rw [checkedDescendWithin, descendWithin]
  | succ left ih =>
    rw [checkedDescendWithin, descendWithin]
    split
    · rfl
    · have hlevels := mapM_eq_ok (l := (firstToEach d.far level).reverse) (f := fun e => next (d.far e)) fun e he =>
        hnext _ (hlevel e (mem_of_mem_firstToEach (List.mem_reverse.1 he)))
      refine bind_eq_ok_iff.2 ⟨_, hlevels, bind_eq_ok_iff.2 ⟨_, ih (depth + 1) _ fun e he => ?_, rfl⟩⟩
      obtain ⟨f, -, he⟩ := List.mem_flatMap.1 he
      exact hfar _ e he

theorem checkedReached_eq (hs : s.graph.Sound) (hi : s.graph.hasToken index) (o : Operator) (d : Direction) :
    s.checkedReached o d index = .ok (s.reached o d index) := by
  have hnext : ∀ i, s.graph.hasToken i → s.checkedEdges d i = .ok (d.edges s.graph i) := fun i hi => checkedEdges_eq hi d
  have hfar : ∀ i, ∀ e ∈ d.edges s.graph i, s.graph.hasToken (d.far e) := fun i e he => hasToken_far hs he
  refine bind_eq_ok_iff.2 ⟨_, ?_, rfl⟩
  unfold checkedPaths
  split
  · exact bind_eq_ok_iff.2 ⟨_, hnext index hi, checkedDescendWithin_eq hnext hfar _ _ _ _ (hfar index)⟩
  · exact checkedDescend_eq hnext hfar _ _ fun i hm => List.mem_singleton.1 hm ▸ hi

/-- The position of a token that is there. -/
theorem position_eq {t : Token} (ht : s.graph.token? index = some t) : s.position index = t.position := by rw [position, ht]; rfl

theorem checkedNextWords_eq (hi : s.graph.hasToken index) : s.checkedNextWords index = .ok (s.nextWords index) := by
  obtain ⟨t, ht, hok⟩ := token_eq_ok hi
  rw [checkedNextWords, hok, nextWords, position_eq ht]
  rfl

theorem checkedSiblings_eq (hs : s.graph.Sound) (hi : s.graph.hasToken index) (test : Int → Int → Bool) :
    s.checkedSiblings test index = .ok (s.siblings (test (s.position index)) index) := by
  obtain ⟨t, ht, hok⟩ := token_eq_ok hi
  have hparents : ∀ p ∈ s.graph.parents index, s.checkedEdges .down p = .ok (s.graph.outgoing p) := by
    intro p hp
    obtain ⟨e, he, rfl⟩ := List.mem_map.1 (Order.mem_distinct.1 hp)
    exact checkedEdges_eq (hasToken_far (d := .up) hs he) .down
  have hchildren : ((Order.distinct ((Direction.up.edges s.graph index).map (·.governor))).map s.graph.outgoing).flatMap
      (fun es => Order.distinct (es.map (·.dependent))) = (s.graph.parents index).flatMap s.graph.children := List.flatMap_map ..
  have hentries : ∀ {is : List Int}, (∀ i ∈ is, s.graph.hasToken i) →
      (is.mapM fun i => do return (i, ← s.graph.token i)) = .ok (is.filterMap fun i => (s.graph.token? i).map (i, ·)) := by
    intro is his
    refine mapM_eq_ok_filterMap fun i hm => ?_
    obtain ⟨u, hu, huok⟩ := token_eq_ok (his i hm)
    exact ⟨(i, u), bind_eq_ok_iff.2 ⟨u, huok, rfl⟩, Option.map_eq_some_iff.2 ⟨u, hu, rfl⟩⟩
  unfold checkedSiblings siblings
  rw [hok, position_eq ht]
  refine bind_eq_ok_iff.2 ⟨_, rfl, bind_eq_ok_iff.2 ⟨_, checkedEdges_eq hi .up, bind_eq_ok_iff.2 ⟨_, mapM_eq_ok hparents, ?_⟩⟩⟩
  simp only [hchildren]
  refine bind_eq_ok_iff.2 ⟨_, hentries fun i hm => ?_, rfl⟩
  obtain ⟨p, -, hm⟩ := List.mem_flatMap.1 (Order.mem_distinct.1 hm)
  obtain ⟨e, he, rfl⟩ := List.mem_map.1 (Order.mem_distinct.1 hm)
  exact hasToken_far (d := .down) hs he

/-- At a token, every token that is looked at is there. -/
theorem checkedCandidates_eq (hs : s.graph.Sound) (hi : s.graph.hasToken index) (o : Operator) :
    s.checkedCandidates o index = .ok (s.candidates o index) := by
  have hneighbours : ∀ d, s.checkedNeighbours o d index = .ok (s.neighbours o d index) := fun d =>
    bind_eq_ok_iff.2 ⟨_, checkedEdges_eq hi d, rfl⟩
  unfold checkedCandidates candidates
  cases o.kind with
  | child => exact hneighbours .down
  | parent => exact hneighbours .up
  | descendant => exact checkedReached_eq hs hi o .down
  | ancestor => exact checkedReached_eq hs hi o .up
  | same => rfl
  | nextWord => exact checkedNextWords_eq hi
  | rightNeighbour => exact checkedSiblings_eq hs hi _
  | leftNeighbour => exact checkedSiblings_eq hs hi _
  | rightSibling => exact checkedSiblings_eq hs hi _
  | leftSibling => exact checkedSiblings_eq hs hi _

end Scope

end Treebank

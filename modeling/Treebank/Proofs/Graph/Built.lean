import Treebank.Proofs.Graph.Sound

/-!
# Built graphs

A graph that is built from tokens, edges and roots has these tokens, edges and roots and no others, and the edges that enter a token
come by slot in the order in which they were added.
-/

namespace Treebank

instance : Std.TransCmp Token.cmp := inferInstanceAs <| Std.TransCmp <|
  compareLex (compareOn Token.position) (compareLex (compareOn Token.emptyIndex) (compareOn Token.index))

namespace Graph

variable {g : Graph}

/-! ## Tokens -/

/-- A token with a new index is put in. -/
theorem withToken_eq {t : Token} (ht : g.hasToken t.index = false) :
    g.withToken t = { g with tokens := putEntry t.index t g.tokens } := by
  have hok : g.addToken t = .ok { g with tokens := putEntry t.index t g.tokens } := if_neg (by rw [ht]; exact Bool.false_ne_true)
  rw [withToken, hok]
  rfl

/-- Tokens with new indices are put in, each under its index. -/
theorem foldl_withToken (ts : List Token) (hts : (ts.map (·.index)).Nodup) (hnew : ∀ t ∈ ts, g.hasToken t.index = false) :
    ∃ entries, ts.foldl withToken g = { g with tokens := entries } ∧
      entries.Perm (ts.map (fun t => (t.index, t)) ++ g.tokens) := by
  induction ts generalizing g with
  | nil => exact ⟨g.tokens, rfl, List.Perm.refl _⟩
  | cons t ts ih =>
    rw [List.map_cons, List.nodup_cons] at hts
    obtain ⟨ht, hnew⟩ := List.forall_mem_cons.1 hnew
    have hnext : ∀ u ∈ ts, (g.withToken t).hasToken u.index = false := by
      intro u hu
      rw [withToken_eq ht, Bool.eq_false_iff, ne_eq, hasToken_iff, Graph.indices, mem_keys_putEntry]
      rintro (e | hm)
      · exact hts.1 (List.mem_map.2 ⟨u, hu, e⟩)
      · exact absurd (hasToken_iff.2 hm) (by simp [hnew u hu])
    obtain ⟨entries, he, hperm⟩ := ih hts.2 hnext
    refine ⟨entries, by rw [List.foldl_cons, he, withToken_eq ht], hperm.trans ?_⟩
    rw [withToken_eq ht, List.map_cons, List.cons_append]
    exact ((perm_putEntry t.index t g.tokens).append_left _).trans List.perm_middle

/-- The indices of tokens that are put in have tokens. -/
theorem hasToken_foldl_withToken {ts : List Token} (hts : (ts.map (·.index)).Nodup) (hnew : ∀ t ∈ ts, g.hasToken t.index = false)
    {i : Int} (hi : i ∈ ts.map (·.index)) : (ts.foldl withToken g).hasToken i := by
  obtain ⟨entries, htokens, hperm⟩ := foldl_withToken ts hts hnew
  rw [htokens, hasToken_iff, Graph.indices, (hperm.map (·.1)).mem_iff, List.map_append, List.map_map]
  exact List.mem_append_left _ hi

/-! ## Edges -/

/-- Edges in consecutive slots. -/
def arcsFrom (slot : Nat) : List Edge → List Arc
  | [] => []
  | e :: es => ⟨slot, e⟩ :: arcsFrom (slot + 1) es

/-- The edges in consecutive slots. -/
theorem map_edge_arcsFrom (slot : Nat) (es : List Edge) : (arcsFrom slot es).map (·.edge) = es := by
  induction es generalizing slot with
  | nil => rfl
  | cons e es ih => rw [arcsFrom, List.map_cons, ih]

/-- Consecutive slots are not below the first one. -/
theorem le_slot_of_mem {slot : Nat} {es : List Edge} {a : Arc} (ha : a ∈ arcsFrom slot es) : slot ≤ a.slot := by
  induction es generalizing slot with
  | nil => cases ha
  | cons e es ih =>
    rcases List.mem_cons.1 ha with rfl | ha
    · exact Nat.le_refl slot
    · exact Nat.le_of_succ_le (ih ha)

/-- Consecutive slots ascend. -/
theorem pairwise_arcsFrom (slot : Nat) (es : List Edge) :
    (arcsFrom slot es).Pairwise fun a b => compareOn Arc.slot a b = .lt := by
  induction es generalizing slot with
  | nil => exact List.Pairwise.nil
  | cons e es ih =>
    refine List.pairwise_cons.2 ⟨fun a ha => ?_, ih (slot + 1)⟩
    exact Nat.compare_eq_lt.2 (le_slot_of_mem ha)

/-- A new edge between tokens takes the first fresh slot, if none is free. -/
theorem withEdge_eq {e : Edge} (hfree : g.free = []) (hends : g.hasToken e.governor ∧ g.hasToken e.dependent)
    (hnew : g.contains e = false) : g.withEdge e = { g with arcs := ⟨g.fresh, e⟩ :: g.arcs, fresh := g.fresh + 1 } := by
  have hok : g.addEdge e = .ok { g with arcs := ⟨g.fresh, e⟩ :: g.arcs, fresh := g.fresh + 1 } := by
    unfold addEdge
    rw [hends.1, hends.2, hnew, hfree]
    rfl
  rw [withEdge, hok]
  rfl

/-- New edges between tokens, no two of them equal, take consecutive slots, if none is free. -/
theorem foldl_withEdge (es : List Edge) (hfree : g.free = [])
    (hends : ∀ e ∈ es, g.hasToken e.governor ∧ g.hasToken e.dependent) (hnew : ∀ e ∈ es, g.contains e = false)
    (hes : es.Pairwise fun e f => ¬ e.same f) :
    es.foldl withEdge g = { g with arcs := (arcsFrom g.fresh es).reverse ++ g.arcs, fresh := g.fresh + es.length } := by
  induction es generalizing g with
  | nil => rfl
  | cons e es ih =>
    obtain ⟨he, hends⟩ := List.forall_mem_cons.1 hends
    obtain ⟨hnewe, hnew⟩ := List.forall_mem_cons.1 hnew
    rw [List.pairwise_cons] at hes
    have heq := withEdge_eq hfree he hnewe
    have hnext : ∀ f ∈ es, (g.withEdge e).contains f = false := by
      intro f hf
      rw [heq, contains, List.any_cons, Bool.or_eq_false_iff]
      exact ⟨Bool.eq_false_iff.2 (hes.1 f hf), hnew f hf⟩
    rw [List.foldl_cons, ih (by rw [heq]; exact hfree) (by rw [heq]; exact hends) hnext hes.2, heq]
    simp [arcsFrom, Nat.add_assoc, Nat.add_comm 1]

/-- An edge that is stored is not stored again. -/
theorem withEdge_eq_self {e : Edge} (he : g.contains e) : g.withEdge e = g := by
  unfold withEdge addEdge
  split
  · rfl
  · split <;> rfl

/-- What is stored stays when an edge is added. -/
theorem contains_withEdge {e f : Edge} (he : g.contains e) : (g.withEdge f).contains e := by
  unfold withEdge addEdge
  split
  · exact he
  · split
    · exact he
    · split
      · exact he
      · split <;> simpa [contains, Except.toOption] using Or.inr he

/-- An edge between tokens is stored when it is added, and the tokens stay. -/
theorem contains_withEdge_self {e : Edge} (hends : g.hasToken e.governor ∧ g.hasToken e.dependent) :
    (g.withEdge e).contains e := by
  unfold withEdge addEdge
  rw [hends.1, hends.2]
  simp only [Bool.not_true, Bool.false_eq_true, if_false]
  split
  · assumption
  · split <;> simp [contains, Except.toOption]

/-- Where an edge is stored, it does not matter whether it is added among others. -/
theorem foldl_withEdge_filter {e : Edge} (es : List Edge) (he : g.contains e) :
    es.foldl withEdge g = (es.filter (!· == e)).foldl withEdge g := by
  induction es generalizing g with
  | nil => rfl
  | cons f es ih =>
    by_cases hf : f = e
    · rw [List.foldl_cons, hf, withEdge_eq_self he, List.filter_cons_of_neg (by simp)]
      exact ih he
    · rw [List.filter_cons_of_pos (by simpa using hf), List.foldl_cons, List.foldl_cons]
      exact ih (contains_withEdge he)

/-- Edges that come again among those that are added do not matter. -/
theorem foldl_withEdge_eraseDups (es : List Edge) (hends : ∀ e ∈ es, g.hasToken e.governor ∧ g.hasToken e.dependent) :
    es.foldl withEdge g = es.eraseDups.foldl withEdge g := by
  induction hn : es.length using Nat.strongRecOn generalizing g es with
  | ind n ih =>
    cases es with
    | nil => rfl
    | cons e es =>
      obtain ⟨he, hends⟩ := List.forall_mem_cons.1 hends
      have hfewer : (es.filter (!· == e)).length < n := by
        have := List.length_filter_le (!· == e) es
        rw [List.length_cons] at hn
        omega
      have hkept : ∀ i, g.hasToken i → (g.withEdge e).hasToken i := by
        intro i hi
        rwa [hasToken_congr (tokens_withEdge g e)]
      rw [List.eraseDups_cons, List.foldl_cons, List.foldl_cons, foldl_withEdge_filter es (contains_withEdge_self he)]
      refine ih _ hfewer _ (fun f hf => ?_) rfl
      obtain ⟨hgovernor, hdependent⟩ := hends f (List.mem_of_mem_filter hf)
      exact ⟨hkept _ hgovernor, hkept _ hdependent⟩

/-! ## Roots -/

/-- Tokens are made roots. -/
theorem foldl_withRoot (roots : List Int) (hroots : ∀ i ∈ roots, g.hasToken i) :
    ∃ is, roots.foldl withRoot g = { g with roots := is } ∧ ∀ i, i ∈ is ↔ i ∈ roots ∨ i ∈ g.roots := by
  induction roots generalizing g with
  | nil => exact ⟨g.roots, rfl, by simp⟩
  | cons index roots ih =>
    obtain ⟨hindex, hroots⟩ := List.forall_mem_cons.1 hroots
    have heq : g.withRoot index = { g with roots := Order.add index g.roots } := by
      rw [withRoot, addRoot, if_pos hindex]
      rfl
    obtain ⟨is, he, hmem⟩ := ih (g := g.withRoot index) (by rw [heq]; exact hroots)
    refine ⟨is, by rw [List.foldl_cons, he, heq], fun i => ?_⟩
    rw [hmem, heq, List.mem_cons, Order.mem_add]
    tauto

/-! ## Graphs -/

/-- The graph with tokens, edges and roots more. -/
def extend (g : Graph) (ts : List Token) (es : List Edge) (roots : List Int) : Graph :=
  roots.foldl withRoot (es.foldl withEdge (ts.foldl withToken g))

/-- A graph that has nothing but comments and surface words is sound. -/
theorem sound_start (comments : List String) (multiwords : List Multiword) :
    ({ comments := comments, multiwords := multiwords } : Graph).Sound :=
  ⟨.nil, (fun _ _ h => by cases h), (fun _ h => by cases h), .nil, .refl _, .nil, fun _ h => by cases h⟩

/-- A sound graph stays sound when it is extended. -/
theorem Sound.extend (h : g.Sound) (ts : List Token) (es : List Edge) (roots : List Int) : (g.extend ts es roots).Sound := by
  have htokens : (ts.foldl Graph.withToken g).Sound := List.foldlRecOn ts _ h fun _ hg t _ => hg.withToken t
  have hedges : (es.foldl Graph.withEdge (ts.foldl Graph.withToken g)).Sound :=
    List.foldlRecOn es _ htokens fun _ hg e _ => hg.withEdge e
  exact List.foldlRecOn roots _ hedges fun _ hg i _ => hg.withRoot i

/-- Tokens, edges and roots that make a graph: no two tokens have one index, no two edges are equal, and edges lead from tokens to
tokens, as roots are tokens. -/
structure Parts (ts : List Token) (es : List Edge) (roots : List Int) : Prop where
  indices : (ts.map (·.index)).Nodup
  distinct : es.Pairwise fun e f => ¬ e.same f
  ends : ∀ e ∈ es, e.governor ∈ ts.map (·.index) ∧ e.dependent ∈ ts.map (·.index)
  roots : ∀ i ∈ roots, i ∈ ts.map (·.index)

/-- A graph that has nothing but comments and surface words, with parts of a graph more. -/
theorem extend_eq {ts : List Token} {es : List Edge} {roots : List Int} (h : Parts ts es roots) (comments : List String)
    (multiwords : List Multiword) :
    ∃ entries is, extend { comments := comments, multiwords := multiwords } ts es roots =
        { tokens := entries, arcs := (arcsFrom 0 es).reverse, fresh := es.length, roots := is, comments := comments,
          multiwords := multiwords } ∧
      entries.Perm (ts.map fun t => (t.index, t)) ∧ ∀ i, i ∈ is ↔ i ∈ roots := by
  obtain ⟨entries, htokens, hperm⟩ :=
    foldl_withToken (g := { comments := comments, multiwords := multiwords }) ts h.indices fun _ _ => rfl
  rw [List.append_nil] at hperm
  have hhas : ∀ {g : Graph}, g.tokens = entries → ∀ {i}, i ∈ ts.map (·.index) → g.hasToken i := by
    intro g hg i hi
    rw [hasToken_iff, Graph.indices, hg, (hperm.map (·.1)).mem_iff, List.map_map]
    exact hi
  have hedges := foldl_withEdge (g := { tokens := entries, comments := comments, multiwords := multiwords }) es rfl
    (fun e he => ⟨hhas rfl (h.ends e he).1, hhas rfl (h.ends e he).2⟩) (fun _ _ => rfl) h.distinct
  rw [List.append_nil, Nat.zero_add] at hedges
  obtain ⟨is, hroots, hmem⟩ := foldl_withRoot (g := es.foldl withEdge (ts.foldl withToken _)) roots fun i hi => by
    rw [htokens, hedges]
    exact hhas rfl (h.roots i hi)
  refine ⟨entries, is, ?_, hperm, fun i => ?_⟩
  · rw [extend, hroots, htokens, hedges]
  · rw [hmem, htokens, hedges]
    simp

/-- Edges that come again among the parts of a graph do not matter. -/
theorem extend_eraseDups {ts : List Token} {es : List Edge} {roots : List Int} (h : Parts ts es.eraseDups roots)
    (comments : List String) (multiwords : List Multiword) :
    extend { comments := comments, multiwords := multiwords } ts es roots =
      extend { comments := comments, multiwords := multiwords } ts es.eraseDups roots := by
  rw [extend, extend, foldl_withEdge_eraseDups es fun e he => ?_]
  have hends := h.ends e (List.mem_eraseDups.2 he)
  exact ⟨hasToken_foldl_withToken h.indices (fun _ _ => rfl) hends.1, hasToken_foldl_withToken h.indices (fun _ _ => rfl) hends.2⟩

/-- A graph keeps its comments and surface words when it is extended. -/
theorem header_extend {ts : List Token} {es : List Edge} {roots : List Int} (h : Parts ts es roots) (comments : List String)
    (multiwords : List Multiword) :
    (extend { comments := comments, multiwords := multiwords } ts es roots).comments = comments ∧
      (extend { comments := comments, multiwords := multiwords } ts es roots).multiwords = multiwords := by
  obtain ⟨entries, is, heq, -, -⟩ := extend_eq h comments multiwords
  rw [heq]
  exact ⟨rfl, rfl⟩

/-- Edges in consecutive slots enter a token in the order of their slots. -/
theorem incomingBySlot_of_arcs {es : List Edge} (h : g.arcs = (arcsFrom 0 es).reverse) (index : Int) :
    g.incomingBySlot index = es.filter (·.dependent == index) := by
  have hsort := Order.sortBy_eq_of_perm (List.reverse_perm ((arcsFrom 0 es).filter (·.edge.dependent == index)))
    ((pairwise_arcsFrom 0 es).filter _)
  rw [incomingBySlot, h, List.filter_reverse, hsort]
  conv => rhs; rw [← map_edge_arcsFrom 0 es, List.filter_map]
  rfl

/-- What a graph has that is made of some parts. -/
structure MadeOf (g : Graph) (ts : List Token) (es : List Edge) (roots : List Int) : Prop where
  entries : g.tokens.Perm (ts.map fun t => (t.index, t))
  edges : (g.arcs.map (·.edge)).Perm es
  token : ∀ t ∈ ts, g.token? t.index = some t
  entering : ∀ index, g.incomingBySlot index = es.filter (·.dependent == index)
  isRoot : ∀ index, g.isRoot index ↔ index ∈ roots

/-- A graph that has nothing but comments and surface words is made of the parts with which it is extended. -/
theorem madeOf_extend {ts : List Token} {es : List Edge} {roots : List Int} (h : Parts ts es roots) (comments : List String)
    (multiwords : List Multiword) : (extend { comments := comments, multiwords := multiwords } ts es roots).MadeOf ts es roots := by
  obtain ⟨entries, is, heq, hperm, hmem⟩ := extend_eq h comments multiwords
  rw [heq]
  refine ⟨hperm, ?_, ?_, ?_, ?_⟩
  · show (((arcsFrom 0 es).reverse).map (·.edge)).Perm es
    rw [List.map_reverse, map_edge_arcsFrom]
    exact List.reverse_perm es
  · intro t ht
    have hkeys : (entries.map (·.1)).Nodup := by
      rw [(hperm.map (·.1)).nodup_iff, List.map_map]
      exact h.indices
    exact (Pairs.lookup_eq_some_iff_mem hkeys).2 (hperm.mem_iff.2 (List.mem_map.2 ⟨t, ht, rfl⟩))
  · exact incomingBySlot_of_arcs rfl
  · intro index
    rw [isRoot, List.contains_iff_mem, hmem]

/-- The tokens of a graph are those that it is made of. -/
theorem MadeOf.tokens {ts : List Token} {es : List Edge} {roots : List Int} (h : g.MadeOf ts es roots) : g.tokenList.Perm ts := by
  have htokens := h.entries.map (·.2)
  rwa [List.map_map, show ((·.2) ∘ fun t : Token => (t.index, t)) = id from rfl, List.map_id] at htokens

/-- The indices of a graph are those of the tokens that it is made of. -/
theorem MadeOf.indices {ts : List Token} {es : List Edge} {roots : List Int} (h : g.MadeOf ts es roots) :
    g.indices.Perm (ts.map (·.index)) := by
  have hindices := h.entries.map (·.1)
  rwa [List.map_map] at hindices

/-- The linear order of the tokens is the one in which they ascend. -/
theorem MadeOf.tokensInOrder_eq {ts : List Token} {es : List Edge} {roots : List Int} (h : g.MadeOf ts es roots)
    (hts : ts.Pairwise fun t u => Token.cmp t u = .lt) : g.tokensInOrder = ts :=
  Order.sortBy_eq_of_perm h.tokens hts

/-! ## Views of a graph -/

/-- The tokens in linear order are those of the graph. -/
theorem perm_tokensInOrder (g : Graph) : g.tokensInOrder.Perm g.tokenList := Order.perm_sortBy Token.cmp g.tokenList

/-- An edge that enters a token is one of the graph. -/
theorem exists_arc_of_mem_incomingBySlot {index : Int} {e : Edge} (he : e ∈ g.incomingBySlot index) :
    ∃ a ∈ g.arcs, a.edge = e ∧ e.dependent = index := by
  obtain ⟨a, ha, rfl⟩ := List.mem_map.1 he
  obtain ⟨ha, hd⟩ := List.mem_filter.1 (Order.mem_sortBy.1 ha)
  exact ⟨a, ha, rfl, beq_iff_eq.1 hd⟩

/-- The plain edge into a token is plain and enters it. -/
theorem plain_of_governorEdge? {index : Int} {e : Edge} (he : g.governorEdge? index = some e) :
    e.extra = false ∧ e ∈ g.incomingBySlot index := by
  have hextra := List.find?_some he
  exact ⟨by simpa using hextra, List.mem_of_find?_eq_some he⟩

end Graph

end Treebank

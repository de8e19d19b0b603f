import Treebank.Proofs.Graph.Arena
import Treebank.Proofs.Graph.Content
import Mathlib.Data.List.Find

/-!
# Stores hold graphs

In an aligned store the two maps between indices and numbers are inverse to each other, the places say of their tokens and edges what
the maps say, and the places of tokens list exactly the edges there are. Every operation keeps a store aligned, and does to the graph
that the store holds what it does to a graph (`Aligned.perform`). So a run from the empty store ends aligned, and says on the way what
the content of a graph says (`run_empty`).
-/

namespace Treebank.Graph.Store

/-- What every operation on stores keeps, besides what it keeps of the graph in it. -/
structure Aligned (s : Store) : Prop where
  /-- Numbers of tokens are used once. -/
  cells : s.cells.Numbered
  /-- The indices ascend. -/
  ascending : (s.numbers.map (·.1)).Pairwise (· < ·)
  /-- The two maps between indices and numbers are inverse to each other. -/
  inverse : ∀ index n, s.number? index = some n ↔ s.names.lookup n = some index
  /-- The number of an index is that of a place, whose token has the index. -/
  place : ∀ index n, s.number? index = some n → ∃ c, s.cells.get? n = some c ∧ c.token.index = index
  /-- Every place is that of an index. -/
  name : ∀ n c, s.cells.get? n = some c → s.names.lookup n = some c.token.index
  /-- An edge lies between the places of its ends. -/
  ends : ∀ k l, (k, l) ∈ s.links.items →
    s.number? l.edge.governor = some l.source ∧ s.number? l.edge.dependent = some l.target
  /-- A place lists the edges that leave it. -/
  leaving : ∀ n c, s.cells.get? n = some c → c.leaving = (s.links.items.filter (·.2.source == n)).map (·.1)
  /-- A place lists the edges that enter it. -/
  entering : ∀ n c, s.cells.get? n = some c → c.entering = (s.links.items.filter (·.2.target == n)).map (·.1)

section Inverse

variable {α β : Type} [DecidableEq α] [DecidableEq β] {f : α → Option β} {g : β → Option α} {a : α} {b : β}

/-- Two maps that are inverse to each other stay so with a pair more that is new to both. -/
theorem inverse_insert (h : ∀ x y, f x = some y ↔ g y = some x) (ha : f a = none) (hb : g b = none) (x : α) (y : β) :
    (if x = a then some b else f x) = some y ↔ (if y = b then some a else g y) = some x := by
  by_cases hx : x = a
  · subst hx
    by_cases hy : y = b
    · simp [hy]
    · simp [hy, Ne.symm hy, ← h, ha]
  · by_cases hy : y = b
    · subst hy
      simp [hx, Ne.symm hx, h, hb]
    · simp [hx, hy, h]

/-- Two maps that are inverse to each other stay so without a pair. -/
theorem inverse_erase (h : ∀ x y, f x = some y ↔ g y = some x) (hab : f a = some b) (x : α) (y : β) :
    (if x = a then none else f x) = some y ↔ (if y = b then none else g y) = some x := by
  by_cases hx : x = a
  · subst hx
    by_cases hy : y = b
    · simp [hy]
    · simp [hy, ← h, hab, Ne.symm hy]
  · by_cases hy : y = b
    · subst hy
      simp [hx, h, (h a y).1 hab, Ne.symm hx]
    · simp [hx, hy, h]

end Inverse

variable {s s' : Store}

/-- The empty store is aligned. -/
theorem aligned_empty : Aligned {} where
  cells := List.Perm.refl _
  ascending := List.Pairwise.nil
  inverse := by simp [number?]
  place := by simp [number?]
  name := by simp [Arena.get?]
  ends := by simp
  leaving := by simp [Arena.get?]
  entering := by simp [Arena.get?]

/-! ## What a store says -/

/-- The edge of a numbered place, in its slot. -/
def arcOf (k : Nat) (l : Link) : Arc := ⟨k, l.edge⟩

/-- The edges of the graph in a store. -/
theorem arcs_graph (s : Store) : s.graph.arcs = s.links.items.map fun (k, l) => arcOf k l := rfl

/-- The slots of the graph in a store are the numbers of the edges. -/
theorem slots_graph (s : Store) : s.graph.arcs.map (·.slot) = s.links.items.map (·.1) := by
  rw [arcs_graph, List.map_map]
  rfl

/-- Numbers of edges are used once. -/
theorem numbered_links (h : s.graph.Sound) : s.links.Numbered := by
  have hs := h.slots
  rwa [slots_graph] at hs

/-- The token of an index is that of its place. -/
theorem Aligned.token?_graph (h : s.Aligned) (index : Int) :
    s.graph.token? index = (s.number? index).bind fun n => (s.cells.get? n).map (·.token) := by
  have := Pairs.lookup_filterMap (nodup_of_ascending h.ascending) (fun n => (s.cells.get? n).map (·.token)) index
  simp only [Option.map_map] at this
  exact this

/-- A store and the graph in it have tokens under the same indices. -/
theorem Aligned.hasToken_graph (h : s.Aligned) (index : Int) : s.graph.hasToken index = s.hasToken index := by
  unfold Graph.hasToken Store.hasToken
  rw [h.token?_graph]
  cases hn : s.number? index with
  | none => rfl
  | some n =>
    obtain ⟨c, hc, -⟩ := h.place index n hn
    simp [hc]

/-- Two indices have two numbers. -/
theorem Aligned.eq_of_number? (h : s.Aligned) {i j : Int} {n : Nat} (hi : s.number? i = some n) (hj : s.number? j = some n) :
    i = j := by
  rw [h.inverse] at hi hj
  exact Option.some.inj (hi.symm.trans hj)

/-- The listed numbers are those of places. -/
theorem Aligned.isSome_get? (h : s.Aligned) : ∀ p ∈ s.numbers, (s.cells.get? p.2).isSome := by
  intro p hp
  have hn : s.number? p.1 = some p.2 := (Pairs.lookup_eq_some_iff_mem (nodup_of_ascending h.ascending)).2 hp
  obtain ⟨c, hc, -⟩ := h.place _ _ hn
  rw [hc]
  rfl

/-- Every edge lies between the places of the tokens at its ends, so a report finds none that does not. -/
theorem Aligned.strayed_eq_nil (h : s.Aligned) : s.strayed = [] := by
  refine List.map_eq_nil_iff.2 (List.filter_eq_nil_iff.2 fun p hp => ?_)
  obtain ⟨hsource, htarget⟩ := h.ends p.1 p.2 (Order.mem_sortBy.1 hp)
  simp [(h.inverse _ _).1 hsource, (h.inverse _ _).1 htarget]

/-- An edge leaves the place of its governor. -/
theorem Aligned.source_eq_iff (h : s.Aligned) {index : Int} {n : Nat} (hn : s.number? index = some n) {p : Nat × Link}
    (hp : p ∈ s.links.items) : p.2.source = n ↔ p.2.edge.governor = index := by
  have he := (h.ends p.1 p.2 hp).1
  constructor
  · intro e
    exact h.eq_of_number? (e ▸ he) hn
  · intro e
    rw [e, hn] at he
    exact (Option.some.inj he).symm

/-- An edge enters the place of its dependent. -/
theorem Aligned.target_eq_iff (h : s.Aligned) {index : Int} {n : Nat} (hn : s.number? index = some n) {p : Nat × Link}
    (hp : p ∈ s.links.items) : p.2.target = n ↔ p.2.edge.dependent = index := by
  have he := (h.ends p.1 p.2 hp).2
  constructor
  · intro e
    exact h.eq_of_number? (e ▸ he) hn
  · intro e
    rw [e, hn] at he
    exact (Option.some.inj he).symm

/-- The numbers of the edges that leave the place of an index. -/
theorem Aligned.leaving_eq (h : s.Aligned) {index : Int} {n : Nat} (hn : s.number? index = some n) :
    s.leaving n = (s.links.items.filter (·.2.edge.governor == index)).map (·.1) := by
  obtain ⟨c, hc, -⟩ := h.place index n hn
  unfold Store.leaving
  rw [hc, Option.map_some, Option.getD_some, h.leaving n c hc]
  refine congrArg _ (List.filter_congr fun p hp => ?_)
  rw [Bool.eq_iff_iff, beq_iff_eq, beq_iff_eq, h.source_eq_iff hn hp]

/-- The numbers of the edges that enter the place of an index. -/
theorem Aligned.entering_eq (h : s.Aligned) {index : Int} {n : Nat} (hn : s.number? index = some n) :
    s.entering n = (s.links.items.filter (·.2.edge.dependent == index)).map (·.1) := by
  obtain ⟨c, hc, -⟩ := h.place index n hn
  unfold Store.entering
  rw [hc, Option.map_some, Option.getD_some, h.entering n c hc]
  refine congrArg _ (List.filter_congr fun p hp => ?_)
  rw [Bool.eq_iff_iff, beq_iff_eq, beq_iff_eq, h.target_eq_iff hn hp]

/-- The edges of some of the numbers, read back. -/
theorem arcsOf_filter (hs : s.graph.Sound) (p : Edge → Bool) :
    s.arcsOf ((s.links.items.filter (p ·.2.edge)).map (·.1)) = s.graph.arcs.filter (p ·.edge) := by
  change List.filterMap (fun k => (s.links.get? k).map (arcOf k)) _ = _
  rw [(numbered_links hs).filterMap_get? arcOf (List.filter_subset_self _), arcs_graph, List.filter_map]
  rfl

/-- The edges that leave the place of an index are those that leave the index. -/
theorem Aligned.arcsOf_leaving (h : s.Aligned) (hs : s.graph.Sound) {index : Int} {n : Nat} (hn : s.number? index = some n) :
    s.arcsOf (s.leaving n) = s.graph.arcs.filter (·.edge.governor == index) := by
  rw [h.leaving_eq hn]
  exact arcsOf_filter hs (·.governor == index)

/-- The edges that enter the place of an index are those that enter the index. -/
theorem Aligned.arcsOf_entering (h : s.Aligned) (hs : s.graph.Sound) {index : Int} {n : Nat} (hn : s.number? index = some n) :
    s.arcsOf (s.entering n) = s.graph.arcs.filter (·.edge.dependent == index) := by
  rw [h.entering_eq hn]
  exact arcsOf_filter hs (·.dependent == index)

/-- The number of an edge is the slot of the stored edge that is equal to it. -/
theorem Aligned.findLink?_eq (h : s.Aligned) (hs : s.graph.Sound) (e : Edge) :
    s.findLink? e = (s.graph.arcs.find? (·.edge.same e)).map (·.slot) := by
  have hnone : ¬ (s.hasToken e.governor ∧ s.hasToken e.dependent) → s.graph.arcs.find? (·.edge.same e) = none := by
    intro hn
    refine List.find?_eq_none.2 fun a ha hsame => hn ?_
    obtain ⟨eg, ed⟩ := Edge.ends_of_same hsame
    have := hs.ends a ha
    rwa [eg, ed, h.hasToken_graph, h.hasToken_graph] at this
  unfold findLink?
  cases hg : s.number? e.governor with
  | none =>
    rw [hnone fun hb => by simp [hasToken, hg] at hb]
    rfl
  | some n =>
    cases hd : s.number? e.dependent with
    | none =>
      rw [hnone fun hb => by simp [hasToken, hd] at hb]
      rfl
    | some m =>
      simp only
      rw [h.leaving_eq hg, arcs_graph, List.find?_map, List.find?_map, List.find?_filter, Option.map_map]
      refine congrArg _ (List.find?_congr ?_)
      rintro ⟨k, l⟩ hp
      simp only [Function.comp, (numbered_links hs).get?_eq_some_iff.2 hp, Option.any_some, arcOf]
      cases hsame : l.edge.same e with
      | false => simp
      | true =>
        rw [(Edge.ends_of_same hsame).1]
        simp

/-- A store finds the edge that the graph in it finds. -/
theorem Aligned.edge?_eq (h : s.Aligned) (hs : s.graph.Sound) (q : EdgeQuery) : s.edge? q = s.graph.edge? q := by
  unfold Store.edge? Graph.edge?
  rw [h.hasToken_graph, h.hasToken_graph]
  unfold hasToken
  cases hg : s.number? q.governor with
  | none => rfl
  | some n =>
    cases hd : s.number? q.dependent with
    | none => rfl
    | some m =>
      simp only
      rw [h.arcsOf_leaving hs hg]
      rfl

/-- A plain edge enters the place of an index exactly if one enters the index. -/
theorem Aligned.hasGovernor_eq (h : s.Aligned) (hs : s.graph.Sound) {index : Int} {n : Nat} (hn : s.number? index = some n) :
    s.hasGovernor n = (s.graph.governorEdge? index).isSome := by
  unfold hasGovernor governorEdge? incomingBySlot
  rw [h.arcsOf_entering hs hn, List.find?_map, Option.isSome_map]
  rfl

/-- A store and the graph in it have the same tokens that could be roots. -/
theorem Aligned.headless_eq (h : s.Aligned) (hs : s.graph.Sound) : s.headless = s.graph.headless := by
  have := Pairs.keys_filter_filterMap s.numbers (fun n => (s.cells.get? n).map (·.token)) fun p =>
    !p.2.isEmptyNode && (s.graph.governorEdge? p.1).isNone
  simp only [Option.map_map, Option.any_map] at this
  unfold Store.headless Graph.headless
  refine Eq.trans ?_ this.symm
  refine congrArg _ (List.filter_congr ?_)
  rintro ⟨i, n⟩ hp
  have hn : s.number? i = some n := (Pairs.lookup_eq_some_iff_mem (nodup_of_ascending h.ascending)).2 hp
  simp only [h.hasGovernor_eq hs hn, Option.not_isSome]

/-! ## Tokens -/

/-- The tokens of the graph in a store. -/
theorem tokens_graph (s : Store) :
    s.graph.tokens = s.numbers.filterMap fun (i, n) => ((s.cells.get? n).map (·.token)).map fun t => (i, t) := by
  simp only [Option.map_map]
  rfl

/-- Other edges, listed at places that keep their tokens, are other edges of the graph. -/
theorem graph_relink {f : Nat → Cell → Cell} (hf : ∀ n c, (f n c).token = c.token) (s : Store) (links : Arena Link) :
    ({ s with cells := s.cells.mapItems f, links := links } : Store).graph =
      { s.graph with
        arcs := links.items.map fun (k, l) => arcOf k l
        free := links.free
        fresh := links.fresh } := by
  have ht : ({ s with cells := s.cells.mapItems f, links := links } : Store).graph.tokens = s.graph.tokens := by
    rw [tokens_graph, tokens_graph]
    simp only [Arena.get?_mapItems, Option.map_map, Function.comp_def, hf]
  dsimp only
  rw [← ht]
  rfl

/-- A number that has no place is the number of no index. -/
theorem Aligned.ne_of_get?_eq_none (h : s.Aligned) {n m : Nat} {index : Int} (hn : s.cells.get? n = none)
    (hm : s.number? index = some m) : m ≠ n := by
  rintro rfl
  obtain ⟨c, hc, -⟩ := h.place index m hm
  rw [hn] at hc
  cases hc

/-- A new token in a store is a new token in the graph. -/
theorem Aligned.graph_addToken (h : s.Aligned) (t : Token) : (s.addToken t).map graph = s.graph.addToken t := by
  unfold Store.addToken Graph.addToken
  rw [h.hasToken_graph]
  by_cases hi : s.hasToken t.index
  · rw [if_pos hi, if_pos hi]
    rfl
  · rw [if_neg hi, if_neg hi]
    have hold : ∀ p ∈ s.numbers, (s.cells.add { token := t }).get? p.2 = s.cells.get? p.2 := by
      intro p hp
      have hn : s.number? p.1 = some p.2 := (Pairs.lookup_eq_some_iff_mem (nodup_of_ascending h.ascending)).2 hp
      rw [Arena.get?_add, if_neg (by simpa using h.ne_of_get?_eq_none h.cells.get?_next hn)]
    have hnew : ((s.cells.add { token := t }).get? s.cells.next).map (·.token) = some t := by
      rw [Arena.get?_add, if_pos (beq_self_eq_true _)]
      rfl
    have htokens := filterMap_putEntry (f := fun n => ((s.cells.add { token := t }).get? n).map (·.token)) hnew t.index
      (l := s.numbers) fun p hp => by
        rw [hold p hp, Option.isSome_map]
        exact h.isSome_get? p hp
    have hrest : s.numbers.filterMap (fun (i, n) =>
        (((s.cells.add { token := t }).get? n).map (·.token)).map fun t => (i, t)) = s.graph.tokens := by
      rw [tokens_graph]
      refine List.filterMap_congr ?_
      rintro ⟨i, n⟩ hp
      simp only [hold (i, n) hp]
    rw [hrest] at htokens
    refine congrArg Except.ok ?_
    unfold graph
    congr 1
    exact (tokens_graph _).trans htokens

/-- No edge lies at a number without a place. -/
theorem Aligned.filter_source (h : s.Aligned) {n : Nat} (hn : s.cells.get? n = none) :
    s.links.items.filter (·.2.source == n) = [] := by
  refine List.filter_eq_nil_iff.2 fun p hp => ?_
  rw [beq_iff_eq]
  exact h.ne_of_get?_eq_none hn (h.ends p.1 p.2 hp).1

/-- No edge lies at a number without a place. -/
theorem Aligned.filter_target (h : s.Aligned) {n : Nat} (hn : s.cells.get? n = none) :
    s.links.items.filter (·.2.target == n) = [] := by
  refine List.filter_eq_nil_iff.2 fun p hp => ?_
  rw [beq_iff_eq]
  exact h.ne_of_get?_eq_none hn (h.ends p.1 p.2 hp).2

/-- A token that is added has a new index, and gets the next number. -/
theorem addToken_eq_ok {t : Token} (e : s.addToken t = .ok s') :
    s.number? t.index = none ∧ s' = { s with
      cells := s.cells.add { token := t }
      numbers := putEntry t.index s.cells.next s.numbers
      names := (s.cells.next, t.index) :: s.names } := by
  unfold Store.addToken at e
  split at e
  · cases e
  · rename_i hi
    cases e
    exact ⟨by simpa [hasToken] using hi, rfl⟩

/-- The new token's index has the next number, and the other indices keep theirs. -/
theorem number?_of_addToken {t : Token} (e : s.addToken t = .ok s') (index : Int) :
    s'.number? index = if index = t.index then some s.cells.next else s.number? index := by
  obtain ⟨hnone, rfl⟩ := addToken_eq_ok e
  exact lookup_putEntry t.index s.cells.next (Pairs.lookup_eq_none_iff_notMem.1 hnone) index

/-- The next number has the new token's index, and the other numbers keep theirs. -/
theorem name_of_addToken {t : Token} (e : s.addToken t = .ok s') (n : Nat) :
    s'.names.lookup n = if n = s.cells.next then some t.index else s.names.lookup n := by
  obtain ⟨-, rfl⟩ := addToken_eq_ok e
  simpa only [beq_iff_eq] using Pairs.lookup_cons_eq n s.cells.next t.index s.names

/-- The next number has the new token's place, and the other numbers keep theirs. -/
theorem get?_of_addToken {t : Token} (e : s.addToken t = .ok s') (n : Nat) :
    s'.cells.get? n = if n = s.cells.next then some { token := t } else s.cells.get? n := by
  obtain ⟨-, rfl⟩ := addToken_eq_ok e
  simpa only [beq_iff_eq] using Arena.get?_add s.cells { token := t } n

/-- A new token keeps a store aligned. -/
theorem Aligned.addToken (h : s.Aligned) {t : Token} (e : s.addToken t = .ok s') : s'.Aligned := by
  have hnum := number?_of_addToken e
  have hname := name_of_addToken e
  have hcell := get?_of_addToken e
  obtain ⟨hnone, he⟩ := addToken_eq_ok e
  have hfree := h.cells.get?_next
  have hold : ∀ {n c}, s'.cells.get? n = some c → (n = s.cells.next ∧ c = { token := t }) ∨ s.cells.get? n = some c := by
    intro n c hc
    rw [hcell] at hc
    split at hc
    · rename_i hn
      cases hc
      exact .inl ⟨hn, rfl⟩
    · exact .inr hc
  have hkeep : ∀ {index n}, s.number? index = some n → s'.number? index = some n := by
    intro index n hn
    rw [hnum, if_neg, hn]
    rintro rfl
    rw [hnone] at hn
    cases hn
  have hunnamed : s.names.lookup s.cells.next = none := by
    refine Option.eq_none_iff_forall_ne_some.2 fun index hindex => ?_
    exact h.ne_of_get?_eq_none hfree ((h.inverse _ _).2 hindex) rfl
  have hlinks : s'.links = s.links := by rw [he]
  refine { cells := ?cells, ascending := ?ascending, inverse := ?inverse, place := ?place, name := ?name, ends := ?ends
           leaving := ?leaving, entering := ?entering }
  case cells =>
    rw [he]
    exact h.cells.add _
  case ascending =>
    rw [he]
    exact ascending_putEntry _ _ h.ascending (Pairs.lookup_eq_none_iff_notMem.1 hnone)
  case inverse =>
    intro index n
    rw [hnum, hname]
    exact inverse_insert h.inverse hnone hunnamed index n
  case place =>
    intro index n hn
    rw [hnum] at hn
    split at hn
    · rename_i hi
      cases hn
      exact ⟨{ token := t }, by rw [hcell, if_pos rfl], hi.symm⟩
    · obtain ⟨c, hc, ht⟩ := h.place index n hn
      exact ⟨c, by rw [hcell, if_neg (h.ne_of_get?_eq_none hfree hn), hc], ht⟩
  case name =>
    intro n c hc
    rw [hname]
    rcases hold hc with ⟨rfl, rfl⟩ | hc'
    · exact if_pos rfl
    · rw [if_neg, h.name n c hc']
      rintro rfl
      rw [hfree] at hc'
      cases hc'
  case ends =>
    intro k l hl
    rw [hlinks] at hl
    exact ⟨hkeep (h.ends k l hl).1, hkeep (h.ends k l hl).2⟩
  case leaving =>
    intro n c hc
    rw [hlinks]
    rcases hold hc with ⟨rfl, rfl⟩ | hc'
    · rw [h.filter_source hfree]
      rfl
    · exact h.leaving n c hc'
  case entering =>
    intro n c hc
    rw [hlinks]
    rcases hold hc with ⟨rfl, rfl⟩ | hc'
    · rw [h.filter_target hfree]
      rfl
    · exact h.entering n c hc'

/-! ## Edges -/

/-- What links a store has is changed together with what its places list, and nothing else. -/
theorem Aligned.relink (h : s.Aligned) {f : Nat → Cell → Cell} {links : Arena Link} (hf : ∀ n c, (f n c).token = c.token)
    (hends : ∀ k l, (k, l) ∈ links.items →
      s.number? l.edge.governor = some l.source ∧ s.number? l.edge.dependent = some l.target)
    (hleaving : ∀ n c, c.leaving = (s.links.items.filter (·.2.source == n)).map (·.1) →
      (f n c).leaving = (links.items.filter (·.2.source == n)).map (·.1))
    (hentering : ∀ n c, c.entering = (s.links.items.filter (·.2.target == n)).map (·.1) →
      (f n c).entering = (links.items.filter (·.2.target == n)).map (·.1)) :
    Aligned { s with cells := s.cells.mapItems f, links := links } := by
  have hcell : ∀ {n c}, (s.cells.mapItems f).get? n = some c → ∃ c', s.cells.get? n = some c' ∧ f n c' = c := by
    intro n c hc
    rw [Arena.get?_mapItems] at hc
    exact Option.map_eq_some_iff.1 hc
  refine ⟨h.cells.mapItems f, h.ascending, h.inverse, fun index n hn => ?_, fun n c hc => ?_, hends, fun n c hc => ?_,
    fun n c hc => ?_⟩
  · obtain ⟨c, hc, ht⟩ := h.place index n hn
    exact ⟨f n c, by simp [Arena.get?_mapItems, hc], by rw [hf, ht]⟩
  · obtain ⟨c, hc', rfl⟩ := hcell hc
    rw [hf]
    exact h.name n c hc'
  · obtain ⟨c, hc', rfl⟩ := hcell hc
    exact hleaving n c (h.leaving n c hc')
  · obtain ⟨c, hc', rfl⟩ := hcell hc
    exact hentering n c (h.entering n c hc')

/-- A new edge between the places of its ends keeps a store aligned. -/
theorem Aligned.connect (h : s.Aligned) {l : Link} (hg : s.number? l.edge.governor = some l.source)
    (hd : s.number? l.edge.dependent = some l.target) : (s.connect l).Aligned := by
  refine h.relink (fun _ _ => rfl) (fun k l' hl => ?_) (fun n c hc => ?_) (fun n c hc => ?_)
  · rw [Arena.items_add] at hl
    rcases List.mem_cons.1 hl with e | hl
    · cases e
      exact ⟨hg, hd⟩
    · exact h.ends k l' hl
  · rw [Arena.items_add]
    by_cases hn : n = l.source
    · subst hn
      simp [Cell.attach, hc]
    · simp [Cell.attach, hn, Ne.symm hn, hc]
  · rw [Arena.items_add]
    by_cases hn : n = l.target
    · subst hn
      simp [Cell.attach, hc]
    · simp [Cell.attach, hn, Ne.symm hn, hc]

/-- A new edge between two places takes a free slot of the graph, or else a fresh one. -/
theorem graph_connect (s : Store) (l : Link) :
    (s.connect l).graph =
      match s.graph.free with
      | slot :: free => { s.graph with arcs := ⟨slot, l.edge⟩ :: s.graph.arcs, free := free }
      | [] => { s.graph with arcs := ⟨s.graph.fresh, l.edge⟩ :: s.graph.arcs, fresh := s.graph.fresh + 1 } := by
  refine (graph_relink (f := fun n c => c.attach s.links.next (n == l.source) (n == l.target)) (fun _ _ => rfl) s _).trans ?_
  unfold Arena.add graph
  cases s.links.free <;> rfl

/-- A new edge in a store is a new edge in the graph. -/
theorem Aligned.graph_addEdge (h : s.Aligned) (hs : s.graph.Sound) (e : Edge) :
    (s.addEdge e).map graph = s.graph.addEdge e := by
  unfold Store.addEdge Graph.addEdge number
  rw [h.hasToken_graph, h.hasToken_graph, hasToken, hasToken]
  cases hg : s.number? e.governor with
  | none => rfl
  | some n =>
    cases hd : s.number? e.dependent with
    | none => rfl
    | some m =>
      simp only [h.findLink?_eq hs, Option.isSome_map, List.isSome_find?]
      change Except.map graph (.ok (if s.graph.contains e then s else s.connect ⟨n, m, e⟩)) = _
      by_cases hc : s.graph.contains e
      · simp [hc, Except.map]
      · rw [if_neg hc, Except.map, graph_connect]
        simp only [Option.isSome_some, hc, Bool.not_true, Bool.false_eq_true, if_false]
        cases s.graph.free <;> rfl

/-- A new edge keeps a store aligned. -/
theorem Aligned.addEdge (h : s.Aligned) {e : Edge} (he : s.addEdge e = .ok s') : s'.Aligned := by
  unfold Store.addEdge number at he
  cases hg : s.number? e.governor with
  | none => simp [hg, bind, Except.bind] at he
  | some n =>
    cases hd : s.number? e.dependent with
    | none => simp [hg, hd, bind, Except.bind] at he
    | some m =>
      simp only [hg, hd, bind, Except.bind, pure, Except.pure, Except.ok.injEq] at he
      rw [← he]
      split
      · exact h
      · exact h.connect hg hd

/-- Dropping the edge of a number. -/
theorem disconnect_eq (h : s.graph.Sound) {k : Nat} {l : Link} (hl : (k, l) ∈ s.links.items) :
    s.disconnect k = { s with
      links := s.links.drop k
      cells := s.cells.mapItems fun n c => if n == l.source || n == l.target then c.detach k else c } := by
  unfold disconnect
  rw [(numbered_links h).get?_eq_some_iff.2 hl]

/-- The numbers of the other edges of one kind. -/
theorem map_filter_drop (s : Store) (k : Nat) (p : Link → Bool) :
    ((s.links.drop k).items.filter (p ·.2)).map (·.1) = ((s.links.items.filter (p ·.2)).map (·.1)).filter (· != k) := by
  unfold Arena.drop
  rw [List.filter_map, List.filter_filter, List.filter_filter]
  exact congrArg _ (List.filter_congr fun _ _ => Bool.and_comm ..)

/-- The number of an edge of another kind is not among those of one kind. -/
theorem filter_ne_eq_self (h : s.graph.Sound) {k : Nat} {l : Link} (hl : (k, l) ∈ s.links.items) {p : Link → Bool}
    (hp : p l = false) :
    ((s.links.items.filter (p ·.2)).map (·.1)).filter (· != k) = (s.links.items.filter (p ·.2)).map (·.1) := by
  refine List.filter_eq_self.2 fun n hn => bne_iff_ne.2 ?_
  rintro rfl
  obtain ⟨q, hq, rfl⟩ := List.mem_map.1 hn
  obtain ⟨hq, hpq⟩ := List.mem_filter.1 hq
  have hlinks := numbered_links h
  have : q.2 = l := Option.some.inj ((hlinks.get?_eq_some_iff.2 hq).symm.trans (hlinks.get?_eq_some_iff.2 hl))
  rw [this, hp] at hpq
  cases hpq

/-- Dropping an edge keeps a store aligned. -/
theorem Aligned.disconnect (h : s.Aligned) (hs : s.graph.Sound) {k : Nat} (hk : k ∈ s.links.items.map (·.1)) :
    (s.disconnect k).Aligned := by
  obtain ⟨⟨k, l⟩, hl, rfl⟩ := List.mem_map.1 hk
  rw [disconnect_eq hs hl]
  refine h.relink (fun n c => ?_) (fun k' l' hl' => h.ends k' l' (List.mem_of_mem_filter hl')) (fun n c hc => ?_)
    (fun n c hc => ?_)
  · split <;> rfl
  · rw [map_filter_drop s k (·.source == n)]
    split
    · rw [← hc]
      rfl
    · rename_i hn
      rw [filter_ne_eq_self hs hl (p := (·.source == n)), hc]
      rw [beq_eq_false_iff_ne]
      rintro rfl
      simp at hn
  · rw [map_filter_drop s k (·.target == n)]
    split
    · rw [← hc]
      rfl
    · rename_i hn
      rw [filter_ne_eq_self hs hl (p := (·.target == n)), hc]
      rw [beq_eq_false_iff_ne]
      rintro rfl
      simp at hn

/-- Dropping an edge of a store frees its slot in the graph. -/
theorem graph_disconnect (hs : s.graph.Sound) {k : Nat} (hk : k ∈ s.links.items.map (·.1)) :
    (s.disconnect k).graph = s.graph.freeSlots [k] := by
  obtain ⟨⟨k, l⟩, hl, rfl⟩ := List.mem_map.1 hk
  rw [disconnect_eq hs hl]
  refine (graph_relink (fun n c => by split <;> rfl) s _).trans ?_
  have ha : ((s.links.drop k).items.map fun (k, l) => arcOf k l) = s.graph.arcs.filter fun a => !([k].contains a.slot) := by
    rw [arcs_graph, List.filter_map]
    unfold Arena.drop
    refine congrArg _ (List.filter_congr fun p _ => ?_)
    rw [Function.comp, List.contains_cons, List.contains_nil, Bool.or_false]
    rfl
  rw [ha]
  rfl

/-- Removing an edge from a store removes it from the graph. -/
theorem Aligned.graph_removeEdge (h : s.Aligned) (hs : s.graph.Sound) (e : Edge) :
    (s.removeEdge e).map graph = s.graph.removeEdge e := by
  unfold Store.removeEdge Graph.removeEdge
  rw [h.findLink?_eq hs]
  cases ha : s.graph.arcs.find? (·.edge.same e) with
  | none => rfl
  | some a =>
    obtain ⟨p, hp, rfl⟩ := List.mem_map.1 (List.mem_of_find?_eq_some ha)
    exact congrArg Except.ok (graph_disconnect hs (List.mem_map_of_mem hp))

/-- Removing an edge keeps a store aligned. -/
theorem Aligned.removeEdge (h : s.Aligned) (hs : s.graph.Sound) {e : Edge} (he : s.removeEdge e = .ok s') : s'.Aligned := by
  unfold Store.removeEdge at he
  rw [h.findLink?_eq hs] at he
  cases ha : s.graph.arcs.find? (·.edge.same e) with
  | none =>
    rw [ha] at he
    cases he
  | some a =>
    obtain ⟨p, hp, rfl⟩ := List.mem_map.1 (List.mem_of_find?_eq_some ha)
    rw [ha] at he
    cases he
    exact h.disconnect hs (List.mem_map_of_mem hp)

/-! ## Removing tokens -/

/-- Freeing slots and then others frees them all. -/
theorem freeSlots_append (g : Graph) (ks ls : List Nat) : (g.freeSlots ks).freeSlots ls = g.freeSlots (ks ++ ls) := by
  unfold freeSlots
  simp only [List.filter_filter, List.reverse_append, List.append_assoc, Graph.mk.injEq, true_and, and_true]
  refine List.filter_congr fun a _ => ?_
  simp only [List.contains_eq_mem, List.mem_append, Bool.decide_or, Bool.not_or]
  exact Bool.and_comm ..

/-- What holds of a store and the store that is left when some edges are dropped. -/
structure Dropped (s s' : Store) (ks : List Nat) : Prop where
  aligned : s'.Aligned
  sound : s'.graph.Sound
  graph : s'.graph = s.graph.freeSlots ks
  numbers : s'.numbers = s.numbers
  names : s'.names = s.names

/-- Dropping edges one after the other frees their slots and keeps the rest. -/
theorem Aligned.dropped (h : s.Aligned) (hs : s.graph.Sound) (ks : List Nat) (hks : ks.Nodup)
    (hm : ∀ k ∈ ks, k ∈ s.links.items.map (·.1)) : Dropped s (ks.foldl Store.disconnect s) ks := by
  induction ks generalizing s with
  | nil => exact ⟨h, hs, by simp [freeSlots], rfl, rfl⟩
  | cons k ks ih =>
    obtain ⟨hk, hks'⟩ := List.nodup_cons.1 hks
    have hkm := hm k (List.mem_cons_self ..)
    obtain ⟨⟨k, l⟩, hl, rfl⟩ := List.mem_map.1 hkm
    have hg := graph_disconnect hs hkm
    have hs' : (s.disconnect k).graph.Sound := by
      rw [hg]
      exact hs.freeSlots (List.nodup_singleton k) fun n hn => by
        rw [List.mem_singleton.1 hn, slots_graph]
        exact hkm
    have hrest := ih (h.disconnect hs hkm) hs' hks' fun m hm' => by
      obtain ⟨p, hp, rfl⟩ := List.mem_map.1 (hm m (List.mem_cons_of_mem _ hm'))
      rw [disconnect_eq hs hl]
      refine List.mem_map_of_mem (List.mem_filter.2 ⟨hp, bne_iff_ne.2 ?_⟩)
      rintro rfl
      exact hk hm'
    refine ⟨hrest.aligned, hrest.sound, ?_, ?_, ?_⟩
    · rw [List.foldl_cons, hrest.graph, hg, freeSlots_append, List.singleton_append]
    · rw [List.foldl_cons, hrest.numbers, disconnect_eq hs hl]
    · rw [List.foldl_cons, hrest.names, disconnect_eq hs hl]

/-- A store without the token of a place. -/
def forget (s : Store) (index : Int) (n : Nat) : Store :=
  { s with
    cells := s.cells.drop n
    numbers := s.numbers.filter (·.1 != index)
    names := s.names.filter (·.1 != n)
    roots := s.roots.filter (· != index) }

/-- A token without edges that is forgotten leaves a store aligned. -/
theorem Aligned.forget (h : s.Aligned) {index : Int} {n : Nat} (hn : s.number? index = some n)
    (hno : ∀ p ∈ s.links.items, p.2.edge.governor ≠ index ∧ p.2.edge.dependent ≠ index) : (s.forget index n).Aligned := by
  have hnum : ∀ i, (s.forget index n).number? i = if i = index then none else s.number? i := by
    intro i
    simpa only [number?, Store.forget, beq_iff_eq] using Pairs.lookup_filter_ne s.numbers index i
  have hname : ∀ m, (s.forget index n).names.lookup m = if m = n then none else s.names.lookup m := by
    intro m
    simpa only [Store.forget, beq_iff_eq] using Pairs.lookup_filter_ne s.names n m
  have hcell : ∀ m, (s.forget index n).cells.get? m = if m == n then none else s.cells.get? m := s.cells.get?_drop n
  have hkeep : ∀ {m c}, (s.forget index n).cells.get? m = some c → m ≠ n ∧ s.cells.get? m = some c := by
    intro m c hc
    rw [hcell] at hc
    split at hc
    · cases hc
    · rename_i hm
      exact ⟨by simpa using hm, hc⟩
  obtain ⟨c, hc, -⟩ := h.place index n hn
  refine { cells := h.cells.drop (List.mem_map_of_mem (h.cells.get?_eq_some_iff.1 hc))
           ascending := h.ascending.sublist (List.filter_sublist.map _)
           inverse := ?inverse, place := ?place, name := ?name, ends := ?ends
           leaving := fun m c' hc' => h.leaving m c' (hkeep hc').2
           entering := fun m c' hc' => h.entering m c' (hkeep hc').2 }
  case inverse =>
    intro i m
    rw [hnum, hname]
    exact inverse_erase h.inverse hn i m
  case place =>
    intro i m hi
    rw [hnum] at hi
    split at hi
    · cases hi
    · rename_i hne
      obtain ⟨c', hc', ht'⟩ := h.place i m hi
      refine ⟨c', ?_, ht'⟩
      rw [hcell, if_neg, hc']
      rw [beq_iff_eq]
      rintro rfl
      exact hne (h.eq_of_number? hi hn)
  case name =>
    intro m c' hc'
    obtain ⟨hm, hc'⟩ := hkeep hc'
    rw [hname, if_neg hm]
    exact h.name m c' hc'
  case ends =>
    intro k l hl
    obtain ⟨hg, hd⟩ := hno (k, l) hl
    rw [hnum, hnum, if_neg hg, if_neg hd]
    exact h.ends k l hl

/-- The graph in a store without a token. -/
theorem Aligned.graph_forget (h : s.Aligned) {index : Int} {n : Nat} (hn : s.number? index = some n) :
    (s.forget index n).graph =
      { s.graph with
        tokens := s.graph.tokens.filter (·.1 != index)
        roots := s.graph.roots.filter (· != index) } := by
  have ht : (s.forget index n).graph.tokens = s.graph.tokens.filter (·.1 != index) := by
    rw [tokens_graph, tokens_graph]
    refine Eq.trans (List.filterMap_congr ?_)
      (Pairs.filterMap_filter_keys s.numbers (fun m => (s.cells.get? m).map (·.token)) (· != index))
    rintro ⟨i, m⟩ hp
    obtain ⟨hp, hi⟩ := List.mem_filter.1 hp
    have hm : s.number? i = some m := (Pairs.lookup_eq_some_iff_mem (nodup_of_ascending h.ascending)).2 hp
    have : m ≠ n := by
      rintro rfl
      exact bne_iff_ne.1 hi (h.eq_of_number? hm hn)
    simp only [Store.forget, Arena.get?_drop, beq_iff_eq, this, if_false]
  rw [← ht]
  rfl

/-- The slots of some of the edges. -/
theorem map_filter_slots (s : Store) (p : Edge → Bool) :
    (s.links.items.filter (p ·.2.edge)).map (·.1) = (s.graph.arcs.filter (p ·.edge)).map (·.slot) := by
  rw [arcs_graph, List.filter_map, List.map_map]
  rfl

/-- The edges that enter a token still when those that leave it have been dropped. -/
theorem slotsAt_eq {g : Graph} (hs : g.Sound) (index : Int) :
    g.slotsAt index =
      (g.arcs.filter (·.edge.governor == index)).map (·.slot) ++
        ((g.freeSlots ((g.arcs.filter (·.edge.governor == index)).map (·.slot))).arcs.filter
          (·.edge.dependent == index)).map (·.slot) := by
  unfold slotsAt freeSlots
  rw [List.map_append, List.filter_filter]
  refine congrArg _ (congrArg _ (List.filter_congr fun a ha => congrArg _ ?_))
  rw [Bool.eq_iff_iff, bne_iff_ne, Bool.not_eq_true', List.contains_eq_mem, decide_eq_false_iff_not, not_iff_not, List.mem_map]
  constructor
  · intro hg
    exact ⟨a, List.mem_filter.2 ⟨ha, by simpa using hg⟩, rfl⟩
  · rintro ⟨b, hb, e⟩
    obtain ⟨hb, hg⟩ := List.mem_filter.1 hb
    rw [← hs.eq_of_slot hb ha e]
    simpa using hg

/-- Removing a token: its edges are dropped, first those that leave it, then the others that enter it, and then it is forgotten. -/
theorem Aligned.removeToken_eq (h : s.Aligned) (hs : s.graph.Sound) {index : Int} {n : Nat}
    (hn : s.number? index = some n) :
    ∃ s', Dropped s s' (s.graph.slotsAt index) ∧ s.removeToken index = .ok (s'.forget index n) := by
  have hlinks := hs.slots.nodup_used
  rw [slots_graph] at hlinks
  -- The edges that leave the token.
  have hleaving := h.leaving_eq hn
  have h₁ := h.dropped hs (s.leaving n) (hleaving ▸ hlinks.sublist (List.Sublist.map _ List.filter_sublist))
    fun k hk => by
      rw [hleaving] at hk
      exact List.Sublist.subset (List.Sublist.map _ List.filter_sublist) hk
  generalize hs₁ : (s.leaving n).foldl Store.disconnect s = s₁ at h₁
  -- The edges that still enter it.
  have hn₁ : s₁.number? index = some n := by
    unfold number?
    rw [h₁.numbers]
    exact hn
  have hlinks₁ := h₁.sound.slots.nodup_used
  rw [slots_graph] at hlinks₁
  have hentering := h₁.aligned.entering_eq hn₁
  have h₂ := h₁.aligned.dropped h₁.sound (s₁.entering n)
    (hentering ▸ hlinks₁.sublist (List.Sublist.map _ List.filter_sublist)) fun k hk => by
      rw [hentering] at hk
      exact List.Sublist.subset (List.Sublist.map _ List.filter_sublist) hk
  generalize hs₂ : (s₁.entering n).foldl Store.disconnect s₁ = s₂ at h₂
  refine ⟨s₂, ⟨h₂.aligned, h₂.sound, ?_, h₂.numbers.trans h₁.numbers, h₂.names.trans h₁.names⟩, ?_⟩
  · rw [h₂.graph, h₁.graph, freeSlots_append, hentering, map_filter_slots s₁ (·.dependent == index), h₁.graph, hleaving,
      map_filter_slots s (·.governor == index), ← slotsAt_eq hs]
  · unfold Store.removeToken number
    rw [hn]
    simp only [bind, Except.bind, pure, Except.pure, hs₁, hs₂]
    rfl

/-- Removing a token from a store removes it from the graph. -/
theorem Aligned.graph_removeToken (h : s.Aligned) (hs : s.graph.Sound) (index : Int) :
    (s.removeToken index).map graph = s.graph.removeToken index := by
  rw [Graph.removeToken_eq, h.hasToken_graph, hasToken]
  cases hn : s.number? index with
  | none =>
    unfold Store.removeToken number
    rw [hn]
    rfl
  | some n =>
    obtain ⟨s', hd, he⟩ := h.removeToken_eq hs hn
    have hn' : s'.number? index = some n := by
      unfold number?
      rw [hd.numbers]
      exact hn
    rw [he, Except.map, hd.aligned.graph_forget hn', hd.graph]
    rfl

/-- Removing a token keeps a store aligned. -/
theorem Aligned.removeToken (h : s.Aligned) (hs : s.graph.Sound) {index : Int} (e : s.removeToken index = .ok s') :
    s'.Aligned := by
  cases hn : s.number? index with
  | none =>
    unfold Store.removeToken number at e
    rw [hn] at e
    cases e
  | some n =>
    obtain ⟨s₁, hd, he⟩ := h.removeToken_eq hs hn
    rw [he] at e
    cases e
    have hn₁ : s₁.number? index = some n := by
      unfold number?
      rw [hd.numbers]
      exact hn
    refine hd.aligned.forget hn₁ fun p hp => ?_
    have ha : arcOf p.1 p.2 ∈ s₁.graph.arcs := List.mem_map_of_mem hp
    rw [hd.graph] at ha
    obtain ⟨ha, hno⟩ := List.mem_filter.1 ha
    rw [Bool.not_eq_true', List.contains_eq_mem, decide_eq_false_iff_not, hs.mem_slotsAt ha, not_or] at hno
    exact hno

/-! ## Roots and copies -/

/-- Roots that are set in a store are set in the graph. -/
theorem Aligned.graph_setRoots (h : s.Aligned) (indices : List Int) :
    (s.setRoots indices).map graph = s.graph.setRoots indices := by
  unfold Store.setRoots Graph.setRoots
  simp only [h.hasToken_graph]
  cases (Order.byPlace indices).find? (!s.hasToken ·) <;> rfl

/-- A root that is added to a store is added to the graph. -/
theorem Aligned.graph_addRoot (h : s.Aligned) (index : Int) : (s.addRoot index).map graph = s.graph.addRoot index := by
  unfold Store.addRoot Graph.addRoot
  rw [h.hasToken_graph]
  split <;> rfl

/-- Roots that are found anew in a store are found anew in the graph. -/
theorem Aligned.graph_resetRoots (h : s.Aligned) (hs : s.graph.Sound) : s.resetRoots.graph = s.graph.resetRoots := by
  have hroots : s.roots.filter s.hasToken = s.roots :=
    List.filter_eq_self.2 fun i hi => h.hasToken_graph i ▸ hs.roots i hi
  unfold Store.resetRoots Graph.resetRoots
  rw [h.headless_eq hs, hroots]
  split <;> rfl

/-- A store with other roots is aligned. -/
theorem Aligned.withRoots (h : s.Aligned) (roots : List Int) : Aligned { s with roots := roots } :=
  ⟨h.cells, h.ascending, h.inverse, h.place, h.name, h.ends, h.leaving, h.entering⟩

/-- A copy of a store holds a copy of the graph. -/
theorem graph_copy (s : Store) : s.copy.graph = s.graph.copy := by
  have ht : s.copy.graph.tokens = s.graph.copy.tokens := by
    unfold Graph.copy
    rw [tokens_graph, tokens_graph, List.map_filterMap]
    refine List.filterMap_congr ?_
    rintro ⟨i, n⟩ -
    simp only [Store.copy, Arena.get?_mapItems, Option.map_map, Function.comp_def]
  change { s.graph with tokens := s.copy.graph.tokens } = { s.graph with tokens := s.graph.copy.tokens }
  rw [ht]

/-- A copy of an aligned store is aligned. -/
theorem Aligned.copy (h : s.Aligned) : s.copy.Aligned := by
  have hcell : ∀ {n c}, s.copy.cells.get? n = some c →
      ∃ c', s.cells.get? n = some c' ∧ { c' with token := c'.token.placed } = c := by
    intro n c hc
    unfold Store.copy at hc
    rw [Arena.get?_mapItems] at hc
    exact Option.map_eq_some_iff.1 hc
  refine ⟨h.cells.mapItems _, h.ascending, h.inverse, fun index n hn => ?_, fun n c hc => ?_, h.ends, fun n c hc => ?_,
    fun n c hc => ?_⟩
  · obtain ⟨c, hc, ht⟩ := h.place index n hn
    refine ⟨{ c with token := c.token.placed }, ?_, (index_placed _).trans ht⟩
    unfold Store.copy
    rw [Arena.get?_mapItems, hc]
    rfl
  · obtain ⟨c', hc', rfl⟩ := hcell hc
    exact (h.name n c' hc').trans (congrArg some (index_placed _).symm)
  · obtain ⟨c', hc', rfl⟩ := hcell hc
    exact h.leaving n c' hc'
  · obtain ⟨c', hc', rfl⟩ := hcell hc
    exact h.entering n c' hc'

/-! ## Runs -/

/-- An operation does to the graph in a store what it does to a graph. -/
theorem Aligned.graph_perform (h : s.Aligned) (hs : s.graph.Sound) (op : Operation) :
    (s.perform op).map graph = s.graph.perform op := by
  cases op with
  | addToken t => exact h.graph_addToken t
  | removeToken index => exact h.graph_removeToken hs index
  | addEdge e => exact h.graph_addEdge hs e
  | removeFirst q =>
    unfold Store.perform Graph.perform
    simp only [h.edge?_eq hs]
    cases s.graph.edge? q with
    | none => rfl
    | some e => exact h.graph_removeEdge hs e
  | removeEdge e => exact h.graph_removeEdge hs e
  | setRoots indices => exact h.graph_setRoots indices
  | addRoot index => exact h.graph_addRoot index
  | resetRoots => exact congrArg Except.ok (h.graph_resetRoots hs)
  | copy => exact congrArg Except.ok (graph_copy s)

/-- Every operation that succeeds leaves an aligned store. -/
theorem Aligned.perform (h : s.Aligned) (hs : s.graph.Sound) {op : Operation} (e : s.perform op = .ok s') : s'.Aligned := by
  cases op with
  | addToken t => exact h.addToken e
  | removeToken index => exact h.removeToken hs e
  | addEdge e' => exact h.addEdge e
  | removeFirst q =>
    simp only [Store.perform] at e
    split at e
    · exact h.removeEdge hs e
    · cases e
      exact h
  | removeEdge e' => exact h.removeEdge hs e
  | setRoots indices =>
    simp only [Store.perform, Store.setRoots] at e
    split at e <;> cases e
    exact h.withRoots _
  | addRoot index =>
    simp only [Store.perform, Store.addRoot] at e
    split at e <;> cases e
    exact h.withRoots _
  | resetRoots =>
    cases e
    exact h.withRoots _
  | copy =>
    cases e
    exact h.copy

/-- A run keeps a store aligned, fails where the run on the graph in it fails, and ends with the graph with which that run ends. -/
theorem Aligned.run (h : s.Aligned) (hs : s.graph.Sound) (ops : List Operation) :
    (Operation.run Store.perform s ops).2.Aligned ∧
      (Operation.run Store.perform s ops).1 = (Operation.run Graph.perform s.graph ops).1 ∧
      (Operation.run Store.perform s ops).2.graph = (Operation.run Graph.perform s.graph ops).2 := by
  induction ops generalizing s with
  | nil => exact ⟨h, rfl, rfl⟩
  | cons op ops ih =>
    have hstep := h.graph_perform hs op
    simp only [Operation.run]
    cases e : s.perform op with
    | error fault =>
      rw [e] at hstep
      rw [← hstep]
      obtain ⟨ha, hfaults, hg⟩ := ih h hs
      exact ⟨ha, congrArg _ hfaults, hg⟩
    | ok s' =>
      rw [e] at hstep
      rw [← hstep]
      obtain ⟨ha, hfaults, hg⟩ := ih (h.perform hs e) (hs.perform hstep.symm)
      exact ⟨ha, congrArg _ hfaults, hg⟩

/-- Any run of operations from the empty store, failing ones included, ends in an aligned store with a sound graph. What fails on the
way, and what the graph says at the end, is what the same run does to a token table, a set of edges and a set of roots. -/
theorem run_empty_refines (ops : List Operation) :
    (Operation.run perform {} ops).2.Aligned ∧
      (Operation.run perform {} ops).2.graph.Sound ∧
      Content.Run .empty ops (Operation.run perform {} ops).1 (Operation.run perform {} ops).2.graph.content := by
  obtain ⟨ha, hfaults, hg⟩ := aligned_empty.run sound_empty ops
  obtain ⟨hs, hr⟩ := sound_empty.run ops
  rw [hfaults, hg, ← content_empty]
  exact ⟨ha, hs, hr⟩

end Treebank.Graph.Store

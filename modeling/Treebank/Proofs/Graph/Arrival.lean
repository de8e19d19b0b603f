import Treebank.Proofs.Graph.Content

/-!
# The order of arrival

In what order the edges of a graph came can be told from the states that a run passes through: an edge that stays keeps its place in the
line, and a new one goes to its end (`arrivals`). The edges that enter a token are listed by slot, though, and a slot that became free is
given out again. So they are listed in the order in which they came exactly if of any two of them the later one has the higher slot
(`listed_as_arrived_iff`), and an edge in a slot that was used before can stand before older ones (`reused_slot_listed_first`).
-/

namespace Treebank.Graph

/-! ## Lines -/

/-- The states that a run of operations comes to, one after the other. -/
def Operation.states {σ : Type} (perform : σ → Operation → Except GraphError σ) (s : σ) : List Operation → List σ
  | [] => []
  | op :: ops =>
    let next := (perform s op).toOption.getD s
    next :: states perform next ops

/-- The edges of a graph in the order in which they came, if those of the state before are given in theirs: the ones that stayed, and
behind them the new ones. -/
def advance (line : List Edge) (g : Graph) : List Edge := line.filter g.contains ++ g.edges.filter fun e => !line.any (·.same e)

/-- The edges at the end of a run from the graph without tokens, in the order in which they came. -/
def arrivals (ops : List Operation) : List Edge := (Operation.states perform empty ops).foldl advance []

/-- The slot of the edge that is equal to a given one; if there is none, the first fresh one. -/
def slotOf (g : Graph) (e : Edge) : Nat := ((g.arcs.find? (·.edge.same e)).map (·.slot)).getD g.fresh

/-- The edges, the oldest first. -/
def line (g : Graph) : List Edge := (g.arcs.map (·.edge)).reverse

variable {g g' : Graph} {op : Operation} {index : Int}

/-! ## What an operation does to the line -/

/-- What an operation does to the edges: it takes some away, or it adds one, in the slot freed last or else in the first fresh one. -/
theorem arcs_perform (h : g.perform op = .ok g') :
    (∃ p, g'.arcs = g.arcs.filter p) ∨
      ∃ e, op = .addEdge e ∧ g.contains e = false ∧ g'.arcs = ⟨g.free.headD g.fresh, e⟩ :: g.arcs := by
  have hsame : ∀ {g' : Graph}, g'.arcs = g.arcs → ∃ p, g'.arcs = g.arcs.filter p := fun h =>
    ⟨fun _ => true, h.trans (List.filter_true _).symm⟩
  have hremove : ∀ {e : Edge}, g.removeEdge e = .ok g' → ∃ p, g'.arcs = g.arcs.filter p := by
    intro e h
    obtain ⟨a, -, -, rfl⟩ := removeEdge_eq_ok h
    exact ⟨_, rfl⟩
  cases op with
  | addToken t =>
    obtain ⟨-, rfl⟩ := addToken_eq_ok h
    exact .inl (hsame rfl)
  | removeToken index =>
    rw [perform, removeToken_eq] at h
    split at h <;> cases h
    exact .inl ⟨_, rfl⟩
  | addEdge e =>
    obtain ⟨-, -, ⟨-, rfl⟩ | ⟨hnew, ⟨slot, free, hfree, rfl⟩ | ⟨hfree, rfl⟩⟩⟩ := addEdge_eq_ok h
    · exact .inl (hsame rfl)
    all_goals
      refine .inr ⟨e, rfl, hnew, ?_⟩
      rw [hfree]
      rfl
  | removeFirst q =>
    simp only [perform] at h
    split at h
    · exact .inl (hremove h)
    · cases h
      exact .inl (hsame rfl)
  | removeEdge e => exact .inl (hremove h)
  | setRoots indices =>
    obtain ⟨-, rfl⟩ := setRoots_eq_ok h
    exact .inl (hsame rfl)
  | addRoot index =>
    obtain ⟨-, rfl⟩ := addRoot_eq_ok h
    exact .inl (hsame rfl)
  | resetRoots =>
    cases h
    refine .inl (hsame ?_)
    unfold resetRoots
    split <;> rfl
  | copy =>
    cases h
    exact .inl (hsame rfl)

/-- Of the edges of a sound graph some are kept exactly if the edges that are equal to them are. -/
theorem Sound.contains_filter (hg : g.Sound) {p : Arc → Bool} (hp : g'.arcs = g.arcs.filter p) {a : Arc} (ha : a ∈ g.arcs) :
    g'.contains a.edge = p a := by
  rw [Bool.eq_iff_iff, contains, List.any_eq_true, hp]
  constructor
  · rintro ⟨b, hb, hsame⟩
    obtain ⟨hb, hpb⟩ := List.mem_filter.1 hb
    rwa [← hg.eq_of_same hb ha hsame]
  · exact fun hpa => ⟨a, List.mem_filter.2 ⟨ha, hpa⟩, Edge.same_refl _⟩

/-- Taking edges away advances the line: they leave it, and there is nothing new. -/
theorem Sound.advance_filter (hg : g.Sound) {p : Arc → Bool} (hp : g'.arcs = g.arcs.filter p) : advance g.line g' = g'.line := by
  have hstay : g.line.filter g'.contains = g'.line := by
    unfold line
    rw [List.filter_reverse, List.filter_map, hp]
    exact congrArg (fun l : List Arc => (l.map (·.edge)).reverse) (List.filter_congr fun a ha => hg.contains_filter hp ha)
  have hnone : (g'.edges.filter fun e => !g.line.any (·.same e)) = [] := by
    refine List.filter_eq_nil_iff.2 fun f hf hnot => ?_
    obtain ⟨a, ha, rfl⟩ := mem_edges.1 hf
    rw [hp] at ha
    rw [Bool.not_eq_true', List.any_eq_false] at hnot
    exact hnot a.edge (List.mem_reverse.2 (List.mem_map_of_mem (List.mem_of_mem_filter ha))) (Edge.same_refl _)
  rw [advance, hstay, hnone, List.append_nil]

/-- Adding an edge that is equal to none advances the line: all stay, and the new edge is behind them. -/
theorem advance_cons {e : Edge} {slot : Nat} (hnew : g.contains e = false) (harcs : g'.arcs = ⟨slot, e⟩ :: g.arcs) :
    advance g.line g' = g'.line := by
  have hline : g'.line = g.line ++ [e] := by
    unfold line
    rw [harcs, List.map_cons, List.reverse_cons]
  have hstay : g.line.filter g'.contains = g.line := by
    refine List.filter_eq_self.2 fun f hf => ?_
    obtain ⟨a, ha, rfl⟩ := List.mem_map.1 (List.mem_reverse.1 hf)
    exact List.any_eq_true.2 ⟨a, harcs ▸ List.mem_cons_of_mem _ ha, Edge.same_refl _⟩
  have hnone : (g.line.filter fun f => !g.line.any (·.same f)) = [] := by
    refine List.filter_eq_nil_iff.2 fun f hf hnot => ?_
    rw [Bool.not_eq_true', List.any_eq_false] at hnot
    exact hnot f hf (Edge.same_refl _)
  have hone : (g'.edges.filter fun f => !g.line.any (·.same f)) = [e] := by
    have hedges : g'.edges.Perm (e :: g.line) := by
      have hbySlot : g'.edgesBySlot.Perm (g'.arcs.map (·.edge)) := (Order.perm_sortBy _ _).map _
      rw [harcs] at hbySlot
      exact (Order.perm_sortBy _ _).trans (hbySlot.trans ((List.reverse_perm _).symm.cons e))
    have hold : g.line.any (·.same e) = false := by
      rw [← hnew, line, List.any_reverse, List.any_map]
      rfl
    refine List.perm_singleton.1 ((hedges.filter _).trans ?_)
    rw [List.filter_cons_of_pos (by rw [hold]; rfl), hnone]
  rw [advance, hstay, hone, hline]

/-- A run advances the line to that of the graph with which it ends. -/
theorem Sound.advance_states (hg : g.Sound) (ops : List Operation) :
    (Operation.states Graph.perform g ops).foldl advance g.line = (Operation.run Graph.perform g ops).2.line := by
  induction ops generalizing g with
  | nil => rfl
  | cons op ops ih =>
    rw [Operation.states, Operation.run, List.foldl_cons]
    cases h : g.perform op with
    | ok g' =>
      have hstep : advance g.line g' = g'.line := by
        rcases arcs_perform h with ⟨p, hp⟩ | ⟨e, -, hnew, harcs⟩
        · exact hg.advance_filter hp
        · exact advance_cons hnew harcs
      change (Operation.states Graph.perform g' ops).foldl advance (advance g.line g') = _
      rw [hstep]
      exact ih (hg.perform h)
    | error fault =>
      change (Operation.states Graph.perform g ops).foldl advance (advance g.line g) = _
      rw [hg.advance_filter (List.filter_true _).symm]
      exact ih hg

/-- The edges in the order in which they came are the line of the graph at the end. -/
theorem arrivals_eq_line (ops : List Operation) : arrivals ops = (Operation.run perform empty ops).2.line :=
  sound_empty.advance_states ops

/-! ## Slots and the line -/

/-- The slot of a stored edge. -/
theorem Sound.slotOf_eq (hg : g.Sound) {a : Arc} (ha : a ∈ g.arcs) : g.slotOf a.edge = a.slot := by
  unfold slotOf
  cases hfind : g.arcs.find? (·.edge.same a.edge) with
  | none => exact absurd (Edge.same_refl a.edge) (List.find?_eq_none.1 hfind a ha)
  | some b =>
    have hsame := List.find?_some hfind
    rw [hg.eq_of_same (List.mem_of_find?_eq_some hfind) ha hsame]
    rfl

/-- The edges listed for a token are those of the line that enter it. -/
theorem perm_incomingBySlot_line (g : Graph) (index : Int) : (g.incomingBySlot index).Perm (g.line.filter (·.dependent == index)) := by
  have hsorted : (g.incomingBySlot index).Perm ((g.arcs.filter (·.edge.dependent == index)).map (·.edge)) :=
    (Order.perm_sortBy _ _).map _
  refine hsorted.trans ?_
  unfold line
  rw [List.filter_reverse, List.filter_map]
  exact (List.reverse_perm _).symm

/-- The edges that enter a token are listed by ascending slot. -/
theorem Sound.pairwise_incomingBySlot (hg : g.Sound) (index : Int) :
    (g.incomingBySlot index).Pairwise fun e f => g.slotOf e < g.slotOf f := by
  have hmem : ∀ {a}, a ∈ Order.sortBy (compareOn Arc.slot) (g.arcs.filter (·.edge.dependent == index)) → a ∈ g.arcs :=
    fun ha => List.mem_of_mem_filter (Order.mem_sortBy.1 ha)
  have hnodup : (Order.sortBy (compareOn Arc.slot) (g.arcs.filter (·.edge.dependent == index))).Nodup :=
    (Order.perm_sortBy _ _).nodup_iff.2 ((List.Nodup.of_map _ hg.slots.nodup_used).filter _)
  refine List.pairwise_map.2 (((Order.pairwise_sortBy (compareOn Arc.slot) _).and hnodup).imp_of_mem fun ha hb hab => ?_)
  rw [hg.slotOf_eq (hmem ha), hg.slotOf_eq (hmem hb)]
  exact Nat.lt_of_le_of_ne (Nat.isLE_compare.1 hab.1) fun e => hab.2 (hg.eq_of_slot (hmem ha) (hmem hb) e)

/-- What is found first in an ascending list is what is found first in a permutation of it exactly if nothing else that could be found
comes before that. -/
theorem find?_eq_iff_of_pairwise {α : Type} {f : α → Nat} {p : α → Bool} {l l' : List α} (hperm : l.Perm l')
    (hl : l.Pairwise fun a b => f a < f b) :
    l.find? p = l'.find? p ↔ ∀ a, l'.find? p = some a → ∀ b ∈ l', p b → f a ≤ f b := by
  have hfirst : ∀ {a b}, l.find? p = some a → b ∈ l → p b → a = b ∨ f a < f b := by
    intro a b ha hb hpb
    obtain ⟨-, before, after, rfl, hno⟩ := List.find?_eq_some_iff_append.1 ha
    rcases List.mem_append.1 hb with hb | hb
    · have := hno b hb
      rw [hpb] at this
      cases this
    · rcases List.mem_cons.1 hb with rfl | hb
      · exact .inl rfl
      · exact .inr ((List.pairwise_cons.1 (List.pairwise_append.1 hl).2.1).1 b hb)
  constructor
  · intro heq a ha b hb hpb
    rcases hfirst (heq.trans ha) (hperm.mem_iff.2 hb) hpb with rfl | hlt
    · exact Nat.le_refl _
    · exact Nat.le_of_lt hlt
  · intro hleast
    cases ha : l'.find? p with
    | none => exact List.find?_eq_none.2 fun b hb => List.find?_eq_none.1 ha b (hperm.mem_iff.1 hb)
    | some a =>
      have hpa : p a := List.find?_some ha
      have hal : a ∈ l := hperm.mem_iff.2 (List.mem_of_find?_eq_some ha)
      obtain ⟨b, hb⟩ := Option.isSome_iff_exists.1 (List.find?_isSome.2 ⟨a, hal, hpa⟩)
      rcases hfirst hb hal hpa with rfl | hlt
      · exact hb
      · have := hleast a ha b (hperm.mem_iff.1 (List.mem_of_find?_eq_some hb)) (List.find?_some hb)
        omega

/-! ## Runs in which no slot is used again -/

/-- Whether slots ascend in the order in which the edges came. -/
def SlotsAscend (g : Graph) : Prop := g.arcs.Pairwise fun a b => b.slot < a.slot

/-- An operation keeps slots ascending, unless it adds an edge when a slot is free. -/
theorem Sound.slotsAscend_perform (hg : g.Sound) (hslots : g.SlotsAscend) (hfree : ∀ e, op = .addEdge e → g.free = [])
    (h : g.perform op = .ok g') : g'.SlotsAscend := by
  unfold SlotsAscend at hslots ⊢
  rcases arcs_perform h with ⟨p, hp⟩ | ⟨e, rfl, -, harcs⟩
  · exact hp ▸ hslots.filter p
  · rw [harcs, hfree e rfl]
    exact List.pairwise_cons.2 ⟨fun a ha => hg.slots.lt_fresh (List.mem_map_of_mem ha), hslots⟩

/-- A run keeps slots ascending, if none is free when an edge is added. -/
theorem Sound.slotsAscend_run (hg : g.Sound) (hslots : g.SlotsAscend) {ops : List Operation}
    (hfree : ∀ before e after, ops = before ++ .addEdge e :: after → (Operation.run Graph.perform g before).2.free = []) :
    (Operation.run Graph.perform g ops).2.SlotsAscend := by
  induction ops generalizing g with
  | nil => exact hslots
  | cons op ops ih =>
    have hrest : ∀ before e after, ops = before ++ .addEdge e :: after →
        (Operation.run Graph.perform g (op :: before)).2.free = [] := by
      rintro before e after rfl
      exact hfree (op :: before) e after rfl
    simp only [Operation.run] at hrest ⊢
    cases h : g.perform op with
    | ok g' =>
      rw [h] at hrest
      have hop : ∀ e, op = .addEdge e → g.free = [] := fun e he => hfree [] e ops (he ▸ rfl)
      exact ih (hg.perform h) (hg.slotsAscend_perform hslots hop h) hrest
    | error fault =>
      rw [h] at hrest
      exact ih hg hslots hrest

theorem Sound.pairwise_line (hg : g.Sound) (hslots : g.SlotsAscend) : g.line.Pairwise fun e f => g.slotOf e < g.slotOf f := by
  refine List.pairwise_reverse.2 (List.pairwise_map.2 (List.Pairwise.imp_of_mem (fun ha hb hab => ?_) hslots))
  rw [hg.slotOf_eq ha, hg.slotOf_eq hb]
  exact hab

/-! ## The order in which edges are listed -/

/-- After any run of operations, the edges that are listed for a token are those that came and are still there. They are listed in the order
in which they came exactly if of any two of them the later one has the higher slot, and its governor is the first one of the plain edges
among them exactly if none of these has a lower slot than that one. So it is if no slot is free whenever an edge is added. -/
theorem listed_as_arrived_iff (ops : List Operation) (index : Int) :
    let g := (Operation.run perform empty ops).2
    let entering := (arrivals ops).filter (·.dependent == index)
    (g.incomingBySlot index).Perm entering ∧
      (g.incomingBySlot index = entering ↔ entering.Pairwise fun e f => g.slotOf e < g.slotOf f) ∧
      (g.governorEdge? index = entering.find? (!·.extra) ↔
        ∀ e, entering.find? (!·.extra) = some e → ∀ f ∈ entering, f.extra = false → g.slotOf e ≤ g.slotOf f) ∧
      ((∀ before e after, ops = before ++ .addEdge e :: after → (Operation.run perform empty before).2.free = []) →
        g.incomingBySlot index = entering ∧ g.governorEdge? index = entering.find? (!·.extra)) := by
  intro g entering
  have hg : g.Sound := (sound_empty.run ops).1
  have hentering : entering = g.line.filter (·.dependent == index) := congrArg _ (arrivals_eq_line ops)
  have hperm : (g.incomingBySlot index).Perm entering := hentering ▸ perm_incomingBySlot_line g index
  have hsorted := hg.pairwise_incomingBySlot index
  have hlisted : g.incomingBySlot index = entering ↔ entering.Pairwise fun e f => g.slotOf e < g.slotOf f := by
    constructor
    · intro h
      exact h ▸ hsorted
    · intro h
      exact hperm.eq_of_pairwise (fun _ _ _ _ hab hba => absurd hab (Nat.lt_asymm hba)) hsorted h
  refine ⟨hperm, hlisted, ?_, fun hfree => ?_⟩
  · refine (find?_eq_iff_of_pairwise hperm hsorted).trans ?_
    simp only [Bool.not_eq_true']
  · have heq : g.incomingBySlot index = entering := by
      rw [hlisted, hentering]
      exact (hg.pairwise_line (sound_empty.slotsAscend_run .nil hfree)).filter _
    exact ⟨heq, by rw [governorEdge?, heq]⟩

/-- Three edges are added, the first of them is taken away before the third comes: the third one is listed before the second, and is the
governor, though the second one was there first. -/
theorem reused_slot_listed_first :
    let edge (relation : String) : Edge := { governor := 0, dependent := 1, relation := relation }
    let ops : List Operation := [.addToken { index := 0 }, .addToken { index := 1 }, .addEdge (edge "x"), .addEdge (edge "y"),
      .removeEdge (edge "x"), .addEdge (edge "z")]
    let g := (Operation.run perform empty ops).2
    let entering := (arrivals ops).filter (·.dependent == 1)
    entering = [edge "y", edge "z"] ∧ g.incomingBySlot 1 = [edge "z", edge "y"] ∧ g.incomingBySlot 1 ≠ entering ∧
      entering.find? (!·.extra) = some (edge "y") ∧ g.governorEdge? 1 = some (edge "z") ∧
      g.governorEdge? 1 ≠ entering.find? (!·.extra) := by
  decide

end Treebank.Graph

import Treebank.Proofs.Checked.Candidate
import Treebank.Proofs.Match.Candidate
import Treebank.Proofs.Match.Walk

/-!
# Searches of any depth

A search of any depth looks at the edges of every token that a sweep from its start passes, whether or not that token was found itself
(`mem_map_descend`). So it finds exactly the tokens to which an accepted edge leads from the start or from what the start reaches, each
once and by such an edge (`unbounded_exact`). On a cycle the start is found too.
-/

open Relation

namespace Treebank

namespace Scope

open Pattern

variable {d : Direction} {next : Int → List Edge} {accepts : Edge → Bool} {unsearched matched stack : List Int} {v : Int}

/-- In which order the new neighbours of a token are put on the stack does not matter to what a sweep passes. -/
theorem mem_sweep_reverse {nexts : Int → List Int} {found unseen rest : List Int} {i : Int} :
    i ∈ Graph.sweep nexts unseen (found.reverse ++ rest) ↔ i ∈ Graph.sweep nexts unseen (found ++ rest) := by
  simp only [Graph.mem_sweep_iff, List.mem_append, List.mem_reverse]

/-- A search finds, of the tokens not matched before, those to which an accepted edge leads from a token that a sweep passes. -/
theorem mem_map_descend : v ∈ (descend d next accepts unsearched matched stack).map d.far ↔
    v ∉ matched ∧ ∃ i ∈ Graph.sweep (fun i => (next i).map d.far) unsearched stack, ∃ e ∈ next i, accepts e ∧ d.far e = v := by
  induction unsearched, matched, stack using descend.induct d next accepts with
  | case1 unsearched matched => simp [descend, Graph.sweep]
  | case2 unsearched matched index stack edges found hits ih =>
    have hhits : v ∈ hits.map d.far ↔ v ∉ matched ∧ ∃ e ∈ next index, accepts e ∧ d.far e = v := mem_map_firstReaching
    simp only [mem_sweep_reverse, List.mem_append, not_or] at ih
    rw [descend, List.map_append, List.mem_append, ih, Graph.sweep, List.exists_mem_cons_iff]
    constructor
    · rintro (hhere | ⟨⟨-, hnew⟩, hlater⟩)
      · exact ⟨(hhits.1 hhere).1, .inl (hhits.1 hhere).2⟩
      · exact ⟨hnew, .inr hlater⟩
    · rintro ⟨hnew, hhere | hlater⟩
      · exact .inl (hhits.2 ⟨hnew, hhere⟩)
      · by_cases hhit : v ∈ hits.map d.far
        · exact .inl hhit
        · exact .inr ⟨⟨hhit, hnew⟩, hlater⟩

/-- A search finds tokens by accepted edges of tokens that a sweep passes. -/
theorem passed_of_mem_descend {e : Edge} (he : e ∈ descend d next accepts unsearched matched stack) :
    accepts e ∧ ∃ i ∈ Graph.sweep (fun i => (next i).map d.far) unsearched stack, e ∈ next i := by
  induction unsearched, matched, stack using descend.induct d next accepts with
  | case1 unsearched matched => simp [descend] at he
  | case2 unsearched matched index stack edges found hits ih =>
    rw [descend] at he
    rw [Graph.sweep]
    rcases List.mem_append.1 he with he | he
    · exact ⟨accepts_of_mem_firstReaching he, index, List.mem_cons_self .., mem_of_mem_firstReaching he⟩
    · obtain ⟨haccepts, i, hi, hnext⟩ := ih he
      exact ⟨haccepts, i, List.mem_cons_of_mem _ (mem_sweep_reverse.1 hi), hnext⟩

/-- From a token of a sound graph a sweep over edges passes what the token reaches. -/
theorem mem_sweep_iff_reaches {g : Graph} (hg : g.Sound) {a i : Int} :
    i ∈ Graph.sweep (fun i => (d.edges g i).map d.far) g.indices [a] ↔ g.Reaches d a i := by
  simp only [Graph.mem_sweep_iff, List.mem_singleton, exists_eq_left]
  constructor
  · exact fun h => ReflTransGen.mono (fun _ _ hstep => Graph.mem_map_far.1 hstep.1) _ _ h
  · exact hg.stepWithin_of_reaches

variable {s : Scope} {a : Int}

/-- The candidates of a relation over one edge are its neighbours. -/
theorem candidates_edgeKind {o : Operator} (h : o.kind = d.edgeKind) (a : Int) : s.candidates o a = s.neighbours o d a := by
  unfold candidates
  rw [h]
  cases d <;> rfl

/-- The candidates of a relation over paths are those that a search reaches. -/
theorem candidates_pathKind {o : Operator} (h : o.kind = d.pathKind) (a : Int) : s.candidates o a = s.reached o d a := by
  unfold candidates
  rw [h]
  cases d <;> rfl

/-- The candidates of an unbounded relation over paths. -/
theorem candidates_unbounded (d : Direction) (label : Label) (name : Option String) :
    s.candidates { kind := d.pathKind, label := label, edgeName := name } a =
      (descend d (d.edges s.graph) (fun e => label.accepts s.hierarchical e.relation) s.graph.indices [] [a]).map
        fun e => (d.far e, some e) :=
  candidates_pathKind rfl a

/-- An unbounded search finds the tokens to which accepted edges lead from its start or from what that reaches. -/
theorem mem_map_candidates_unbounded (hs : s.graph.Sound) (d : Direction) (label : Label) (name : Option String) :
    v ∈ (s.candidates { kind := d.pathKind, label := label, edgeName := name } a).map (·.1) ↔
      ∃ e, (e ∈ s.graph.edges ∧ label.accepts s.hierarchical e.relation ∧ s.graph.Reaches d a (d.near e)) ∧ d.far e = v := by
  rw [candidates_unbounded, map_fst_candidates_of_edges, mem_map_descend]
  simp only [List.not_mem_nil, not_false_eq_true, true_and, mem_sweep_iff_reaches hs, Graph.mem_followed]
  constructor
  · rintro ⟨i, hi, e, ⟨he, rfl⟩, haccepts, hv⟩
    exact ⟨e, ⟨he, haccepts, hi⟩, hv⟩
  · rintro ⟨e, ⟨he, haccepts, hi⟩, hv⟩
    exact ⟨d.near e, hi, e, ⟨he, rfl⟩, haccepts, hv⟩

/-- From a token of a sound graph an unbounded search comes to an end and misses no token on its way. It finds every token at most once,
and finds exactly those to which some edge with an accepted label leads from the start or from a token that the start reaches; the edge
with which a token is found is such an edge. -/
theorem unbounded_exact (hs : s.graph.Sound) (ha : s.graph.hasToken a) (d : Direction) (label : Label) (name : Option String) :
    let o : Operator := { kind := d.pathKind, label := label, edgeName := name }
    let leads (e : Edge) : Prop := e ∈ s.graph.edges ∧ label.accepts s.hierarchical e.relation ∧ s.graph.Reaches d a (d.near e)
    s.checkedCandidates o a = .ok (s.candidates o a) ∧
      ((s.candidates o a).map (·.1)).Nodup ∧
      (∀ v, v ∈ (s.candidates o a).map (·.1) ↔ ∃ e, leads e ∧ d.far e = v) ∧
      ∀ c ∈ s.candidates o a, ∃ e, c = (d.far e, some e) ∧ leads e := by
  intro o leads
  refine ⟨checkedCandidates_eq hs ha o, ?_, fun v => mem_map_candidates_unbounded hs d label name, fun c hc => ?_⟩
  · rw [candidates_unbounded, map_fst_candidates_of_edges]
    exact (reaches_descend d _ _ _ _ _).1
  · rw [candidates_unbounded] at hc
    obtain ⟨e, he, rfl⟩ := List.mem_map.1 hc
    obtain ⟨haccepts, i, hi, hnext⟩ := passed_of_mem_descend he
    obtain ⟨hstored, rfl⟩ := Graph.mem_followed.1 hnext
    exact ⟨e, rfl, hstored, haccepts, (mem_sweep_iff_reaches hs).1 hi⟩

/-- So it is on a cycle with a loop at its start and two edges side by side, of which the one with the label comes second: both tokens
are found, the start over the edge that leads back to it. -/
theorem unbounded_exact_cycle :
    let loop : Edge := { governor := 1, dependent := 1, relation := "x" }
    let first : Edge := { governor := 1, dependent := 2, relation := "x" }
    let second : Edge := { governor := 1, dependent := 2, relation := "y" }
    let back : Edge := { governor := 2, dependent := 1, relation := "y" }
    let g : Graph :=
      { tokens := [(1, { index := 1, position := 1 }), (2, { index := 2, position := 2 })]
        arcs := [⟨3, back⟩, ⟨2, second⟩, ⟨1, first⟩, ⟨0, loop⟩], fresh := 4 }
    let s : Scope := { graph := g }
    let o : Operator := { kind := .descendant, label := .exact "y" }
    let leads (e : Edge) : Prop := e ∈ g.edges ∧ (Label.exact "y").accepts false e.relation ∧ g.Reaches .down 1 e.governor
    g.Sound ∧ g.hasToken 1 ∧ s.candidates o 1 = [(2, some second), (1, some back)] ∧
      s.checkedCandidates o 1 = .ok (s.candidates o 1) ∧ ((s.candidates o 1).map (·.1)).Nodup ∧
      (∀ v, v ∈ (s.candidates o 1).map (·.1) ↔ ∃ e, leads e ∧ e.dependent = v) ∧
      ∀ c ∈ s.candidates o 1, ∃ e, c = (e.dependent, some e) ∧ leads e := by
  intro loop first second back g s o leads
  have hsound : g.Sound := by
    refine ((((((Graph.sound_empty.addToken (t := { index := 1, position := 1 }) rfl).addToken (t := { index := 2, position := 2 })
      rfl).addEdge (e := loop) rfl).addEdge (e := first) rfl).addEdge (e := second) rfl).addEdge (e := back) rfl)
  exact ⟨hsound, rfl, by decide +kernel, unbounded_exact hsound rfl .down (.exact "y") none⟩

end Scope

end Treebank

import Treebank.Pattern.Reader
import Treebank.Proofs.Match.Storage
import Treebank.Surgery.Basic

/-!
# Equal graphs under a pattern

Equality of graphs is equality of signatures. A signature tells words, lemmas, tags and places, outlines of edges, and roots; it does
not tell the universal parts of speech, the attributes and the features of tokens. Where these agree, no pattern tells equal graphs
apart, and what is dropped as a duplicate has an equal graph left in its place that answers every pattern as it does
(`Graph.indistinct_of_same`). Where they do not, a pattern may tell equal graphs apart (`Graph.same_but_distinct`).
-/

namespace Treebank

/-- What a match says to a caller: the token at the top, the tokens of the names, and the labels of the named edges. -/
def Match.answer (m : Match) : Int × List (String × Int) × List (String × String) := (m.root, m.bindings.nodes, m.relations)

namespace Matcher

/-- The answers of a search. -/
def answers (p : Pattern) (g : Graph) (initial : List (String × Int)) (o : Overrides) :
    Except Refusal (List (Int × List (String × Int) × List (String × String))) :=
  (search p g initial o).map (List.map Match.answer)

/-- Matches whose edges have one outline have one answer. -/
theorem answer_of_alike {m n : Match} (h : Match.Alike Graph.Outlined m n) : m.answer = n.answer := by
  have hrelations : m.relations = n.relations := by
    refine Order.map_eq_of_forall₂ (fun x y hxy => ?_) h.2.edges
    exact Prod.ext hxy.1 (Edge.outline_eq_iff.1 hxy.2).2.2.1
  rw [Match.answer, Match.answer, h.1, h.2.nodes, hrelations]

/-- Searches whose matches bind edges of one outline have one answer. -/
theorem EndsAlike.map_answer {x y : Except Refusal (List Match)} (h : EndsAlike Graph.Outlined x y) :
    x.map (List.map Match.answer) = y.map (List.map Match.answer) := by
  cases h with
  | refused r => rfl
  | found hms =>
    refine congrArg Except.ok (Order.map_eq_of_forall₂ ?_ hms)
    intro m n hmn
    exact answer_of_alike hmn

end Matcher

namespace Graph

/-- Whether every pattern has the same answers in two graphs, whatever is bound from the start and whatever the options. -/
def Indistinct (g h : Graph) : Prop := ∀ p initial o, Matcher.answers p g initial o = Matcher.answers p h initial o

/-- Equal graphs whose tokens have the same attributes have the same answers to every pattern. -/
theorem answers_of_same {g h : Graph} (hg : g.Orderly) (hh : h.Orderly) (hs : g.same h) (hagree : g.Agrees h) : g.Indistinct h := by
  intro p initial o
  exact (Matcher.alike_search (alike_of_same hg hh hs hagree) p initial o).map_answer

/-- Of the graphs that are not kept each has its signature among the seen ones or those that are kept. -/
theorem seen_or_kept (seen : List Signature) {graphs : List Graph} {h : Graph} (hh : h ∈ graphs) :
    h.signature ∈ seen ∨ ∃ g ∈ Surgery.dropSeen seen graphs, g.same h := by
  induction graphs generalizing seen with
  | nil => cases hh
  | cons g graphs ih =>
    simp only [Surgery.dropSeen]
    split
    · rename_i hseen
      rcases List.mem_cons.1 hh with rfl | hh
      · exact .inl (List.contains_iff_mem.1 hseen)
      · exact ih seen hh
    · rcases List.mem_cons.1 hh with rfl | hh
      · exact .inr ⟨h, List.mem_cons_self .., beq_self_eq_true _⟩
      · rcases ih (g.signature :: seen) hh with hsig | ⟨k, hk, hs⟩
        · rcases List.mem_cons.1 hsig with e | hsig
          · exact .inr ⟨g, List.mem_cons_self .., beq_iff_eq.2 e.symm⟩
          · exact .inl hsig
        · exact .inr ⟨k, List.mem_cons_of_mem _ hk, hs⟩

/-- What is kept was given. -/
theorem mem_of_mem_dropSeen {seen : List Signature} {graphs : List Graph} {g : Graph} (hg : g ∈ Surgery.dropSeen seen graphs) :
    g ∈ graphs := by
  induction graphs generalizing seen with
  | nil => exact hg
  | cons k graphs ih =>
    simp only [Surgery.dropSeen] at hg
    split at hg
    · exact List.mem_cons_of_mem _ (ih hg)
    · rcases List.mem_cons.1 hg with rfl | hg
      · exact List.mem_cons_self ..
      · exact List.mem_cons_of_mem _ (ih hg)

/-- Every graph, when duplicates are removed, is equal to one that is kept or to the source. -/
theorem exists_same_of_removeDuplicates (source : Option Graph) {graphs : List Graph} {h : Graph} (hh : h ∈ graphs) :
    ∃ g ∈ source.toList ++ Surgery.removeDuplicates source graphs, g.same h := by
  rcases seen_or_kept (source.map (·.signature)).toList hh with hsig | ⟨g, hg, hs⟩
  · cases source with
    | none => cases hsig
    | some g =>
      rcases List.mem_cons.1 hsig with e | hnil
      · exact ⟨g, List.mem_cons_self .., beq_iff_eq.2 e.symm⟩
      · cases hnil
  · exact ⟨g, List.mem_append_right _ hg, hs⟩

/-- Equal graphs are indistinct if the attributes of their tokens agree. So, when duplicates are removed, each graph that was given has
an equal one that is kept, or is the source, and that answers every pattern as it does if their attributes agree. -/
theorem indistinct_of_same :
    (∀ g h : Graph, g.Orderly → h.Orderly → g.same h → g.Agrees h → g.Indistinct h) ∧
      ∀ (source : Option Graph) (graphs : List Graph), (∀ g ∈ source.toList ++ graphs, g.Orderly) → ∀ h ∈ graphs,
        ∃ g ∈ source.toList ++ Surgery.removeDuplicates source graphs, g.same h ∧ (g.Agrees h → g.Indistinct h) := by
  refine ⟨fun g h hg hh hs hagree => answers_of_same hg hh hs hagree, ?_⟩
  intro source graphs horderly h hh
  obtain ⟨g, hg, hs⟩ := exists_same_of_removeDuplicates source hh
  have hgiven : g ∈ source.toList ++ graphs := by
    rcases List.mem_append.1 hg with hsource | hkept
    · exact List.mem_append_left _ hsource
    · exact List.mem_append_right _ (mem_of_mem_dropSeen hkept)
  have horderly' := horderly h (List.mem_append_right _ hh)
  exact ⟨g, hg, hs, fun hagree => answers_of_same (horderly g hgiven) horderly' hs hagree⟩

/-- So it is for two graphs whose edges differ in weight alone, of which the second is dropped. -/
theorem indistinct_of_same_weights :
    let light : Edge := { governor := 1, dependent := 2, relation := "obj", weight := .zero false }
    let heavy : Edge := { governor := 1, dependent := 2, relation := "obj" }
    let g : Graph := { tokens := [(1, { index := 1 }), (2, { index := 2 })], arcs := [⟨0, light⟩], fresh := 1, roots := [1] }
    let h : Graph := { tokens := [(1, { index := 1 }), (2, { index := 2 })], arcs := [⟨0, heavy⟩], fresh := 1, roots := [1] }
    g.Orderly ∧ h.Orderly ∧ g.same h ∧ g.Agrees h ∧ g.Indistinct h ∧ Surgery.removeDuplicates none [g, h] = [g] ∧
      ∃ k ∈ none.toList ++ Surgery.removeDuplicates none [g, h], k.same h ∧ (k.Agrees h → k.Indistinct h) := by
  intro light heavy g h
  have hg : g.Orderly := ⟨by decide, by decide, by decide⟩
  have hh : h.Orderly := ⟨by decide, by decide, by decide⟩
  have hs : g.same h := by decide
  have hagree : g.Agrees h := agrees_of_token?_eq rfl
  refine ⟨hg, hh, hs, hagree, indistinct_of_same.1 g h hg hh hs hagree, by decide, ?_⟩
  exact indistinct_of_same.2 none [g, h] (by simp [hg, hh]) h (by simp)

/-- Graphs with one token that differ in its universal part of speech, in an attribute or in a feature are equal, and the second is
dropped as a duplicate of the first; but a pattern matches in the second that does not match in the first. -/
theorem same_but_distinct :
    let single (t : Token) : Graph := { tokens := [(t.index, t)] }
    let answers (text : String) (g : Graph) : Option (List (Int × List (String × Int) × List (String × String))) :=
      (Pattern.ofText {} text).toOption.bind fun p => (Matcher.answers p g [] {}).toOption
    let told (text : String) (t u : Token) : Bool :=
      (single t).same (single u) && Surgery.removeDuplicates none [single t, single u] == [single t] &&
        answers text (single t) == some [] && answers text (single u) == some [(1, [], [])]
    told "\x7bupos:VERB\x7d" { index := 1, word := "runs", upos := "NOUN" } { index := 1, word := "runs", upos := "VERB" } ∧
      told "\x7bgloss:moves\x7d" { index := 1, word := "runs" } { index := 1, word := "runs", attrs := [("gloss", "moves")] } ∧
      told "\x7bPerson:3\x7d" { index := 1, word := "runs" } { index := 1, word := "runs", feats := "Number=Sing|Person=3" } := by
  decide +kernel

end Graph

end Treebank
